import P99.Library.Objects
import P99.PushDuration
import P99.PushOrder
import P99.PercentileAgreement
import P99.PercentileRefinement

namespace P99

open Portable Buckets OrderStatistics Objects

variable {L : Layout}

/-- The period of a `std::chrono::duration`: a `std::ratio` of a second, whose quotient by
`std::nano` has terms that the type `intmax_t` can hold. -/
structure Period where
  seconds : ℚ
  pos : 0 < seconds
  num_lt : (seconds / (1 / 10 ^ 9)).num < 2 ^ 63
  den_lt : (seconds / (1 / 10 ^ 9)).den < 2 ^ 63

namespace Period

/-- `std::ratio_divide` of the period by `std::nano`, in lowest terms. -/
def factor (period : Period) : ℚ := period.seconds / (1 / 10 ^ 9)

/-- `std::chrono::duration_cast` to nanoseconds, in 64 signed bits; terms of 1 are left out. -/
def durationCast (period : Period) (count : Int64) : Int64 :=
  if period.factor.den = 1 then
    if period.factor.num = 1 then count else count * .ofInt period.factor.num
  else if period.factor.num = 1 then count / .ofInt period.factor.den
  else count * .ofInt period.factor.num / .ofInt period.factor.den

variable (period : Period)

theorem factor_pos : 0 < period.factor := div_pos period.pos (by norm_num)

theorem toInt_num : (Int64.ofInt period.factor.num).toInt = period.factor.num := by
  have hpos := Rat.num_pos.mpr period.factor_pos
  exact Int64.toInt_ofInt_of_le (by omega) period.num_lt

theorem toInt_den : (Int64.ofInt period.factor.den).toInt = period.factor.den := by
  have hlt : period.factor.den < 2 ^ 63 := period.den_lt
  exact Int64.toInt_ofInt_of_le (by omega) (by omega)

variable {period} {c : Int64}

theorem toInt_mul_num (hc : 0 ≤ c) (hfit : c.toInt * period.factor.num < 2 ^ 63) :
    (c * .ofInt period.factor.num).toInt = c.toInt * period.factor.num := by
  have hnum := Rat.num_pos.mpr period.factor_pos
  have hmul : 0 ≤ c.toInt * period.factor.num := mul_nonneg (Int64.le_iff_toInt_le.mp hc) hnum.le
  rw [Int64.toInt_mul, toInt_num, Int.bmod_eq_of_le (by omega) (by omega)]

theorem toInt_div_den {x : Int64} (hx : 0 ≤ x.toInt) :
    (x / .ofInt period.factor.den).toInt = x.toInt / period.factor.den := by
  have hne : Int64.ofInt period.factor.den ≠ -1 := by
    intro heq
    have hneg := congrArg Int64.toInt heq
    rw [toInt_den] at hneg
    exact absurd (hneg.trans (by decide : (-1 : Int64).toInt = -1)) (by omega)
  rw [Int64.toInt_div_of_ne_right _ _ hne, toInt_den, Int.tdiv_eq_ediv_of_nonneg hx]

/-- The cast rounds down, as long as the product with the numerator does not overflow. -/
theorem toInt_durationCast (hc : 0 ≤ c) (hfit : c.toInt * period.factor.num < 2 ^ 63) :
    (period.durationCast c).toInt = ⌊c.toInt * period.factor⌋ := by
  have hmul := toInt_mul_num hc hfit
  have hnonneg : 0 ≤ c.toInt := Int64.le_iff_toInt_le.mp hc
  have hnum := Rat.num_pos.mpr period.factor_pos
  have hfloor : ⌊c.toInt * period.factor⌋ = c.toInt * period.factor.num / period.factor.den := by
    rw [← Rat.floor_intCast_div_natCast, Int.cast_mul, mul_div_assoc, Rat.num_div_den]
  rw [durationCast, hfloor]
  by_cases hden : period.factor.den = 1
  · rw [if_pos hden, hden, Nat.cast_one, Int.ediv_one]
    split
    · next hone => rw [hone, mul_one]
    · exact hmul
  · rw [if_neg hden]
    split
    · next hone => rw [toInt_div_den hnonneg, hone, mul_one]
    · rw [toInt_div_den (hmul ▸ mul_nonneg hnonneg hnum.le), hmul]

def ofUnit (unit : TimeUnit) : Period where
  seconds := unit.inNs / 10 ^ 9
  pos := by cases unit <;> decide +kernel
  num_lt := by cases unit <;> decide +kernel
  den_lt := by cases unit <;> decide +kernel

theorem durationCast_ofUnit (unit : TimeUnit) (count : Int64) :
    (ofUnit unit).durationCast count = P99.durationCast unit count := by
  have hden : (ofUnit unit).factor.den = 1 := by cases unit <;> decide +kernel
  have hnum : (ofUnit unit).factor.num = unit.inNs := by cases unit <;> decide +kernel
  rw [durationCast, if_pos hden, hnum, P99.durationCast]
  split
  · next hone => rw [Nat.cast_eq_one.mp hone]; exact (Int64.mul_one count).symm
  · rfl

end Period

namespace Facade

def construct (impl : Histogram L) : Histogram L := histogramInit impl

def clear (impl : Histogram L) : Histogram L := histogramClear impl

def pushNs (T : Toolchain) (impl : Histogram L) (timeInNs : UInt64) :=
  histogramPushEventTimeNs T impl timeInNs

def pushUs (T : Toolchain) (impl : Histogram L) (timeInUs : UInt64) :=
  histogramPushEventTimeUs T impl timeInUs

def pushMs (T : Toolchain) (impl : Histogram L) (timeInMs : UInt64) :=
  histogramPushEventTimeMs T impl timeInMs

def pushS (T : Toolchain) (impl : Histogram L) (timeInS : UInt64) :=
  histogramPushEventTimeS T impl timeInS

def pushDuration (T : Toolchain) (impl : Histogram L) (period : Period) (count : Int64) :
    Histogram L × Bool :=
  if count < 0 then (impl, false)
  else
    let ns := period.durationCast count
    if ns < 0 then (impl, false)
    else pushNs T impl ns.toUInt64

def empty (impl : Histogram L) : Bool := 0 = histogramEventCount impl

/-- The count is returned in a `size_t`, which need not have 64 bits. -/
def eventCount (sizeBits : ℕ) (impl : Histogram L) : BitVec sizeBits :=
  .ofNat sizeBits (histogramEventCount impl).toNat

def hasOverflowed (impl : Histogram L) : Bool := histogramHasOverflowed impl ≠ 0

def tryGetEventTimeTotal (impl : Histogram L) : Option UInt64 := histogramEventTimeTotal impl

def eventTimeTotalRaw (impl : Histogram L) : UInt64 := histogramEventTimeTotalRaw impl

def tryGetMinEventTime (impl : Histogram L) : Option UInt64 := histogramMinEventTime impl

def tryGetMaxEventTime (impl : Histogram L) : Option UInt64 := histogramMaxEventTime impl

def getMinEventTime (impl : Histogram L) : Option UInt64 :=
  match tryGetMinEventTime impl with
  | none => none
  | some min => some min

def getMaxEventTime (impl : Histogram L) : Option UInt64 :=
  match tryGetMaxEventTime impl with
  | none => none
  | some max => some max

def tryGetValueAtPercentile {D : Type} [LinearOrder D] [Add D] [Sub D] [Mul D] [Div D]
    [Double D] (impl : Histogram L) (percentile : D) : Option UInt64 :=
  histogramValueAtPercentile impl percentile

def tryGetValueAtP50 (T : Toolchain) (impl : Histogram L) := histogramValueAtP50 T impl

def tryGetValueAtP99 (T : Toolchain) (impl : Histogram L) := histogramValueAtP99 T impl

def bucket (impl : Histogram L) (index : Fin bucketCount) : UInt64 :=
  .ofNat ((histogramBuckets impl).get index).toNat

/-- `at`, or the text of the `std::out_of_range` that it throws. -/
def atIndex (impl : Histogram L) (index : ℕ) : Except String UInt64 :=
  if h : index < bucketCount then .ok (bucket impl ⟨index, h⟩)
  else .error "p99::histogram::at: bucket index out of range"

def buckets (impl : Histogram L) : Vector (BitVec L.width) bucketCount := histogramBuckets impl

end Facade

/-- The methods that change an object. -/
inductive Method
  | clear
  | push (unit : TimeUnit) (time : UInt64)
  | pushDuration (period : Period) (count : Int64)

/-- In a cast the product with the numerator must not overflow: that is undefined. -/
def Method.Defined : Method → Prop
  | .clear => True
  | .push _ _ => True
  | .pushDuration period count => count.toInt * period.factor.num < 2 ^ 63

namespace Facade

def push (T : Toolchain) : TimeUnit → Histogram L → UInt64 → Histogram L × Bool
  | .ns => pushNs T
  | .us => pushUs T
  | .ms => pushMs T
  | .s => pushS T

/-- The class `p99::histogram`. It is copied and moved member by member. -/
def histogram (L : Layout) (T : Toolchain) : Machine (Histogram L) Method Bool where
  construct := construct
  call impl
    | .clear => (clear impl, none)
    | .push unit time => ((push T unit impl time).1, some (push T unit impl time).2)
    | .pushDuration period count =>
      ((pushDuration T impl period count).1, some (pushDuration T impl period count).2)

theorem push_eq (T : Toolchain) (u : TimeUnit) (impl : Histogram L) (x : UInt64) :
    push T u impl x = histogramPush T u impl x := by cases u <;> rfl

theorem pushDuration_ofUnit (T : Toolchain) (u : TimeUnit) (impl : Histogram L) (count : Int64) :
    pushDuration T impl (.ofUnit u) count = P99.pushDuration T u impl count := by
  rw [pushDuration, P99.pushDuration, Period.durationCast_ofUnit]
  rfl

end Facade

/-- What an object is for: it holds durations, and remembers whether it has refused one. -/
structure Recorder where
  held : List ℕ
  refused : Bool
  deriving DecidableEq

namespace Recorder

def fresh : Recorder := ⟨[], false⟩

/-- After the first duration that does not fit, none is held any more. -/
def offer (L : Layout) (a : Recorder) (n : ℕ) : Recorder × Bool :=
  if a.refused = false ∧ a.held.sum + n ≤ 2 ^ 64 - 1 ∧
      (L = .compact → countIn bucketOf a.held (bucketOf n) < 2 ^ 32 - 1) then
    (⟨a.held ++ [n], false⟩, true)
  else (⟨a.held, true⟩, false)

def machine (L : Layout) : Machine Recorder Method Bool where
  construct _ := fresh
  call a
    | .clear => (fresh, none)
    | .push unit time =>
      ((a.offer L (time.toNat * unit.inNs)).1, some (a.offer L (time.toNat * unit.inNs)).2)
    | .pushDuration period count =>
      if count < 0 then (a, some false)
      else ((a.offer L ⌊count.toInt * period.factor⌋₊).1,
        some (a.offer L ⌊count.toInt * period.factor⌋₊).2)

def atLevel (a : Recorder) (p : ℚ) : Option ℕ :=
  if p ≤ 0 then a.held.min?
  else if 100 ≤ p then a.held.max?
  else if a.held = [] then none
  else some (percentileValue a.held (a.held.length * (p / 100)))

def atFixed (a : Recorder) (k : Fin 10) : Option UInt64 :=
  if a.held = [] then none
  else some (.ofNat (rankValue a.held (fixedRank a.held.length k)))

end Recorder

/-- The histogram is in the state of a run that holds what the recorder holds. -/
def Implements (T : Toolchain) (h : Histogram L) (a : Recorder) : Prop :=
  ∃ memory calls, (run T memory calls).histogram = h ∧ (run T memory calls).recorded = a.held ∧
    (run T memory calls).log.all (·.accepted) = !a.refused

namespace Implements

variable {T : Toolchain} {h : Histogram L} {a : Recorder}

theorem fresh (T : Toolchain) (h : Histogram L) : Implements T (histogramInit h) .fresh :=
  ⟨h, [], rfl, rfl, rfl⟩

theorem accepts_iff (hi : Implements T h a) (n : ℕ) :
    Accepts h n ↔ a.refused = false ∧ a.held.sum + n ≤ 2 ^ 64 - 1 ∧
      (L = .compact → countIn bucketOf a.held (bucketOf n) < 2 ^ 32 - 1) := by
  obtain ⟨memory, calls, rfl, hheld, hlog⟩ := hi
  rw [(Recording.run T memory calls).accepts_iff n, hheld, ← List.all_eq_true, hlog,
    Bool.not_eq_true']

theorem flag_cases (hi : Implements T h a) : h.hasOverflowed = 0 ∨ h.hasOverflowed = 1 := by
  obtain ⟨memory, calls, rfl, -, -⟩ := hi
  exact (Recording.run T memory calls).flag_cases

theorem push (hi : Implements T h a) (u : TimeUnit) (x : UInt64) :
    Implements T (histogramPush T u h x).1 (a.offer L (x.toNat * u.inNs)).1 ∧
      (histogramPush T u h x).2 = (a.offer L (x.toNat * u.inNs)).2 := by
  have hiff := hi.accepts_iff (x.toNat * u.inNs)
  have hpush := histogramPush_eq T hi.flag_cases u x
  obtain ⟨memory, calls, rfl, hheld, hlog⟩ := hi
  have hrun := run_append T memory calls (.push u x)
  simp only [Session.step, hpush] at hrun
  rw [hpush, Recorder.offer]
  by_cases ha : Accepts (run T memory calls).histogram (x.toNat * u.inNs)
  · rw [if_pos ha] at hrun ⊢
    rw [if_pos (hiff.mp ha)]
    refine ⟨⟨memory, calls ++ [.push u x], ?_, ?_, ?_⟩, rfl⟩
    · rw [hrun]
    · rw [hrun, Recording.recorded_push, hheld]
      rfl
    · rw [hrun, List.all_append, hlog, (hiff.mp ha).1]
      rfl
  · rw [if_neg ha] at hrun ⊢
    rw [if_neg fun hc ↦ ha (hiff.mpr hc)]
    refine ⟨⟨memory, calls ++ [.push u x], ?_, ?_, ?_⟩, rfl⟩
    · rw [hrun]
    · rw [hrun, Recording.recorded_push, hheld]
      exact List.append_nil _
    · rw [hrun, List.all_append]
      exact Bool.and_false _

theorem pushDuration (hi : Implements T h a) {p : Period} {c : Int64} (hc : 0 ≤ c)
    (hdef : c.toInt * p.factor.num < 2 ^ 63) :
    Implements T (Facade.pushDuration T h p c).1 (a.offer L ⌊c.toInt * p.factor⌋₊).1 ∧
      (Facade.pushDuration T h p c).2 = (a.offer L ⌊c.toInt * p.factor⌋₊).2 := by
  have hcast := Period.toInt_durationCast hc hdef
  have hnonneg : (0 : ℚ) ≤ c.toInt * p.factor :=
    mul_nonneg (Int.cast_nonneg (Int64.le_iff_toInt_le.mp hc)) p.factor_pos.le
  have hns : 0 ≤ p.durationCast c := by
    rw [Int64.le_iff_toInt_le, hcast]
    exact Int.floor_nonneg.mpr hnonneg
  have hnat : (p.durationCast c).toUInt64.toNat * TimeUnit.ns.inNs = ⌊c.toInt * p.factor⌋₊ := by
    rw [TimeUnit.inNs, Nat.mul_one, Int64.toNat_toUInt64_of_le hns]
    exact congrArg Int.toNat hcast
  rw [Facade.pushDuration, if_neg (Int64.not_lt.mpr hc), ← hnat]
  simp only [if_neg (Int64.not_lt.mpr hns)]
  exact hi.push .ns _

theorem simulates (T : Toolchain) :
    Simulates (Facade.histogram L T) (Recorder.machine L) Method.Defined (Implements T) where
  construct h _ := fresh T h
  state {h a m} hi hm := by
    cases m with
    | clear => exact fresh T h
    | push u x =>
      simp only [Facade.histogram, Recorder.machine, Facade.push_eq]
      exact (hi.push u x).1
    | pushDuration p c =>
      simp only [Facade.histogram, Recorder.machine]
      by_cases hc : c < 0
      · rw [if_pos hc, Facade.pushDuration, if_pos hc]
        exact hi
      · rw [if_neg hc]
        exact (hi.pushDuration (Int64.not_lt.mp hc) hm).1
  result {h a m} hi hm := by
    cases m with
    | clear => rfl
    | push u x =>
      simp only [Facade.histogram, Recorder.machine, Facade.push_eq]
      exact congrArg some (hi.push u x).2
    | pushDuration p c =>
      simp only [Facade.histogram, Recorder.machine]
      by_cases hc : c < 0
      · rw [if_pos hc, Facade.pushDuration, if_pos hc]
      · rw [if_neg hc]
        exact congrArg some (hi.pushDuration (Int64.not_lt.mp hc) hm).2

end Implements

/-- What the accessors return is what the recorder says. -/
structure Shows (T : Toolchain) (h : Histogram L) (a : Recorder) : Prop where
  empty : Facade.empty h = true ↔ a.held = []
  eventCount : ∀ w, (Facade.eventCount w h).toNat = a.held.length % 2 ^ w
  hasOverflowed : Facade.hasOverflowed h = a.refused
  total : (Facade.tryGetEventTimeTotal h).map UInt64.toNat =
    if a.refused then none else some a.held.sum
  raw : (Facade.eventTimeTotalRaw h).toNat = a.held.sum
  least : (Facade.getMinEventTime h).map UInt64.toNat = a.held.min?
  greatest : (Facade.getMaxEventTime h).map UInt64.toNat = a.held.max?
  level : ∀ p : ℚ, (Facade.tryGetValueAtPercentile h p).map UInt64.toNat = a.atLevel p
  p50 : Facade.tryGetValueAtP50 T h = .ok (a.atFixed 0)
  p99 : Facade.tryGetValueAtP99 T h = .ok (a.atFixed 4)
  index : ∀ i, Facade.atIndex h i = if i < bucketCount then .ok (.ofNat (countIn bucketOf a.held i))
    else .error "p99::histogram::at: bucket index out of range"
  buckets : ∀ i, ((Facade.buckets h).get i).toNat = countIn bucketOf a.held i

section Accessors

variable {T : Toolchain} {h : Histogram L} {R : List ℕ} (hR : Represents h R)

include hR

theorem tryGetMin_eq : (histogramMinEventTime h).map UInt64.toNat = R.min? := by
  rw [histogramMinEventTime]
  by_cases hne : R = []
  · rw [if_pos (hR.eventCount_eq_zero_iff.mpr hne), hne]
    rfl
  · rw [if_neg (hR.eventCount_ne hne)]
    exact (List.min?_eq_some_iff.mpr (hR.least hne)).symm

theorem tryGetMax_eq : (histogramMaxEventTime h).map UInt64.toNat = R.max? := by
  rw [histogramMaxEventTime]
  by_cases hne : R = []
  · rw [if_pos (hR.eventCount_eq_zero_iff.mpr hne), hne]
    rfl
  · rw [if_neg (hR.eventCount_ne hne)]
    exact (List.max?_eq_some_iff.mpr (hR.greatest hne)).symm

theorem tryGetValueAtPercentile_eq (flag : Bool) (p : ℚ) :
    (histogramValueAtPercentile h p).map UInt64.toNat = (Recorder.mk R flag).atLevel p := by
  rw [Recorder.atLevel]
  by_cases hne : R = []
  · have hz := hR.eventCount_eq_zero_iff.mpr hne
    rw [histogramValueAtPercentile, if_pos hz, if_pos hne, hne]
    split_ifs <;> rfl
  · have hz : ¬ 0 = h.eventCount := hR.eventCount_ne hne
    rw [if_neg hne]
    split_ifs with hlow hhigh
    · have hp : p ≤ Double.ofInt 0 := hlow.trans_eq Int.cast_zero.symm
      rw [percentile_low h hz hp, ← tryGetMin_eq hR, histogramMinEventTime, if_neg hz]
    · have hp : Double.ofInt 100 ≤ p := (Int.cast_ofNat 100).trans_le hhigh
      rw [percentile_high h hz hp, ← tryGetMax_eq hR, histogramMaxEventTime, if_neg hz]
    · have hvalue := percentileValue_lt hR hne (R.length * (p / 100))
      rw [valueAtPercentile_eq hR hne (not_le.mp hlow) (not_le.mp hhigh), Option.map_some,
        UInt64.toNat_ofNat_of_lt' hvalue]

theorem namedQuery_atFixed (T : Toolchain) (flag : Bool) (k : Fin 10) :
    namedQuery k T h = .ok ((Recorder.mk R flag).atFixed k) := by
  rw [Recorder.atFixed]
  by_cases hne : R = []
  · rw [if_pos hne, namedQuery_rank, valueAtTargetRank,
      if_pos (hR.eventCount_eq_zero_iff.mpr hne)]
  · obtain ⟨v, hv, hval⟩ := namedQuery_val T hR hne k
    rw [hv, if_neg hne, ← hval, UInt64.ofNat_toNat]

end Accessors

namespace Implements

variable {T : Toolchain} {h : Histogram L} {a : Recorder}

theorem records (hi : Implements T h a) (hlen : a.held.length < 2 ^ 64) :
    Records T h a.held := by
  obtain ⟨memory, calls, hh, hheld, -⟩ := hi
  exact ⟨memory, calls, hh, hheld, hlen⟩

theorem hasOverflowed_eq (hi : Implements T h a) : Facade.hasOverflowed h = a.refused := by
  obtain ⟨memory, calls, rfl, -, hlog⟩ := hi
  rw [Facade.hasOverflowed, histogramHasOverflowed, (Recording.run T memory calls).flag, hlog]
  cases a.refused <;> rfl

theorem total_eq (hi : Implements T h a) :
    (Facade.tryGetEventTimeTotal h).map UInt64.toNat =
      if a.refused then none else some a.held.sum := by
  obtain ⟨memory, calls, rfl, hheld, hlog⟩ := hi
  rw [Facade.tryGetEventTimeTotal, (Recording.run T memory calls).eventTimeTotal_eq, hlog, hheld]
  cases a.refused <;> rfl

theorem shows (hi : Implements T h a) (hlen : a.held.length < 2 ^ 64) : Shows T h a := by
  have hR := (hi.records hlen).represents
  constructor
  case empty =>
    rw [← hR.eventCount_eq_zero_iff]
    exact decide_eq_true_iff
  case eventCount =>
    intro w
    rw [Facade.eventCount, BitVec.toNat_ofNat, histogramEventCount, hR.count]
  case hasOverflowed => exact hi.hasOverflowed_eq
  case total => exact hi.total_eq
  case raw => exact hR.total
  case least =>
    rw [← tryGetMin_eq hR, Facade.getMinEventTime, Facade.tryGetMinEventTime]
    cases histogramMinEventTime h <;> rfl
  case greatest =>
    rw [← tryGetMax_eq hR, Facade.getMaxEventTime, Facade.tryGetMaxEventTime]
    cases histogramMaxEventTime h <;> rfl
  case level => exact tryGetValueAtPercentile_eq hR a.refused
  case p50 => exact namedQuery_atFixed hR T a.refused 0
  case p99 => exact namedQuery_atFixed hR T a.refused 4
  case index =>
    intro i
    rw [Facade.atIndex]
    split
    · next hi => exact congrArg Except.ok (hR.bucketAt_eq ⟨i, hi⟩)
    · rfl
  case buckets =>
    intro i
    rw [← hR.bucket i, toNat_bucketAt]
    rfl

end Implements

section Program

variable {ι : Type*} [DecidableEq ι]

theorem run_implements (T : Toolchain) (memory : ι → Histogram L)
    {program : List (Statement ι Method)} (hdef : ∀ s ∈ program, s.Allowed Method.Defined) :
    let objects := (Facade.histogram L T).store.run (fun x ↦ Facade.construct (memory x)) program
    let recorders := (Recorder.machine L).store.run (fun _ ↦ .fresh) program
    (∀ x, Implements T (objects.1 x) (recorders.1 x)) ∧ objects.2 = recorders.2 := by
  have hsim := (Implements.simulates (L := L) T).store (ι := ι)
  exact hsim.run hdef (hsim.construct memory fun _ ↦ .fresh)

/-- In every program over objects of the class that stays clear of undefined casts, each call
returns what the recorders return, and each object shows the recorder of its variable. -/
theorem program_refines (T : Toolchain) (memory : ι → Histogram L)
    (program : List (Statement ι Method)) (hdef : ∀ s ∈ program, s.Allowed Method.Defined) :
    let objects := (Facade.histogram L T).store.run (fun x ↦ Facade.construct (memory x)) program
    let recorders := (Recorder.machine L).store.run (fun _ ↦ .fresh) program
    objects.2 = recorders.2 ∧ ∀ x, (recorders.1 x).held.length < 2 ^ 64 →
      Records T (objects.1 x) (recorders.1 x).held ∧ Shows T (objects.1 x) (recorders.1 x) := by
  obtain ⟨himplements, hresults⟩ := run_implements T memory hdef
  refine ⟨hresults, fun x hlen ↦ ⟨(himplements x).records hlen, (himplements x).shows hlen⟩⟩

/-- A copy records on its own: what it is given does not reach its source, nor does a clear of the
source reach it. -/
def copied : List (Statement Bool Method) :=
  [.call false (.push .us 1), .copy true false, .call true (.pushDuration (.ofUnit .ms) 3),
    .call false .clear]

theorem copied_defined : ∀ s ∈ copied, s.Allowed Method.Defined := by
  intro s hs
  fin_cases hs
  · trivial
  · trivial
  · change (_ : ℤ) < _
    decide +kernel
  · trivial

theorem program_refines_sample :
    let objects := (Facade.histogram .standard .gccX64).store.run
      (fun _ ↦ Facade.construct (zeroed .standard)) copied
    objects.2 = [some true, none, some true, none] ∧
    Facade.empty (objects.1 false) = true ∧
    (Facade.getMinEventTime (objects.1 true)).map UInt64.toNat = some 1000 ∧
    (Facade.getMaxEventTime (objects.1 true)).map UInt64.toNat = some 3000000 := by
  obtain ⟨hresults, hobjects⟩ :=
    program_refines .gccX64 (fun _ ↦ zeroed .standard) copied copied_defined
  have hfalse := (hobjects false (by decide +kernel)).2
  have htrue := (hobjects true (by decide +kernel)).2
  refine ⟨hresults.trans (by decide +kernel), hfalse.empty.mpr (by decide +kernel),
    htrue.least.trans (by decide +kernel), htrue.greatest.trans (by decide +kernel)⟩

end Program

end P99

import P99.Buckets

namespace P99

open Portable Buckets

/-- The two builds of the structure: without and with `P99_COMPACT_HISTOGRAM`. -/
inductive Layout
  | standard
  | compact
  deriving DecidableEq, Repr

def Layout.width : Layout → ℕ
  | .standard => 64
  | .compact => 32

theorem Layout.width_le (L : Layout) : L.width ≤ 64 := by cases L <;> decide

@[ext] structure Histogram (L : Layout) where
  hasOverflowed : UInt8
  eventCount : UInt64
  eventTimeTotal : UInt64
  minEventTime : UInt64
  maxEventTime : UInt64
  buckets : Vector (BitVec L.width) bucketCount
  deriving DecidableEq

variable {L : Layout}

def bucketAt (histogram : Histogram L) (index : Fin bucketCount) : UInt64 :=
  .ofNat histogram.buckets[index].toNat

/-- `memset` to zero: the previous contents of the memory play no part. -/
def histogramInit (_histogram : Histogram L) : Histogram L where
  hasOverflowed := 0
  eventCount := 0
  eventTimeTotal := 0
  minEventTime := 0
  maxEventTime := 0
  buckets := .replicate bucketCount 0

def histogramClear (histogram : Histogram L) : Histogram L := histogramInit histogram

def tryAddNsToTotalAndUpdateMinmax (histogram : Histogram L) (timeInNs : UInt64) :
    Histogram L × Bool :=
  if histogram.hasOverflowed ≠ 0 then (histogram, false)
  else if timeInNs > uint64Max - histogram.eventTimeTotal then
    ({ histogram with hasOverflowed := 1 }, false)
  else
    let h := { histogram with eventTimeTotal := histogram.eventTimeTotal + timeInNs }
    if 0 = h.eventCount then ({ h with minEventTime := timeInNs, maxEventTime := timeInNs }, true)
    else
      let h := if timeInNs < h.minEventTime then { h with minEventTime := timeInNs } else h
      let h := if timeInNs > h.maxEventTime then { h with maxEventTime := timeInNs } else h
      (h, true)

def bucketSlot (T : Toolchain) (timeInNs : UInt64) : Fin bucketCount :=
  ⟨bucketIndex T timeInNs, bucketIndex_lt T timeInNs⟩

def histogramPushEventTimeNs (T : Toolchain) (histogram : Histogram L) (timeInNs : UInt64) :
    Histogram L × Bool :=
  let i := bucketSlot T timeInNs
  if L = .compact ∧ bucketAt histogram i ≥ uint32Max then
    ({ histogram with hasOverflowed := 1 }, false)
  else
    let (h, added) := tryAddNsToTotalAndUpdateMinmax histogram timeInNs
    if !added then (h, false)
    else
      let h := { h with eventCount := h.eventCount + 1 }
      ({ h with buckets := h.buckets.set i (h.buckets[i] + 1) }, true)

def pushEventTimeInUnit (unitInNs : UInt64) (T : Toolchain) (histogram : Histogram L)
    (time : UInt64) : Histogram L × Bool :=
  if time > uint64Max / unitInNs then ({ histogram with hasOverflowed := 1 }, false)
  else histogramPushEventTimeNs T histogram (time * unitInNs)

def histogramPushEventTimeUs (T : Toolchain) (histogram : Histogram L) (timeInUs : UInt64) :=
  pushEventTimeInUnit 1000 T histogram timeInUs

def histogramPushEventTimeMs (T : Toolchain) (histogram : Histogram L) (timeInMs : UInt64) :=
  pushEventTimeInUnit 1000000 T histogram timeInMs

def histogramPushEventTimeS (T : Toolchain) (histogram : Histogram L) (timeInS : UInt64) :=
  pushEventTimeInUnit 1000000000 T histogram timeInS

def histogramEventCount (histogram : Histogram L) : UInt64 := histogram.eventCount

def histogramEventTimeTotalRaw (histogram : Histogram L) : UInt64 := histogram.eventTimeTotal

def histogramHasOverflowed (histogram : Histogram L) : UInt8 := histogram.hasOverflowed

def histogramBuckets (histogram : Histogram L) : Vector (BitVec L.width) bucketCount :=
  histogram.buckets

/-- The statistics return `none` for `P99_FALSE`, where the out parameter is left alone. -/
def histogramEventTimeTotal (histogram : Histogram L) : Option UInt64 :=
  if histogram.hasOverflowed ≠ 0 then none else some histogram.eventTimeTotal

def histogramMinEventTime (histogram : Histogram L) : Option UInt64 :=
  if 0 = histogram.eventCount then none else some histogram.minEventTime

def histogramMaxEventTime (histogram : Histogram L) : Option UInt64 :=
  if 0 = histogram.eventCount then none else some histogram.maxEventTime

def histogramBucketValue (histogram : Histogram L) (index : ℕ) : Option UInt64 :=
  if h : index < bucketCount then some (bucketAt histogram ⟨index, h⟩) else none

inductive TimeUnit
  | ns
  | us
  | ms
  | s
  deriving DecidableEq, Repr

def TimeUnit.inNs : TimeUnit → ℕ
  | .ns => 1
  | .us => 10 ^ 3
  | .ms => 10 ^ 6
  | .s => 10 ^ 9

def histogramPush (T : Toolchain) : TimeUnit → Histogram L → UInt64 → Histogram L × Bool
  | .ns => histogramPushEventTimeNs T
  | .us => histogramPushEventTimeUs T
  | .ms => histogramPushEventTimeMs T
  | .s => histogramPushEventTimeS T

theorem toNat_bucketAt (h : Histogram L) (i : Fin bucketCount) :
    (bucketAt h i).toNat = h.buckets[i].toNat := by
  have hlt : h.buckets[i].toNat < 2 ^ 64 :=
    (BitVec.isLt _).trans_le (Nat.pow_le_pow_right (by decide) L.width_le)
  rw [bucketAt, UInt64.toNat_ofNat_of_lt' hlt]

theorem bucketAt_eq_zero {h : Histogram L} {i : Fin bucketCount} (hi : ¬ bucketAt h i > 0) :
    bucketAt h i = 0 := by
  by_contra hz
  exact hi (UInt64.pos_iff_ne_zero.mpr hz)

def slotOf (t : UInt64) : Fin bucketCount := ⟨bucketOf t.toNat, bucketOf_lt t.toNat_lt⟩

theorem bucketSlot_eq (T : Toolchain) (t : UInt64) : bucketSlot T t = slotOf t :=
  Fin.ext (bucketIndex_eq T t)

/-- What an accepted push of `t` nanoseconds does to the state. -/
def Histogram.record (h : Histogram L) (t : UInt64) : Histogram L where
  hasOverflowed := h.hasOverflowed
  eventCount := h.eventCount + 1
  eventTimeTotal := h.eventTimeTotal + t
  minEventTime := if 0 = h.eventCount ∨ t < h.minEventTime then t else h.minEventTime
  maxEventTime := if 0 = h.eventCount ∨ t > h.maxEventTime then t else h.maxEventTime
  buckets := h.buckets.set (slotOf t) (h.buckets[slotOf t] + 1)

def Histogram.refuse (h : Histogram L) : Histogram L := { h with hasOverflowed := 1 }

/-- The condition under which a duration of `n` nanoseconds is accepted. -/
structure Accepts (h : Histogram L) (n : ℕ) : Prop where
  running : h.hasOverflowed = 0
  total : h.eventTimeTotal.toNat + n < 2 ^ 64
  bucket : L = .compact → ∀ i : Fin bucketCount, (i : ℕ) = bucketOf n →
    h.buckets[i].toNat < 2 ^ 32 - 1

theorem tryAdd_of_running {h : Histogram L} {t : UInt64} (hr : h.hasOverflowed = 0)
    (ht : h.eventTimeTotal.toNat + t.toNat < 2 ^ 64) :
    tryAddNsToTotalAndUpdateMinmax h t =
      ({ h.record t with eventCount := h.eventCount, buckets := h.buckets }, true) := by
  have hle : ¬ t > uint64Max - h.eventTimeTotal := by
    rw [gt_iff_lt, UInt64.lt_iff_toNat_lt, UInt64.toNat_sub_of_le _ _ (le_uint64Max _),
      toNat_uint64Max]
    omega
  rw [tryAddNsToTotalAndUpdateMinmax, if_neg (not_not.mpr hr), if_neg hle]
  by_cases hz : 0 = h.eventCount
  · simp [hz, Histogram.record]
  · by_cases hmin : t < h.minEventTime <;> by_cases hmax : h.maxEventTime < t <;>
      simp [hz, hmin, hmax, Histogram.record]

theorem tryAdd_of_overflow {h : Histogram L} {t : UInt64} (hr : h.hasOverflowed = 0)
    (ht : 2 ^ 64 ≤ h.eventTimeTotal.toNat + t.toNat) :
    tryAddNsToTotalAndUpdateMinmax h t = (h.refuse, false) := by
  have hgt : t > uint64Max - h.eventTimeTotal := by
    have htotal := h.eventTimeTotal.toNat_lt
    rw [gt_iff_lt, UInt64.lt_iff_toNat_lt, UInt64.toNat_sub_of_le _ _ (le_uint64Max _),
      toNat_uint64Max]
    omega
  rw [tryAddNsToTotalAndUpdateMinmax, if_neg (not_not.mpr hr), if_pos hgt]
  rfl

theorem tryAdd_of_overflowed {h : Histogram L} {t : UInt64} (hr : h.hasOverflowed ≠ 0) :
    tryAddNsToTotalAndUpdateMinmax h t = (h, false) := if_pos hr

theorem refuse_of_overflowed {h : Histogram L} (hr : h.hasOverflowed = 1) : h.refuse = h := by
  rw [Histogram.refuse, ← hr]

open Classical in
theorem histogramPushEventTimeNs_eq (T : Toolchain) {h : Histogram L}
    (hflag : h.hasOverflowed = 0 ∨ h.hasOverflowed = 1) (t : UInt64) :
    histogramPushEventTimeNs T h t =
      if Accepts h t.toNat then (h.record t, true) else (h.refuse, false) := by
  simp only [histogramPushEventTimeNs, bucketSlot_eq]
  by_cases hfull : L = .compact ∧ bucketAt h (slotOf t) ≥ uint32Max
  · have hno : ¬ Accepts h t.toNat := by
      intro ha
      have hlt := ha.bucket hfull.1 (slotOf t) rfl
      have hge := UInt64.le_iff_toNat_le.mp hfull.2
      rw [toNat_bucketAt] at hge
      exact absurd hge (not_le.mpr hlt)
    rw [if_pos hfull, if_neg hno]
    rfl
  · rw [if_neg hfull]
    have hbucket : L = .compact → ∀ i : Fin bucketCount, (i : ℕ) = bucketOf t.toNat →
        h.buckets[i].toNat < 2 ^ 32 - 1 := by
      intro hL i hi
      obtain rfl : i = slotOf t := Fin.ext hi
      have hlt : ¬ uint32Max.toNat ≤ (bucketAt h (slotOf t)).toNat := fun hle ↦
        hfull ⟨hL, UInt64.le_iff_toNat_le.mpr hle⟩
      rw [toNat_bucketAt] at hlt
      exact not_le.mp hlt
    rcases hflag with hr | hr
    · by_cases ht : h.eventTimeTotal.toNat + t.toNat < 2 ^ 64
      · have ha : Accepts h t.toNat := ⟨hr, ht, hbucket⟩
        rw [tryAdd_of_running hr ht, if_pos ha]
        rfl
      · have ha : ¬ Accepts h t.toNat := fun ha ↦ ht ha.total
        rw [tryAdd_of_overflow hr (not_lt.mp ht), if_neg ha]
        rfl
    · have hne : h.hasOverflowed ≠ 0 := by rw [hr]; decide
      have ha : ¬ Accepts h t.toNat := fun ha ↦ hne ha.running
      rw [tryAdd_of_overflowed hne, if_neg ha, refuse_of_overflowed hr]
      rfl

open Classical in
theorem pushEventTimeInUnit_eq (T : Toolchain) {h : Histogram L}
    (hflag : h.hasOverflowed = 0 ∨ h.hasOverflowed = 1) {unitInNs : UInt64} (hu : unitInNs ≠ 0)
    (x : UInt64) :
    pushEventTimeInUnit unitInNs T h x =
      if Accepts h (x.toNat * unitInNs.toNat) then
        (h.record (.ofNat (x.toNat * unitInNs.toNat)), true)
      else (h.refuse, false) := by
  rw [pushEventTimeInUnit]
  by_cases hx : x > uint64Max / unitInNs
  · have hbig : ¬ x.toNat * unitInNs.toNat < 2 ^ 64 := fun hsmall ↦
      UInt64.not_le.mpr hx ((le_max_div_iff hu).mpr hsmall)
    have hno : ¬ Accepts h (x.toNat * unitInNs.toNat) := fun ha ↦
      hbig ((Nat.le_add_left _ _).trans_lt ha.total)
    rw [if_pos hx, if_neg hno]
    rfl
  · have hsmall := (le_max_div_iff hu).mp (UInt64.not_lt.mp hx)
    have hmul : (x * unitInNs).toNat = x.toNat * unitInNs.toNat := by
      rw [UInt64.toNat_mul, Nat.mod_eq_of_lt hsmall]
    rw [if_neg hx, histogramPushEventTimeNs_eq T hflag, ← hmul, UInt64.ofNat_toNat]

open Classical in
/-- The step lemma of recording: a push either records its exact duration or is refused. -/
theorem histogramPush_eq (T : Toolchain) {h : Histogram L}
    (hflag : h.hasOverflowed = 0 ∨ h.hasOverflowed = 1) (u : TimeUnit) (x : UInt64) :
    histogramPush T u h x =
      if Accepts h (x.toNat * u.inNs) then (h.record (.ofNat (x.toNat * u.inNs)), true)
      else (h.refuse, false) := by
  cases u with
  | ns =>
    rw [TimeUnit.inNs, Nat.mul_one, UInt64.ofNat_toNat]
    exact histogramPushEventTimeNs_eq T hflag x
  | us => exact pushEventTimeInUnit_eq T hflag (by decide) x
  | ms => exact pushEventTimeInUnit_eq T hflag (by decide) x
  | s => exact pushEventTimeInUnit_eq T hflag (by decide) x

end P99

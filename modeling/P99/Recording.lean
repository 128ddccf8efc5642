import P99.Histogram
import P99.Library.OrderStatistics
import P99.Library.RunningTotal
import Mathlib.Algebra.BigOperators.Fin
import Mathlib.Algebra.Order.BigOperators.Group.List

namespace P99

open Portable Buckets OrderStatistics RunningTotal

variable {L : Layout}

inductive Call
  | init
  | clear
  | push (unit : TimeUnit) (time : UInt64)

structure PushRecord where
  unit : TimeUnit
  time : UInt64
  accepted : Bool

def PushRecord.duration (e : PushRecord) : ℕ := e.time.toNat * e.unit.inNs

/-- A histogram together with the pushes made since its last `init` or `clear`. -/
structure Session (L : Layout) where
  histogram : Histogram L
  log : List PushRecord

namespace Session

/-- The durations, in nanoseconds, of the pushes that returned `P99_TRUE`. -/
def recorded (s : Session L) : List ℕ := (s.log.filter (·.accepted)).map PushRecord.duration

def step (T : Toolchain) (s : Session L) : Call → Session L
  | .init => ⟨histogramInit s.histogram, []⟩
  | .clear => ⟨histogramClear s.histogram, []⟩
  | .push u x =>
    let (h, accepted) := histogramPush T u s.histogram x
    ⟨h, s.log ++ [⟨u, x, accepted⟩]⟩

end Session

def run (T : Toolchain) (memory : Histogram L) (calls : List Call) : Session L :=
  calls.foldl (Session.step T) ⟨histogramInit memory, []⟩

theorem run_append (T : Toolchain) (memory : Histogram L) (calls : List Call) (c : Call) :
    run T memory (calls ++ [c]) = (run T memory calls).step T c := by
  rw [run, List.foldl_append]
  rfl

/-- What holds of every session of a run. The counters are exact modulo their width; the compact
counters never reach it. -/
structure Recording (s : Session L) : Prop where
  flag : s.histogram.hasOverflowed = if s.log.all (·.accepted) then 0 else 1
  total : s.histogram.eventTimeTotal.toNat = s.recorded.sum
  count : s.histogram.eventCount = .ofNat s.recorded.length
  bucket : ∀ i : Fin bucketCount,
    s.histogram.buckets[i] = .ofNat L.width (countIn bucketOf s.recorded i)
  capacity : L = .compact → ∀ i : ℕ, countIn bucketOf s.recorded i ≤ 2 ^ 32 - 1
  least : s.recorded ≠ [] → s.recorded.length < 2 ^ 64 →
    IsLeast {t | t ∈ s.recorded} s.histogram.minEventTime.toNat
  greatest : s.recorded ≠ [] → s.recorded.length < 2 ^ 64 →
    IsGreatest {t | t ∈ s.recorded} s.histogram.maxEventTime.toNat

namespace Recording

theorem fresh (memory : Histogram L) : Recording ⟨histogramInit memory, []⟩ where
  flag := rfl
  total := rfl
  count := rfl
  bucket i := by simp [histogramInit, Session.recorded, countIn]
  capacity _ i := by simp [Session.recorded, countIn]
  least h := absurd rfl h
  greatest h := absurd rfl h

variable {s : Session L}

theorem flag_cases (hs : Recording s) :
    s.histogram.hasOverflowed = 0 ∨ s.histogram.hasOverflowed = 1 := by
  rw [hs.flag]
  split
  · exact .inl rfl
  · exact .inr rfl

theorem flag_eq_zero_iff (hs : Recording s) :
    s.histogram.hasOverflowed = 0 ↔ ∀ e ∈ s.log, e.accepted = true := by
  rw [hs.flag, ← List.all_eq_true]
  split <;> simp_all

theorem flag_eq_one_iff (hs : Recording s) :
    s.histogram.hasOverflowed = 1 ↔ ∃ e ∈ s.log, e.accepted = false := by
  have hzero := hs.flag_eq_zero_iff
  rcases hs.flag_cases with h | h
  · simp only [h, true_iff] at hzero ⊢
    constructor
    · intro hone
      exact absurd hone (by decide)
    · intro ⟨e, he, hf⟩
      rw [hzero e he] at hf
      cases hf
  · rw [h] at hzero
    simp only [h, true_iff]
    by_contra hno
    simp only [not_exists, not_and, Bool.not_eq_false] at hno
    exact absurd (hzero.mpr hno) (by decide)

theorem eventTimeTotal_eq (hs : Recording s) :
    (histogramEventTimeTotal s.histogram).map UInt64.toNat =
      if s.log.all (·.accepted) then some s.recorded.sum else none := by
  rw [histogramEventTimeTotal, hs.flag]
  cases s.log.all (·.accepted) with
  | false => rfl
  | true => exact congrArg some hs.total

theorem toNat_bucketAt (hs : Recording s) (hlen : L = .standard → s.recorded.length < 2 ^ 64)
    (i : Fin bucketCount) : (bucketAt s.histogram i).toNat = countIn bucketOf s.recorded i := by
  rw [P99.toNat_bucketAt, hs.bucket, BitVec.toNat_ofNat]
  apply Nat.mod_eq_of_lt
  cases L with
  | standard => exact (countIn_le_length _ _ _).trans_lt (hlen rfl)
  | compact => exact (hs.capacity rfl i).trans_lt (by decide)

theorem accepts_iff (hs : Recording s) (n : ℕ) :
    Accepts s.histogram n ↔ (∀ e ∈ s.log, e.accepted = true) ∧
      s.recorded.sum + n ≤ 2 ^ 64 - 1 ∧
      (L = .compact → countIn bucketOf s.recorded (bucketOf n) < 2 ^ 32 - 1) := by
  constructor
  · intro ⟨hrun, htotal, hbucket⟩
    rw [hs.total] at htotal
    refine ⟨hs.flag_eq_zero_iff.mp hrun, by omega, fun hL ↦ ?_⟩
    have hn : bucketOf n < bucketCount := bucketOf_lt (by omega)
    have hlt := hbucket hL ⟨bucketOf n, hn⟩ rfl
    rwa [← P99.toNat_bucketAt, hs.toNat_bucketAt (fun h ↦ by rw [hL] at h; cases h)] at hlt
  · intro ⟨hlog, htotal, hbucket⟩
    refine ⟨hs.flag_eq_zero_iff.mpr hlog, by rw [hs.total]; omega, fun hL i hi ↦ ?_⟩
    rw [← P99.toNat_bucketAt, hs.toNat_bucketAt (fun h ↦ by rw [hL] at h; cases h), hi]
    exact hbucket hL

theorem recorded_push (s : Session L) (h : Histogram L) (u : TimeUnit) (x : UInt64) (ok : Bool) :
    (Session.mk h (s.log ++ [⟨u, x, ok⟩])).recorded =
      s.recorded ++ if ok then [x.toNat * u.inNs] else [] := by
  cases ok <;> simp [Session.recorded, PushRecord.duration]

theorem isLeast_append {l : List ℕ} {m t : ℕ} (h : IsLeast {x | x ∈ l} m) :
    IsLeast {x | x ∈ l ++ [t]} (if t < m then t else m) := by
  have hset : {x | x ∈ l ++ [t]} = {x | x ∈ l} ∪ {t} := by ext; simp [or_comm]
  rw [hset, show (if t < m then t else m) = min m t by rw [min_def]; split <;> split <;> omega]
  exact h.union isLeast_singleton

theorem isGreatest_append {l : List ℕ} {m t : ℕ} (h : IsGreatest {x | x ∈ l} m) :
    IsGreatest {x | x ∈ l ++ [t]} (if m < t then t else m) := by
  have hset : {x | x ∈ l ++ [t]} = {x | x ∈ l} ∪ {t} := by ext; simp [or_comm]
  rw [hset, show (if m < t then t else m) = max m t by rw [max_def]; split <;> split <;> omega]
  exact h.union isGreatest_singleton

theorem countIn_append (l : List ℕ) (t i : ℕ) :
    countIn bucketOf (l ++ [t]) i = countIn bucketOf l i + if bucketOf t = i then 1 else 0 := by
  simp [countIn, List.countP_append, List.countP_cons]

theorem eventCount_eq_zero_iff (hs : Recording s) (hlen : s.recorded.length < 2 ^ 64) :
    0 = s.histogram.eventCount ↔ s.recorded = [] := by
  rw [hs.count, ← UInt64.toNat_inj, UInt64.toNat_ofNat_of_lt' hlen, UInt64.toNat_zero, eq_comm,
    List.length_eq_zero_iff]

section Accepted

variable {n : ℕ}

theorem bucket_record (hs : Recording s) (hn : n < 2 ^ 64) (i : Fin bucketCount) :
    (s.histogram.record (.ofNat n)).buckets.get i =
      .ofNat L.width (countIn bucketOf (s.recorded ++ [n]) i) := by
  rw [countIn_append]
  change (s.histogram.buckets.set (slotOf (.ofNat n)) _)[(i : ℕ)] = _
  rw [Vector.getElem_set]
  have hslot : (slotOf (.ofNat n) : ℕ) = bucketOf n :=
    congrArg bucketOf (UInt64.toNat_ofNat_of_lt' hn)
  by_cases hi : bucketOf n = i
  · obtain rfl : slotOf (.ofNat n) = i := Fin.ext (hslot.trans hi)
    rw [if_pos rfl, if_pos hi, hs.bucket, BitVec.ofNat_add]
    rfl
  · rw [if_neg (hslot ▸ hi), if_neg hi, Nat.add_zero]
    exact hs.bucket i

theorem least_record (hs : Recording s) (hn : n < 2 ^ 64) (hlen : s.recorded.length < 2 ^ 64) :
    IsLeast {t | t ∈ s.recorded ++ [n]} (s.histogram.record (.ofNat n)).minEventTime.toNat := by
  have hnat : (UInt64.ofNat n).toNat = n := UInt64.toNat_ofNat_of_lt' hn
  change IsLeast _ (UInt64.toNat (if 0 = s.histogram.eventCount ∨ _ then _ else _))
  by_cases hz : s.recorded = []
  · rw [if_pos (.inl ((hs.eventCount_eq_zero_iff hlen).mpr hz)), hz, hnat]
    simp
  · have hmin := isLeast_append (t := n) (hs.least hz hlen)
    simp only [hs.eventCount_eq_zero_iff hlen, hz, false_or, UInt64.lt_iff_toNat_lt, hnat]
    rw [apply_ite UInt64.toNat, hnat]
    exact hmin

theorem greatest_record (hs : Recording s) (hn : n < 2 ^ 64) (hlen : s.recorded.length < 2 ^ 64) :
    IsGreatest {t | t ∈ s.recorded ++ [n]} (s.histogram.record (.ofNat n)).maxEventTime.toNat := by
  have hnat : (UInt64.ofNat n).toNat = n := UInt64.toNat_ofNat_of_lt' hn
  change IsGreatest _ (UInt64.toNat (if 0 = s.histogram.eventCount ∨ _ then _ else _))
  by_cases hz : s.recorded = []
  · rw [if_pos (.inl ((hs.eventCount_eq_zero_iff hlen).mpr hz)), hz, hnat]
    simp
  · have hmax := isGreatest_append (t := n) (hs.greatest hz hlen)
    simp only [hs.eventCount_eq_zero_iff hlen, hz, false_or, gt_iff_lt, UInt64.lt_iff_toNat_lt,
      hnat]
    rw [apply_ite UInt64.toNat, hnat]
    exact hmax

end Accepted

theorem push_accepted (hs : Recording s) {u : TimeUnit} {x : UInt64}
    (ha : Accepts s.histogram (x.toNat * u.inNs)) :
    Recording ⟨s.histogram.record (.ofNat (x.toNat * u.inNs)), s.log ++ [⟨u, x, true⟩]⟩ := by
  have hrec := recorded_push s (s.histogram.record (.ofNat (x.toNat * u.inNs))) u x true
  rw [if_pos rfl] at hrec
  have hfit := ha.total
  obtain ⟨hlog, -, hcap⟩ := (hs.accepts_iff _).mp ha
  generalize x.toNat * u.inNs = n at *
  have hn : n < 2 ^ 64 := by omega
  have hold : (s.recorded ++ [n]).length < 2 ^ 64 → s.recorded.length < 2 ^ 64 := by
    intro hlen
    rw [List.length_append] at hlen
    omega
  constructor
  case flag =>
    change s.histogram.hasOverflowed = _
    rw [ha.running, if_pos]
    simpa using hlog
  case total =>
    rw [hrec, List.sum_append_nat, List.sum_singleton, ← hs.total]
    change (s.histogram.eventTimeTotal + .ofNat n).toNat = _
    rw [UInt64.toNat_add, UInt64.toNat_ofNat_of_lt' hn, Nat.mod_eq_of_lt hfit]
  case count =>
    rw [hrec, List.length_append, List.length_singleton, UInt64.ofNat_add, ← hs.count]
    rfl
  case bucket => exact hrec ▸ hs.bucket_record hn
  case capacity =>
    intro hL i
    rw [hrec, countIn_append]
    have hroom := hs.capacity hL i
    have hnew := hcap hL
    split
    · next hi => rw [← hi]; omega
    · exact hroom
  case least =>
    intro _ hlen
    rw [hrec] at hlen ⊢
    exact hs.least_record hn (hold hlen)
  case greatest =>
    intro _ hlen
    rw [hrec] at hlen ⊢
    exact hs.greatest_record hn (hold hlen)

theorem push_refused (hs : Recording s) (u : TimeUnit) (x : UInt64) :
    Recording ⟨s.histogram.refuse, s.log ++ [⟨u, x, false⟩]⟩ := by
  have hrec := recorded_push s s.histogram.refuse u x false
  rw [if_neg Bool.false_ne_true, List.append_nil] at hrec
  constructor
  · simp [Histogram.refuse]
  all_goals rw [hrec]
  · exact hs.total
  · exact hs.count
  · exact hs.bucket
  · exact hs.capacity
  · exact hs.least
  · exact hs.greatest

theorem step (T : Toolchain) (hs : Recording s) (c : Call) : Recording (s.step T c) := by
  cases c with
  | init => exact fresh _
  | clear => exact fresh _
  | push u x =>
    simp only [Session.step, histogramPush_eq T hs.flag_cases]
    by_cases ha : Accepts s.histogram (x.toNat * u.inNs)
    · rw [if_pos ha]
      exact hs.push_accepted ha
    · rw [if_neg ha]
      exact hs.push_refused u x

theorem foldl (T : Toolchain) (hs : Recording s) (calls : List Call) :
    Recording (calls.foldl (Session.step T) s) := by
  induction calls generalizing s with
  | nil => exact hs
  | cons c calls ih => exact ih (hs.step T c)

theorem run (T : Toolchain) (memory : Histogram L) (calls : List Call) :
    Recording (run T memory calls) := (fresh memory).foldl T calls

end Recording

/-- A histogram, seen as the list of the durations it holds. -/
structure Represents (h : Histogram L) (R : List ℕ) : Prop where
  count : h.eventCount.toNat = R.length
  total : h.eventTimeTotal.toNat = R.sum
  bucket : ∀ i : Fin bucketCount, (bucketAt h i).toNat = countIn bucketOf R i
  least : R ≠ [] → IsLeast {t | t ∈ R} h.minEventTime.toNat
  greatest : R ≠ [] → IsGreatest {t | t ∈ R} h.maxEventTime.toNat

theorem Recording.represents {s : Session L} (hs : Recording s)
    (hlen : s.recorded.length < 2 ^ 64) : Represents s.histogram s.recorded where
  count := by rw [hs.count, UInt64.toNat_ofNat_of_lt' hlen]
  total := hs.total
  bucket := hs.toNat_bucketAt fun _ ↦ hlen
  least h := hs.least h hlen
  greatest h := hs.greatest h hlen

/-- `h` is reached by a run whose accepted durations since the last `init` or `clear` are `R`. An
increment of the event count past `UINT64_MAX` is undefined, so they are fewer than `2 ^ 64`. -/
def Records (T : Toolchain) (h : Histogram L) (R : List ℕ) : Prop :=
  ∃ memory calls, (run T memory calls).histogram = h ∧ (run T memory calls).recorded = R ∧
    R.length < 2 ^ 64

theorem Records.represents {T : Toolchain} {h : Histogram L} {R : List ℕ} (hR : Records T h R) :
    Represents h R := by
  obtain ⟨memory, calls, rfl, rfl, hlen⟩ := hR
  exact (Recording.run T memory calls).represents hlen

namespace Represents

variable {h : Histogram L} {R : List ℕ}

theorem sum_lt (hR : Represents h R) : R.sum < 2 ^ 64 := hR.total ▸ h.eventTimeTotal.toNat_lt

theorem length_lt (hR : Represents h R) : R.length < 2 ^ 64 := hR.count ▸ h.eventCount.toNat_lt

theorem lt_of_mem (hR : Represents h R) {t : ℕ} (ht : t ∈ R) : t < 2 ^ 64 :=
  (List.le_sum_of_mem ht).trans_lt hR.sum_lt

theorem countBelow_bucketCount (hR : Represents h R) :
    countBelow bucketOf R bucketCount = R.length :=
  List.countP_eq_length.mpr fun _ ht ↦ decide_eq_true (bucketOf_lt (hR.lt_of_mem ht))

theorem eventCount_eq_zero_iff (hR : Represents h R) : 0 = h.eventCount ↔ R = [] := by
  rw [← UInt64.toNat_inj, hR.count, UInt64.toNat_zero, eq_comm, List.length_eq_zero_iff]

theorem eventCount_ne (hR : Represents h R) (hne : R ≠ []) : ¬ 0 = h.eventCount :=
  fun hz ↦ hne (hR.eventCount_eq_zero_iff.mp hz)

theorem sum_buckets (hR : Represents h R) :
    ∑ i : Fin bucketCount, (bucketAt h i).toNat = R.length := by
  have hsum : ∀ n, ∑ i ∈ Finset.range n, countIn bucketOf R i = countBelow bucketOf R n := by
    intro n
    induction n with
    | zero => simp [countBelow]
    | succ n ih => rw [Finset.sum_range_succ, ih, countBelow_succ]
  rw [← hR.countBelow_bucketCount, ← hsum bucketCount, ← Fin.sum_univ_eq_sum_range]
  exact Finset.sum_congr rfl fun i _ ↦ hR.bucket i

theorem countP_bucketIndex (hR : Represents h R) (T : Toolchain) (i : ℕ) :
    R.countP (fun t ↦ bucketIndex T (.ofNat t) = i) = countIn bucketOf R i := by
  refine List.countP_congr fun t ht ↦ ?_
  rw [bucketIndex_eq, UInt64.toNat_ofNat_of_lt' (hR.lt_of_mem ht)]

theorem bucketAt_eq (hR : Represents h R) (i : Fin bucketCount) :
    bucketAt h i = .ofNat (countIn bucketOf R i) := by
  rw [← hR.bucket, UInt64.ofNat_toNat]

theorem bucketValue_eq (hR : Represents h R) (i : ℕ) :
    histogramBucketValue h i =
      if i < bucketCount then some (.ofNat (countIn bucketOf R i)) else none := by
  rw [histogramBucketValue]
  split
  · exact congrArg some (hR.bucketAt_eq _)
  · rfl

theorem total_step (hR : Represents h R) (j : Fin bucketCount) :
    UInt64.ofNat (countBelow bucketOf R (j + 1)) =
      UInt64.ofNat (countBelow bucketOf R j) + bucketAt h j := by
  rw [countBelow_succ, UInt64.ofNat_add, hR.bucketAt_eq]

theorem total_flat (hR : Represents h R) (j : Fin bucketCount) (hj : ¬ 0 < bucketAt h j) :
    UInt64.ofNat (countBelow bucketOf R (j + 1)) = UInt64.ofNat (countBelow bucketOf R j) := by
  rw [hR.total_step, bucketAt_eq_zero hj, UInt64.add_zero]

theorem toNat_total (hR : Represents h R) (i : ℕ) :
    (UInt64.ofNat (countBelow bucketOf R i)).toNat = countBelow bucketOf R i := by
  rw [UInt64.toNat_ofNat_of_lt' ((countBelow_le_length bucketOf R i).trans_lt hR.length_lt)]

theorem accumulated_eq (hR : Represents h R) :
    (List.finRange bucketCount).foldl (fun acc i ↦ acc + bucketAt h i) 0 = h.eventCount := by
  have hwalk := foldl_finRange (fun k ↦ UInt64.ofNat (countBelow bucketOf R k)) hR.total_step
  rw [countBelow_zero, hR.countBelow_bucketCount, ← hR.count, UInt64.ofNat_toNat] at hwalk
  exact hwalk

theorem exists_bucket (hR : Represents h R) (hne : R ≠ []) : ∃ i, bucketAt h i > 0 := by
  by_contra hnone
  rw [not_exists] at hnone
  have hflat : (List.finRange bucketCount).foldl (fun acc i ↦ acc + bucketAt h i) 0 = 0 :=
    foldl_flat (fun i _ acc ↦ by rw [bucketAt_eq_zero (hnone i), UInt64.add_zero]) 0
  exact hne (hR.eventCount_eq_zero_iff.mp (hflat.symm.trans hR.accumulated_eq))

end Represents

def zeroed (L : Layout) : Histogram L := ⟨0, 0, 0, 0, 0, .replicate bucketCount 0⟩

def sample : Session .standard :=
  run .gccX64 (zeroed .standard) [.push .ns 1, .push .us 1, .push .ns 1000]

theorem sample_records : Records .gccX64 sample.histogram sample.recorded :=
  ⟨_, _, rfl, rfl, by decide⟩

/-- In every state of every run the counters are exact: the event count, the total, each bucket
and the extrema are those of the list of accepted durations. -/
theorem run_counters (T : Toolchain) (memory : Histogram L) (calls : List Call)
    (hlen : (run T memory calls).recorded.length < 2 ^ 64) :
    let h := (run T memory calls).histogram
    let R := (run T memory calls).recorded
    h.eventCount.toNat = R.length ∧
    h.eventTimeTotal.toNat = R.sum ∧
    (∀ i : Fin bucketCount,
      h.buckets[i].toNat = R.countP (fun t ↦ bucketIndex T (.ofNat t) = i)) ∧
    ∑ i : Fin bucketCount, h.buckets[i].toNat = h.eventCount.toNat ∧
    (R ≠ [] → IsLeast {t | t ∈ R} h.minEventTime.toNat ∧
      IsGreatest {t | t ∈ R} h.maxEventTime.toNat) := by
  have hR := (Recording.run T memory calls).represents hlen
  refine ⟨hR.count, hR.total, fun i ↦ ?_, ?_, fun hne ↦ ⟨hR.least hne, hR.greatest hne⟩⟩
  · rw [hR.countP_bucketIndex, ← hR.bucket]
    exact (toNat_bucketAt _ i).symm
  · rw [hR.count, ← hR.sum_buckets]
    exact Finset.sum_congr rfl fun i _ ↦ (toNat_bucketAt _ i).symm

theorem run_counters_sample :
    sample.histogram.eventCount.toNat = sample.recorded.length ∧
    sample.histogram.eventTimeTotal.toNat = sample.recorded.sum ∧
    (∀ i : Fin bucketCount, (sample.histogram.buckets.get i).toNat =
      sample.recorded.countP fun t ↦ bucketIndex .gccX64 (.ofNat t) = i) ∧
    ∑ i : Fin bucketCount, (sample.histogram.buckets.get i).toNat =
      sample.histogram.eventCount.toNat ∧
    IsLeast {t | t ∈ sample.recorded} sample.histogram.minEventTime.toNat ∧
    IsGreatest {t | t ∈ sample.recorded} sample.histogram.maxEventTime.toNat := by
  obtain ⟨hcount, htotal, hbuckets, hsum, hextremes⟩ := run_counters .gccX64 (zeroed .standard)
    [.push .ns 1, .push .us 1, .push .ns 1000] (by decide)
  exact ⟨hcount, htotal, hbuckets, hsum, hextremes (by decide)⟩

section Rejection

variable (T : Toolchain)

theorem foldl_overflowed {s : Session L} (hs : s.histogram.hasOverflowed = 1)
    (later : List (TimeUnit × UInt64)) :
    (later.map fun p ↦ Call.push p.1 p.2).foldl (Session.step T) s =
      ⟨s.histogram, s.log ++ later.map fun p ↦ ⟨p.1, p.2, false⟩⟩ := by
  induction later generalizing s with
  | nil => simp
  | cons p later ih =>
    have hno : ¬ Accepts s.histogram (p.2.toNat * p.1.inNs) := fun ha ↦ by
      have hrun := ha.running
      rw [hs] at hrun
      exact absurd hrun (by decide)
    have hstep : s.step T (.push p.1 p.2) = ⟨s.histogram, s.log ++ [⟨p.1, p.2, false⟩]⟩ := by
      simp only [Session.step, histogramPush_eq T (.inr hs), if_neg hno, refuse_of_overflowed hs]
    have hrest := ih (s := ⟨s.histogram, s.log ++ [⟨p.1, p.2, false⟩]⟩) hs
    rw [List.append_assoc] at hrest
    rw [List.map_cons, List.foldl_cons, hstep]
    exact hrest

/-- A push is accepted exactly when nothing was refused before it, the exact sum still fits and,
in the compact layout, its bucket has room. A refused push sets the flag and changes nothing
else, and so does every push after it; the flag is set exactly when some push was refused. -/
theorem push_acceptance (memory : Histogram L) (calls : List Call) (u : TimeUnit) (x : UInt64) :
    let s := run T memory calls
    let n := x.toNat * u.inNs
    let r := histogramPush T u s.histogram x
    (r.2 = true ↔ (∀ e ∈ s.log, e.accepted = true) ∧ s.recorded.sum + n ≤ 2 ^ 64 - 1 ∧
      (L = .compact → s.recorded.countP (fun t ↦ bucketOf t = bucketOf n) < 2 ^ 32 - 1)) ∧
    (r.2 = false → r.1 = { s.histogram with hasOverflowed := 1 } ∧
      ∀ later : List (TimeUnit × UInt64),
        run T memory (calls ++ .push u x :: later.map fun p ↦ .push p.1 p.2) =
          ⟨r.1, s.log ++ ⟨u, x, false⟩ :: later.map fun p ↦ ⟨p.1, p.2, false⟩⟩) ∧
    (s.histogram.hasOverflowed = 0 ∨ s.histogram.hasOverflowed = 1) ∧
    (s.histogram.hasOverflowed = 1 ↔ ∃ e ∈ s.log, e.accepted = false) := by
  have hs := Recording.run T memory calls
  have hpush := histogramPush_eq T hs.flag_cases u x
  intro s n r
  change r = _ at hpush
  by_cases ha : Accepts s.histogram n
  · rw [if_pos ha] at hpush
    refine ⟨iff_of_true (by rw [hpush]) ((hs.accepts_iff n).mp ha), fun hr ↦ ?_, hs.flag_cases,
      hs.flag_eq_one_iff⟩
    rw [hpush] at hr
    cases hr
  · rw [if_neg ha] at hpush
    refine ⟨iff_of_false (by rw [hpush]; exact Bool.false_ne_true)
      fun h ↦ ha ((hs.accepts_iff n).mpr h), fun _ ↦ ⟨by rw [hpush]; rfl, fun later ↦ ?_⟩,
      hs.flag_cases, hs.flag_eq_one_iff⟩
    have hstep : s.step T (.push u x) = ⟨r.1, s.log ++ [⟨u, x, false⟩]⟩ := by
      change Session.mk r.1 (s.log ++ [⟨u, x, r.2⟩]) = _
      rw [hpush]
    have hflag : r.1.hasOverflowed = 1 := by rw [hpush]; rfl
    have hrest := foldl_overflowed T (s := ⟨r.1, s.log ++ [⟨u, x, false⟩]⟩) hflag later
    rw [List.append_assoc, ← hstep] at hrest
    rw [run, List.foldl_append, List.foldl_cons]
    exact hrest

end Rejection

end P99

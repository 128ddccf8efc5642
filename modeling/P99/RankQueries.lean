import P99.Histogram
import P99.Library.RunningTotal
import P99.Library.Interpolation
import Mathlib.Data.UInt
import Mathlib.Tactic.FinCases

namespace P99

open Portable Buckets Interpolation RunningTotal

variable {L : Layout}

def bucketRangeWidth (bucketIndex : ℕ) (lower upper : UInt64) : UInt64 :=
  if bucketCount - 1 = bucketIndex then uint64Max - lower else upper - lower

def clampToExtrema (histogram : Histogram L) (value : UInt64) : UInt64 :=
  let value := if value < histogram.minEventTime then histogram.minEventTime else value
  if value > histogram.maxEventTime then histogram.maxEventTime else value

/-- The interpolated value of a rank in a bucket, before it is clamped. -/
def interpolateAtTargetRank (T : Toolchain) (bucketIndex : ℕ)
    (count prevAccumulated targetRank : UInt64) : Result UInt64 :=
  let (lower, upper) := (bucketRange bucketIndex).getD (0, uint64Max)
  if targetRank ≤ prevAccumulated then .ok lower
  else do
    let targetOffset := targetRank - prevAccumulated
    let rangeWidth := bucketRangeWidth bucketIndex lower upper
    let limit ← divU64 uint64Max targetOffset
    if rangeWidth ≤ limit then do
      let quotient ← divU64 (rangeWidth * targetOffset) count
      .ok (lower + quotient)
    else u64AddMulDivU64 T lower rangeWidth targetOffset count

def valueAtTargetRankInBucket (T : Toolchain) (histogram : Histogram L) (bucketIndex : ℕ)
    (count prevAccumulated targetRank : UInt64) : Result UInt64 := do
  let interpolated ← interpolateAtTargetRank T bucketIndex count prevAccumulated targetRank
  .ok (clampToExtrema histogram interpolated)

def valueAtTargetRankLoop (T : Toolchain) (histogram : Histogram L) (targetRank : UInt64) :
    List (Fin bucketCount) → UInt64 → Result UInt64
  | [], _ => .ok histogram.maxEventTime
  | i :: is, accumulated =>
    let count := bucketAt histogram i
    if count > 0 then
      let prevAccumulated := accumulated
      let accumulated := accumulated + count
      if accumulated ≥ targetRank then
        valueAtTargetRankInBucket T histogram i count prevAccumulated targetRank
      else valueAtTargetRankLoop T histogram targetRank is accumulated
    else valueAtTargetRankLoop T histogram targetRank is accumulated

def valueAtTargetRank (T : Toolchain) (histogram : Histogram L) (targetRank : UInt64) :
    Result (Option UInt64) :=
  if 0 = histogram.eventCount then .ok none
  else do
    let value ← valueAtTargetRankLoop T histogram targetRank (List.finRange bucketCount) 0
    .ok (some value)

def valueAtFraction (multiplier divisor : UInt64) (T : Toolchain) (histogram : Histogram L) :
    Result (Option UInt64) := do
  let targetRank ← u64MulDivU64 T histogram.eventCount multiplier divisor
  valueAtTargetRank T histogram targetRank

def histogramValueAtP50 (T : Toolchain) (histogram : Histogram L) :=
  valueAtFraction 1 2 T histogram

def histogramValueAtP75 (T : Toolchain) (histogram : Histogram L) :=
  valueAtFraction 3 4 T histogram

def histogramValueAtP90 (T : Toolchain) (histogram : Histogram L) :=
  valueAtFraction 90 100 T histogram

def histogramValueAtP95 (T : Toolchain) (histogram : Histogram L) :=
  valueAtFraction 95 100 T histogram

def histogramValueAtP99 (T : Toolchain) (histogram : Histogram L) :=
  valueAtFraction 99 100 T histogram

def histogramValueAtP99_5 (T : Toolchain) (histogram : Histogram L) :=
  valueAtFraction 995 1000 T histogram

def histogramValueAtP99_9 (T : Toolchain) (histogram : Histogram L) :=
  valueAtFraction 999 1000 T histogram

def histogramValueAtP99_99 (T : Toolchain) (histogram : Histogram L) :=
  valueAtFraction 9999 10000 T histogram

def histogramValueAtP99_999 (T : Toolchain) (histogram : Histogram L) :=
  valueAtFraction 99999 100000 T histogram

def histogramValueAtP99_999_9 (T : Toolchain) (histogram : Histogram L) :=
  valueAtFraction 999999 1000000 T histogram

/-- The ten named queries, in the order of `p99_pr_fixed_results_t`. -/
def namedQueries : Vector (Toolchain → Histogram L → Result (Option UInt64)) 10 :=
  #v[histogramValueAtP50, histogramValueAtP75, histogramValueAtP90, histogramValueAtP95,
    histogramValueAtP99, histogramValueAtP99_5, histogramValueAtP99_9, histogramValueAtP99_99,
    histogramValueAtP99_999, histogramValueAtP99_999_9]

def namedQuery (k : Fin 10) (T : Toolchain) (histogram : Histogram L) : Result (Option UInt64) :=
  namedQueries[k] T histogram

def numerators : Vector UInt64 10 := #v[1, 3, 90, 95, 99, 995, 999, 9999, 99999, 999999]

def denominators : Vector UInt64 10 := #v[2, 4, 100, 100, 100, 1000, 1000, 10000, 100000, 1000000]

/-- The inner loop of the fixed batch: the results still to be filled, and those filled. -/
def fixedBucketLoop (T : Toolchain) (histogram : Histogram L) (targetRanks : Vector UInt64 10)
    (bucketIndex : ℕ) (count prevAccumulated accumulated : UInt64) :
    List (Fin 10) → Vector UInt64 10 → Result (List (Fin 10) × Vector UInt64 10)
  | [], values => .ok ([], values)
  | k :: ks, values =>
    if accumulated ≥ targetRanks[k] then do
      let value ←
        valueAtTargetRankInBucket T histogram bucketIndex count prevAccumulated targetRanks[k]
      fixedBucketLoop T histogram targetRanks bucketIndex count prevAccumulated accumulated ks
        (values.set k value)
    else .ok (k :: ks, values)

def fixedWalk (T : Toolchain) (histogram : Histogram L) (targetRanks : Vector UInt64 10) :
    List (Fin bucketCount) → UInt64 → List (Fin 10) → Vector UInt64 10 →
      Result (List (Fin 10) × Vector UInt64 10)
  | [], _, ks, values => .ok (ks, values)
  | _ :: _, _, [], values => .ok ([], values)
  | i :: is, accumulated, k :: ks, values =>
    let count := bucketAt histogram i
    if count > 0 then do
      let prevAccumulated := accumulated
      let accumulated := accumulated + count
      let (ks, values) ← fixedBucketLoop T histogram targetRanks i count prevAccumulated
        accumulated (k :: ks) values
      fixedWalk T histogram targetRanks is accumulated ks values
    else fixedWalk T histogram targetRanks is accumulated (k :: ks) values

def fixedTargetRanks (T : Toolchain) (eventCount : UInt64) : Result (Vector UInt64 10) :=
  Vector.ofFnM fun k : Fin 10 ↦ u64MulDivU64 T eventCount numerators[k] denominators[k]

def histogramValuesAtFixedPercentiles (T : Toolchain) (histogram : Histogram L)
    (results : Vector UInt64 10) : Result (Bool × Vector UInt64 10) :=
  if 0 = histogram.eventCount then .ok (false, results)
  else do
    let targetRanks ← fixedTargetRanks T histogram.eventCount
    let (ks, values) ← fixedWalk T histogram targetRanks (List.finRange bucketCount) 0
      (List.finRange 10) results
    .ok (true, ks.foldl (fun values (k : Fin 10) ↦ values.set k histogram.maxEventTime) values)

theorem toNat_clampToExtrema (h : Histogram L) (v : UInt64) :
    (clampToExtrema h v).toNat = clamp h.minEventTime.toNat h.maxEventTime.toNat v.toNat := by
  have hlow : (if v < h.minEventTime then h.minEventTime else v).toNat =
      max h.minEventTime.toNat v.toNat := by
    rw [max_def]
    split <;> rename_i hv <;> rw [UInt64.lt_iff_toNat_lt] at hv <;> split <;> omega
  rw [clampToExtrema, clamp, ← hlow, min_def]
  generalize (if v < h.minEventTime then h.minEventTime else v) = raised
  split <;> rename_i hv <;> rw [gt_iff_lt, UInt64.lt_iff_toNat_lt] at hv <;> split <;> omega

theorem clampToExtrema_mono (h : Histogram L) {v v' : UInt64} (hv : v ≤ v') :
    clampToExtrema h v ≤ clampToExtrema h v' := by
  rw [UInt64.le_iff_toNat_le, toNat_clampToExtrema, toNat_clampToExtrema]
  exact clamp_mono le_rfl le_rfl (UInt64.le_iff_toNat_le.mp hv)

section Loops

variable (T : Toolchain) (h : Histogram L)

theorem valueAtTargetRankLoop_eq (r : UInt64) (is : List (Fin bucketCount)) (acc : UInt64) :
    valueAtTargetRankLoop T h r is acc =
      match firstHit (bucketAt h) (r ≤ ·) is acc with
      | some (i, prev) => valueAtTargetRankInBucket T h i (bucketAt h i) prev r
      | none => .ok h.maxEventTime := by
  induction is generalizing acc with
  | nil => rfl
  | cons i is ih =>
    rw [valueAtTargetRankLoop]
    by_cases hc : 0 < bucketAt h i
    · rw [if_pos hc]
      by_cases hr : r ≤ acc + bucketAt h i
      · rw [if_pos hr, firstHit_found hc hr]
      · rw [if_neg hr, firstHit_miss hc hr, ih]
    · rw [if_neg hc, firstHit_skip hc, ih]

theorem valueAtTargetRankLoop_found {r : UInt64} {i : Fin bucketCount}
    {is : List (Fin bucketCount)} {acc : UInt64} (hc : bucketAt h i > 0)
    (hr : r ≤ acc + bucketAt h i) :
    valueAtTargetRankLoop T h r (i :: is) acc =
      valueAtTargetRankInBucket T h i (bucketAt h i) acc r := by
  rw [valueAtTargetRankLoop, if_pos hc, if_pos hr]

theorem valueAtTargetRankLoop_miss {r : UInt64} {i : Fin bucketCount}
    {is : List (Fin bucketCount)} {acc : UInt64} (hc : bucketAt h i > 0)
    (hr : ¬ r ≤ acc + bucketAt h i) :
    valueAtTargetRankLoop T h r (i :: is) acc =
      valueAtTargetRankLoop T h r is (acc + bucketAt h i) := by
  rw [valueAtTargetRankLoop, if_pos hc, if_neg hr]

theorem valueAtTargetRankLoop_skip {r : UInt64} {i : Fin bucketCount}
    {is : List (Fin bucketCount)} {acc : UInt64} (hc : ¬ bucketAt h i > 0) :
    valueAtTargetRankLoop T h r (i :: is) acc = valueAtTargetRankLoop T h r is acc := by
  rw [valueAtTargetRankLoop, if_neg hc]

/-- The offset of a rank into the bucket that reaches it is covered by the bucket's count, even
where the running total wraps. -/
theorem offset_le_count {prev count r : UInt64} (hr : r ≤ prev + count) :
    r.toNat - prev.toNat ≤ count.toNat := by
  have hle := UInt64.le_iff_toNat_le.mp hr
  rw [UInt64.toNat_add] at hle
  have hmod := Nat.mod_le (prev.toNat + count.toNat) (2 ^ 64)
  omega

theorem toNat_offset {prev r : UInt64} (hp : ¬ r ≤ prev) :
    r - prev ≠ 0 ∧ (r - prev).toNat = r.toNat - prev.toNat ∧ 0 < r.toNat - prev.toNat := by
  rw [UInt64.le_iff_toNat_le, not_le] at hp
  have hoff := UInt64.toNat_sub_of_le _ _ (UInt64.le_iff_toNat_le.mpr hp.le)
  have hpos : 0 < r.toNat - prev.toNat := Nat.sub_pos_of_lt hp
  exact ⟨UInt64.pos_iff_ne_zero.mp (UInt64.lt_iff_toNat_lt.mpr (hoff ▸ hpos)), hoff, hpos⟩

theorem bucketRangeWidth_eq {i : ℕ} {lower upper : UInt64} (hl : lower.toNat = lowerOf i)
    (hu : upper.toNat = lowerOf i + widthOf i) :
    (bucketRangeWidth i lower upper).toNat = widthOf i := by
  rw [bucketRangeWidth]
  split
  · next hlast =>
    subst hlast
    rw [UInt64.toNat_sub_of_le _ _ (le_uint64Max _), hl, toNat_uint64Max, lowerOf, widthOf,
      if_neg (by decide), if_neg (by decide)]
    rfl
  · rw [UInt64.toNat_sub_of_le _ _ (UInt64.le_iff_toNat_le.mpr (by omega)), hl, hu]
    omega

theorem interpolateAtTargetRank_above {i : ℕ} (hi : i < bucketCount) (count : UInt64)
    {prev r : UInt64} (hp : ¬ r ≤ prev) :
    ∃ lower width : UInt64, lower.toNat = lowerOf i ∧ width.toNat = widthOf i ∧
      (r - prev).toNat = r.toNat - prev.toNat ∧
      interpolateAtTargetRank T i count prev r =
        if widthOf i * (r.toNat - prev.toNat) < 2 ^ 64 then
          divU64 (width * (r - prev)) count >>= fun quotient ↦ .ok (lower + quotient)
        else u64AddMulDivU64 T lower width (r - prev) count := by
  obtain ⟨lower, upper, hrange, hl, hu⟩ := bucketRange_spec hi
  obtain ⟨hoffne, hoff, -⟩ := toNat_offset hp
  have hwidth := bucketRangeWidth_eq hl hu
  refine ⟨lower, bucketRangeWidth i lower upper, hl, hwidth, hoff, ?_⟩
  have hguard : bucketRangeWidth i lower upper ≤ uint64Max / (r - prev) ↔
      widthOf i * (r.toNat - prev.toNat) < 2 ^ 64 := by
    rw [le_max_div_iff hoffne, hwidth, hoff]
  rw [interpolateAtTargetRank, hrange]
  simp only [Option.getD_some, if_neg hp, divU64_eq hoffne, ok_bind, hguard]

theorem interpolateAtTargetRank_fits {i : ℕ} (hi : i < bucketCount) {count prev r : UInt64}
    (hc : count > 0) (hfit : widthOf i * (r.toNat - prev.toNat) < 2 ^ 64) :
    interpolateAtTargetRank T i count prev r =
      .ok (.ofNat (lerp (lowerOf i) (widthOf i) count.toNat (r.toNat - prev.toNat))) := by
  by_cases hp : r ≤ prev
  · obtain ⟨lower, upper, hrange, hl, -⟩ := bucketRange_spec hi
    have hzero : r.toNat - prev.toNat = 0 := Nat.sub_eq_zero_of_le (UInt64.le_iff_toNat_le.mp hp)
    rw [interpolateAtTargetRank, hrange]
    simp only [Option.getD_some]
    rw [if_pos hp, hzero, lerp, Nat.mul_zero, Nat.zero_div, Nat.add_zero, ← hl, UInt64.ofNat_toNat]
  · obtain ⟨lower, width, hl, hwidth, hoff, heq⟩ :=
      interpolateAtTargetRank_above T hi count hp
    rw [heq, if_pos hfit, divU64_eq (UInt64.pos_iff_ne_zero.mp hc), ok_bind]
    refine congrArg Except.ok (UInt64.toNat_inj.mp ?_)
    rw [UInt64.toNat_add, UInt64.toNat_div, UInt64.toNat_mul, hwidth, hoff, hl,
      Nat.mod_eq_of_lt hfit, UInt64.toNat_ofNat']
    rfl

theorem width_mul_offset_lt {i : ℕ} (hi : i < bucketCount) {count k : ℕ} (hc : 0 < count)
    (hk : k ≤ count) : widthOf i * k < 2 ^ 64 * count :=
  (Nat.mul_le_mul_left _ hk).trans_lt (Nat.mul_lt_mul_of_pos_right (widthOf_lt hi) hc)

theorem interpolateAtTargetRank_ok {i : ℕ} (hi : i < bucketCount) {count prev r : UInt64}
    (hc : count > 0) (hr : r ≤ prev + count) :
    ∃ v, interpolateAtTargetRank T i count prev r = .ok v := by
  have hle := offset_le_count hr
  by_cases hfit : widthOf i * (r.toNat - prev.toNat) < 2 ^ 64
  · exact ⟨_, interpolateAtTargetRank_fits T hi hc hfit⟩
  · have hp : ¬ r ≤ prev := fun hp ↦ hfit (by
      rw [Nat.sub_eq_zero_of_le (UInt64.le_iff_toNat_le.mp hp), Nat.mul_zero]
      exact Nat.two_pow_pos 64)
    obtain ⟨lower, width, -, hwidth, hoff, heq⟩ :=
      interpolateAtTargetRank_above T hi count hp
    have hquotient := width_mul_offset_lt hi (UInt64.lt_iff_toNat_lt.mp hc) hle
    rw [← hwidth, ← hoff] at hquotient
    obtain ⟨q, hq⟩ := u64MulDivU64_ok T hquotient
    refine ⟨lower + q, ?_⟩
    rw [heq, if_neg hfit, u64AddMulDivU64, hq]
    rfl

theorem valueAtTargetRankInBucket_ok {i : ℕ} (hi : i < bucketCount) {count prev r : UInt64}
    (hc : count > 0) (hr : r ≤ prev + count) :
    ∃ v, valueAtTargetRankInBucket T h i count prev r = .ok v := by
  obtain ⟨v, hv⟩ := interpolateAtTargetRank_ok T hi hc hr
  exact ⟨_, by rw [valueAtTargetRankInBucket, hv, ok_bind]⟩

theorem valueAtTargetRankLoop_ok (r : UInt64) (is : List (Fin bucketCount)) (acc : UInt64) :
    ∃ v, valueAtTargetRankLoop T h r is acc = .ok v := by
  induction is generalizing acc with
  | nil => exact ⟨_, rfl⟩
  | cons i is ih =>
    by_cases hc : bucketAt h i > 0
    · by_cases hr : r ≤ acc + bucketAt h i
      · rw [valueAtTargetRankLoop_found T h hc hr]
        exact valueAtTargetRankInBucket_ok T h i.isLt hc hr
      · rw [valueAtTargetRankLoop_miss T h hc hr]
        exact ih _
    · rw [valueAtTargetRankLoop_skip T h hc]
      exact ih _

end Loops

section FixedBatch

variable (T : Toolchain) (h : Histogram L)

theorem namedQuery_eq (k : Fin 10) :
    namedQuery k T h = valueAtFraction numerators[k] denominators[k] T h := by
  fin_cases k <;> rfl

theorem fixed_fraction (k : Fin 10) :
    numerators[k] < denominators[k] ∧ denominators[k].toNat < 2 ^ 32 := by
  fin_cases k <;> decide

theorem fixed_fraction_mono {j k : Fin 10} (hjk : j ≤ k) :
    numerators[j].toNat * denominators[k].toNat ≤ numerators[k].toNat * denominators[j].toNat := by
  revert j k
  decide

def fixedRank (n : ℕ) (k : Fin 10) : ℕ := n * numerators[k].toNat / denominators[k].toNat

theorem fixedRank_le (n : ℕ) (k : Fin 10) : fixedRank n k ≤ n := by
  have hlt := UInt64.lt_iff_toNat_lt.mp (fixed_fraction k).1
  rw [fixedRank, Nat.mul_comm]
  exact Nat.div_le_of_le_mul (Nat.mul_le_mul_right n hlt.le)

theorem fixedRank_mono (n : ℕ) {j k : Fin 10} (hjk : j ≤ k) : fixedRank n j ≤ fixedRank n k := by
  have hpos := Nat.zero_lt_of_lt (UInt64.lt_iff_toNat_lt.mp (fixed_fraction k).1)
  refine div_le_div_of_cross hpos ?_
  rw [Nat.mul_assoc, Nat.mul_assoc]
  exact Nat.mul_le_mul_left n (fixed_fraction_mono hjk)

theorem fixedRank_spec (n : UInt64) (k : Fin 10) :
    u64MulDivU64 T n numerators[k] denominators[k] = .ok (.ofNat (fixedRank n.toNat k)) :=
  u64MulDivU64_fraction T n (fixed_fraction k).1 (fixed_fraction k).2

theorem toNat_fixedRank (n : UInt64) (k : Fin 10) :
    (UInt64.ofNat (fixedRank n.toNat k)).toNat = fixedRank n.toNat k := by
  rw [UInt64.toNat_ofNat_of_lt' ((fixedRank_le _ k).trans_lt n.toNat_lt)]

theorem namedQuery_rank (k : Fin 10) :
    namedQuery k T h = valueAtTargetRank T h (.ofNat (fixedRank h.eventCount.toNat k)) := by
  rw [namedQuery_eq, valueAtFraction, fixedRank_spec, ok_bind]

theorem ofFnM_ok {α : Type} {n : ℕ} {f : Fin n → Result α} {g : Fin n → α}
    (hf : ∀ k, f k = .ok (g k)) : Vector.ofFnM f = .ok (Vector.ofFn g) := by
  induction n with
  | zero =>
    rw [Vector.ofFnM_zero]
    exact congrArg Except.ok (Vector.ext fun i hi ↦ absurd hi (Nat.not_lt_zero i))
  | succ n ih =>
    rw [Vector.ofFnM_succ, ih fun k ↦ hf k.castSucc, ok_bind, hf, ok_bind, Vector.ofFn_succ]
    rfl

theorem fixedTargetRanks_eq (n : UInt64) :
    fixedTargetRanks T n = .ok (.ofFn fun k ↦ .ofNat (fixedRank n.toNat k)) :=
  ofFnM_ok (fixedRank_spec T n)

def fill (V : Fin 10 → UInt64) (ks : List (Fin 10)) (values : Vector UInt64 10) :
    Vector UInt64 10 :=
  ks.foldl (fun values (k : Fin 10) ↦ values.set k (V k)) values

theorem fill_congr {V W : Fin 10 → UInt64} {ks : List (Fin 10)} (hVW : ∀ k ∈ ks, V k = W k)
    (values : Vector UInt64 10) : fill V ks values = fill W ks values := by
  induction ks generalizing values with
  | nil => rfl
  | cons k ks ih =>
    have htail := ih (fun j hj ↦ hVW j (List.mem_cons_of_mem k hj)) (values.set k (V k))
    rw [hVW k List.mem_cons_self] at htail
    simpa only [fill, List.foldl_cons, hVW k List.mem_cons_self] using htail

theorem getElem_fill (V : Fin 10 → UInt64) (ks : List (Fin 10)) (values : Vector UInt64 10)
    (k : Fin 10) : (fill V ks values)[k] = if k ∈ ks then V k else values[k] := by
  induction ks generalizing values with
  | nil => simp [fill]
  | cons j ks ih =>
    have htail := ih (values.set j (V j))
    rw [fill, List.foldl_cons]
    refine htail.trans ?_
    by_cases hk : k ∈ ks
    · simp [hk]
    · by_cases hj : j = k
      · subst hj
        simp [hk]
      · have hne : (j : ℕ) ≠ k := fun he ↦ hj (Fin.ext he)
        simp [hk, Ne.symm hj, hne]

theorem fill_finRange (V : Fin 10 → UInt64) (values : Vector UInt64 10) :
    fill V (List.finRange 10) values = .ofFn V := by
  refine Vector.ext fun k hk ↦ ?_
  have h := getElem_fill V (List.finRange 10) values ⟨k, hk⟩
  rw [if_pos (List.mem_finRange _)] at h
  simpa using h

variable {ranks : Vector UInt64 10} {V : Fin 10 → UInt64}

theorem fixedBucketLoop_eq (i : Fin bucketCount) (count prev acc : UInt64) (ks : List (Fin 10))
    (values : Vector UInt64 10)
    (hV : ∀ k ∈ ks, ranks[k] ≤ acc →
      valueAtTargetRankInBucket T h i count prev ranks[k] = .ok (V k)) :
    ∃ done rest, ks = done ++ rest ∧ (∀ k ∈ done, ranks[k] ≤ acc) ∧
      (∀ k ∈ rest.head?, ¬ ranks[k] ≤ acc) ∧
      fixedBucketLoop T h ranks i count prev acc ks values = .ok (rest, fill V done values) := by
  induction ks generalizing values with
  | nil => exact ⟨[], [], rfl, by simp, by simp, rfl⟩
  | cons k ks ih =>
    by_cases hk : ranks[k] ≤ acc
    · obtain ⟨done, rest, hsplit, hdone, hrest, heq⟩ :=
        ih (values.set k (V k)) fun j hj ↦ hV j (List.mem_cons_of_mem k hj)
      refine ⟨k :: done, rest, by rw [hsplit]; rfl, ?_, hrest, ?_⟩
      · intro j hj
        rcases List.mem_cons.mp hj with rfl | hj
        · exact hk
        · exact hdone j hj
      · rw [fixedBucketLoop, if_pos hk, hV k List.mem_cons_self hk, ok_bind, heq]
        rfl
    · exact ⟨[], k :: ks, rfl, by simp, by simpa using hk, by rw [fixedBucketLoop, if_neg hk]; rfl⟩

/-- The walk of the fixed batch never looks back, and need not: the ranks do not decrease, so
every pending rank is one that the earlier buckets did not reach. -/
theorem fixedWalk_eq (is : List (Fin bucketCount)) (acc : UInt64) (ks : List (Fin 10))
    (values : Vector UInt64 10) (hsorted : ks.Pairwise fun j k ↦ ranks[j] ≤ ranks[k])
    (hV : ∀ k ∈ ks, valueAtTargetRankLoop T h ranks[k] is acc = .ok (V k)) :
    ∃ rest values', fixedWalk T h ranks is acc ks values = .ok (rest, values') ∧
      fill (fun _ ↦ h.maxEventTime) rest values' = fill V ks values := by
  induction is generalizing acc ks values with
  | nil =>
    refine ⟨ks, values, by cases ks <;> rfl, fill_congr (fun k hk ↦ ?_) values⟩
    exact Except.ok.inj (hV k hk)
  | cons i is ih =>
    cases ks with
    | nil => exact ⟨[], values, rfl, rfl⟩
    | cons k ks =>
      rw [fixedWalk]
      by_cases hc : bucketAt h i > 0
      · rw [if_pos hc]
        obtain ⟨done, rest, hsplit, hdone, hrest, heq⟩ :=
          fixedBucketLoop_eq T h i (bucketAt h i) acc (acc + bucketAt h i) (V := V) (k :: ks)
            values fun j hj hle ↦ (valueAtTargetRankLoop_found T h hc hle).symm.trans (hV j hj)
        dsimp only
        rw [heq, ok_bind]
        rw [hsplit] at hsorted hV ⊢
        have hbeyond : ∀ j ∈ rest, ¬ ranks[j] ≤ acc + bucketAt h i := by
          intro j hj hle
          cases rest with
          | nil => cases hj
          | cons m rest =>
            refine hrest m rfl ?_
            rcases List.mem_cons.mp hj with rfl | hj
            · exact hle
            · have hpair := (List.pairwise_append.mp hsorted).2.1
              exact UInt64.le_trans (List.rel_of_pairwise_cons hpair hj) hle
        obtain ⟨rest', values', hwalk, hfill⟩ := ih (acc + bucketAt h i) rest (fill V done values)
          (List.pairwise_append.mp hsorted).2.1 fun j hj ↦ by
            rw [← valueAtTargetRankLoop_miss T h hc (hbeyond j hj)]
            exact hV j (List.mem_append_right done hj)
        refine ⟨rest', values', hwalk, hfill.trans ?_⟩
        simp only [fill, List.foldl_append]
      · rw [if_neg hc]
        exact ih acc (k :: ks) values hsorted fun j hj ↦ by
          rw [← valueAtTargetRankLoop_skip T h hc]
          exact hV j hj

theorem fixedPercentiles_eq_named (hne : ¬ 0 = h.eventCount) (results : Vector UInt64 10) :
    ∃ values : Vector UInt64 10, (∀ k, namedQuery k T h = .ok (some values[k])) ∧
      histogramValuesAtFixedPercentiles T h results = .ok (true, values) := by
  have hok := fun k : Fin 10 ↦ valueAtTargetRankLoop_ok T h
    (.ofNat (fixedRank h.eventCount.toNat k)) (List.finRange bucketCount) 0
  choose V hV using hok
  refine ⟨.ofFn V, fun k ↦ ?_, ?_⟩
  · rw [namedQuery_rank, valueAtTargetRank, if_neg hne, hV, ok_bind]
    simp
  · have hget : ∀ k : Fin 10, (Vector.ofFn fun k : Fin 10 ↦
        UInt64.ofNat (fixedRank h.eventCount.toNat k))[k] =
          .ofNat (fixedRank h.eventCount.toNat k) := fun k ↦ by simp
    have hsorted : (List.finRange 10).Pairwise fun j k ↦
        (Vector.ofFn fun k : Fin 10 ↦ UInt64.ofNat (fixedRank h.eventCount.toNat k))[j] ≤
          (Vector.ofFn fun k : Fin 10 ↦ UInt64.ofNat (fixedRank h.eventCount.toNat k))[k] := by
      refine (List.pairwise_le_finRange 10).imp fun {j k} hjk ↦ ?_
      rw [hget, hget, UInt64.le_iff_toNat_le, toNat_fixedRank, toNat_fixedRank]
      exact fixedRank_mono _ hjk
    obtain ⟨rest, values', hwalk, hfill⟩ := fixedWalk_eq T h (V := V)
      (List.finRange bucketCount) 0 (List.finRange 10) results hsorted fun k _ ↦ by
        rw [hget]
        exact hV k
    rw [histogramValuesAtFixedPercentiles, if_neg hne, fixedTargetRanks_eq, ok_bind, hwalk,
      ok_bind, ← fill_finRange V results, ← hfill]
    rfl

theorem fixedPercentiles_empty (hz : 0 = h.eventCount) (results : Vector UInt64 10) :
    (∀ k, namedQuery k T h = .ok none) ∧
      histogramValuesAtFixedPercentiles T h results = .ok (false, results) := by
  refine ⟨fun k ↦ ?_, if_pos hz⟩
  rw [namedQuery_rank, valueAtTargetRank, if_pos hz]

theorem namedQuery_ok (k : Fin 10) : ∃ answer, namedQuery k T h = .ok answer := by
  by_cases hz : 0 = h.eventCount
  · exact ⟨none, (fixedPercentiles_empty T h hz (.replicate 10 0)).1 k⟩
  · obtain ⟨values, hnamed, -⟩ := fixedPercentiles_eq_named T h hz (.replicate 10 0)
    exact ⟨some values[k], hnamed k⟩

theorem fixedPercentiles_ok (results : Vector UInt64 10) :
    ∃ answer, histogramValuesAtFixedPercentiles T h results = .ok answer := by
  by_cases hz : 0 = h.eventCount
  · exact ⟨(false, results), (fixedPercentiles_empty T h hz results).2⟩
  · obtain ⟨values, -, hbatch⟩ := fixedPercentiles_eq_named T h hz results
    exact ⟨(true, values), hbatch⟩

theorem fixedPercentiles_congr {L' : Layout} {T T' : Toolchain} {h : Histogram L}
    {h' : Histogram L'} (hcount : h.eventCount = h'.eventCount)
    (hnamed : ∀ k, namedQuery k T h = namedQuery k T' h') (results : Vector UInt64 10) :
    histogramValuesAtFixedPercentiles T h results =
      histogramValuesAtFixedPercentiles T' h' results := by
  by_cases hz : 0 = h.eventCount
  · rw [(fixedPercentiles_empty T h hz results).2,
      (fixedPercentiles_empty T' h' (hcount ▸ hz) results).2]
  · obtain ⟨values, hvalues, hbatch⟩ := fixedPercentiles_eq_named T h hz results
    obtain ⟨values', hvalues', hbatch'⟩ := fixedPercentiles_eq_named T' h' (hcount ▸ hz) results
    have heq : values = values' := Vector.ext fun k hk ↦ by
      have hvalue := (hvalues ⟨k, hk⟩).symm.trans ((hnamed ⟨k, hk⟩).trans (hvalues' ⟨k, hk⟩))
      rw [Except.ok.injEq, Option.some.injEq] at hvalue
      exact hvalue
    rw [hbatch, hbatch', heq]

/-- The one-pass batch agrees with the ten named queries, on every histogram and toolchain. -/
theorem fixedPercentiles_agree (results : Vector UInt64 10) :
    (histogramValuesAtFixedPercentiles T h results = .ok (false, results) ↔
      ∀ k, namedQuery k T h = .ok none) ∧
    ∃ (returned : Bool) (values : Vector UInt64 10),
      histogramValuesAtFixedPercentiles T h results = .ok (returned, values) ∧
      (returned = false → values = results) ∧
      (returned = true → ∀ k, namedQuery k T h = .ok (some values[k])) := by
  by_cases hz : 0 = h.eventCount
  · obtain ⟨hnamed, hbatch⟩ := fixedPercentiles_empty T h hz results
    exact ⟨iff_of_true hbatch hnamed, false, results, hbatch, fun _ ↦ rfl, by simp⟩
  · obtain ⟨values, hnamed, hbatch⟩ := fixedPercentiles_eq_named T h hz results
    refine ⟨iff_of_false ?_ fun hall ↦ ?_, true, values, hbatch, by simp, fun _ ↦ hnamed⟩
    · rw [hbatch]
      simp
    · have hzero := (hall 0).symm.trans (hnamed 0)
      simp at hzero

end FixedBatch

end P99

import P99.RankQueries

namespace P99

open Portable Buckets RunningTotal

variable {L : Layout}

/-- A call of one of the two functions that answer a rank in a bucket. -/
structure BucketCall (ρ : Type) where
  bucketIndex : ℕ
  count : UInt64
  prevAccumulated : UInt64
  targetRank : ρ
  deriving DecidableEq

section Ranks

variable (h : Histogram L)

namespace BucketCall

def value (T : Toolchain) (c : BucketCall UInt64) : Result UInt64 :=
  valueAtTargetRankInBucket T h c.bucketIndex c.count c.prevAccumulated c.targetRank

def lower (c : BucketCall UInt64) : UInt64 := ((bucketRange c.bucketIndex).getD (0, uint64Max)).1

def rangeWidth (c : BucketCall UInt64) : UInt64 :=
  let (lower, upper) := (bucketRange c.bucketIndex).getD (0, uint64Max)
  bucketRangeWidth c.bucketIndex lower upper

def targetOffset (c : BucketCall UInt64) : UInt64 := c.targetRank - c.prevAccumulated

/-- The condition under which the call takes the branch of the 128-bit product. -/
def IsWide (c : BucketCall UInt64) : Prop :=
  ¬ c.targetRank ≤ c.prevAccumulated ∧
    ¬ c.rangeWidth ≤ uint64Max / (c.targetRank - c.prevAccumulated)

instance (c : BucketCall UInt64) : Decidable c.IsWide := inferInstanceAs (Decidable (_ ∧ _))

/-- The value of the branch that the call takes, before it is clamped. -/
def branchValue (T : Toolchain) (c : BucketCall UInt64) : Result UInt64 :=
  if c.IsWide then u64AddMulDivU64 T c.lower c.rangeWidth c.targetOffset c.count
  else if c.targetRank ≤ c.prevAccumulated then .ok c.lower
  else do
    let quotient ← divU64 (c.rangeWidth * c.targetOffset) c.count
    .ok (c.lower + quotient)

theorem toNat_rangeWidth {c : BucketCall UInt64} (hi : c.bucketIndex < bucketCount) :
    c.rangeWidth.toNat = widthOf c.bucketIndex := by
  obtain ⟨lower, upper, hrange, hl, hu⟩ := bucketRange_spec hi
  rw [rangeWidth, hrange]
  exact bucketRangeWidth_eq hl hu

theorem isWide_iff {c : BucketCall UInt64} :
    c.IsWide ↔
      2 ^ 64 ≤ c.rangeWidth.toNat * (c.targetRank.toNat - c.prevAccumulated.toNat) := by
  rw [IsWide]
  by_cases hp : c.targetRank ≤ c.prevAccumulated
  · have hzero := Nat.sub_eq_zero_of_le (UInt64.le_iff_toNat_le.mp hp)
    rw [hzero, Nat.mul_zero]
    exact iff_of_false (fun hw ↦ hw.1 hp) (by decide)
  · obtain ⟨hne, hoffset, -⟩ := toNat_offset hp
    rw [le_max_div_iff hne, hoffset, not_lt, and_iff_right hp]

theorem interpolate_eq (T : Toolchain) (c : BucketCall UInt64) :
    interpolateAtTargetRank T c.bucketIndex c.count c.prevAccumulated c.targetRank =
      c.branchValue T := by
  rw [branchValue, lower, targetOffset]
  rw [interpolateAtTargetRank]
  by_cases hp : c.targetRank ≤ c.prevAccumulated
  · have hwide : ¬ c.IsWide := fun hw ↦ hw.1 hp
    simp only [if_pos hp, if_neg hwide]
  · by_cases hfit : c.rangeWidth ≤ uint64Max / (c.targetRank - c.prevAccumulated)
    · have hwide : ¬ c.IsWide := fun hw ↦ hw.2 hfit
      simp only [if_neg hp, if_neg hwide, divU64_eq (toNat_offset hp).1, ok_bind]
      exact if_pos hfit
    · have hwide : c.IsWide := ⟨hp, hfit⟩
      simp only [if_neg hp, if_pos hwide, divU64_eq (toNat_offset hp).1, ok_bind]
      exact if_neg hfit

def Reaches (c : BucketCall UInt64) : Prop :=
  ∃ i : Fin bucketCount, c.bucketIndex = i ∧ c.count = bucketAt h i ∧ bucketAt h i > 0 ∧
    c.targetRank ≤ c.prevAccumulated + bucketAt h i

end BucketCall

/-- The call that the scan for a rank makes, if it stops at a bucket. -/
def valueAtTargetRankCall (targetRank : UInt64) : Option (BucketCall UInt64) :=
  if 0 = h.eventCount then none
  else
    (firstHit (bucketAt h) (targetRank ≤ ·) (List.finRange bucketCount) 0).map fun (i, prev) ↦
      ⟨i, bucketAt h i, prev, targetRank⟩

def namedQueryCall (k : Fin 10) (T : Toolchain) : Result (Option (BucketCall UInt64)) := do
  let targetRank ← u64MulDivU64 T h.eventCount (numerators.get k) (denominators.get k)
  .ok (valueAtTargetRankCall h targetRank)

def callAnswer (T : Toolchain) : Option (BucketCall UInt64) → Result (Option UInt64)
  | some c => do
    let value ← c.value h T
    .ok (some value)
  | none => .ok (histogramMaxEventTime h)

theorem valueAtTargetRank_call (T : Toolchain) (r : UInt64) :
    valueAtTargetRank T h r = callAnswer h T (valueAtTargetRankCall h r) := by
  rw [valueAtTargetRank, valueAtTargetRankCall]
  split
  · next hz => rw [callAnswer, histogramMaxEventTime, if_pos hz]
  · next hne =>
    rw [valueAtTargetRankLoop_eq]
    cases firstHit (bucketAt h) (r ≤ ·) (List.finRange bucketCount) 0 with
    | none => rw [Option.map_none, callAnswer, histogramMaxEventTime, if_neg hne, ok_bind]
    | some found => rfl

def fixedBucketCalls (targetRanks : Vector UInt64 10) (bucketIndex : ℕ)
    (count prevAccumulated accumulated : UInt64) (ks : List (Fin 10)) :
    List (Fin 10 × BucketCall UInt64) :=
  (ks.takeWhile (targetRanks.get · ≤ accumulated)).map fun k ↦
    (k, ⟨bucketIndex, count, prevAccumulated, targetRanks.get k⟩)

def fixedWalkCalls (targetRanks : Vector UInt64 10) :
    List (Fin bucketCount) → UInt64 → List (Fin 10) → List (Fin 10 × BucketCall UInt64)
  | [], _, _ => []
  | i :: is, accumulated, ks =>
    let count := bucketAt h i
    if count > 0 then
      let prevAccumulated := accumulated
      let accumulated := accumulated + count
      fixedBucketCalls targetRanks i count prevAccumulated accumulated ks ++
        fixedWalkCalls targetRanks is accumulated
          (ks.dropWhile (targetRanks.get · ≤ accumulated))
    else fixedWalkCalls targetRanks is accumulated ks

def fixedPercentilesCalls (T : Toolchain) : Result (List (Fin 10 × BucketCall UInt64)) := do
  let targetRanks ← fixedTargetRanks T h.eventCount
  .ok (fixedWalkCalls h targetRanks (List.finRange bucketCount) 0 (List.finRange 10))

def performCall (T : Toolchain) (values : Vector UInt64 10) (c : Fin 10 × BucketCall UInt64) :
    Result (Vector UInt64 10) := do
  let value ← c.2.value h T
  .ok (values.set c.1 value)

variable (T : Toolchain) {ranks : Vector UInt64 10}

theorem fixedBucketLoop_calls (i : ℕ) (count prev acc : UInt64) (ks : List (Fin 10))
    (values : Vector UInt64 10) :
    fixedBucketLoop T h ranks i count prev acc ks values =
      ((fixedBucketCalls ranks i count prev acc ks).foldlM (performCall h T) values >>=
        fun values ↦ .ok (ks.dropWhile (ranks.get · ≤ acc), values)) := by
  induction ks generalizing values with
  | nil => rfl
  | cons k ks ih =>
    by_cases hk : ranks.get k ≤ acc
    · have hk' : acc ≥ ranks[k] := hk
      simp only [fixedBucketLoop, if_pos hk', fixedBucketCalls, List.takeWhile_cons,
        List.dropWhile_cons, hk, decide_true, if_true, List.map_cons, List.foldlM_cons,
        performCall, bind_assoc, ok_bind]
      exact bind_congr fun value ↦ ih (values.set k value)
    · have hk' : ¬ acc ≥ ranks[k] := hk
      simp only [fixedBucketLoop, if_neg hk', fixedBucketCalls, List.takeWhile_cons,
        List.dropWhile_cons, hk, decide_false, Bool.false_eq_true, if_false]
      rfl

theorem drop_fixedBucketCalls (i : ℕ) (count prev acc : UInt64) (ks : List (Fin 10)) :
    ks.drop (fixedBucketCalls ranks i count prev acc ks).length =
      ks.dropWhile (ranks.get · ≤ acc) := by
  rw [fixedBucketCalls, List.length_map]
  induction ks with
  | nil => rfl
  | cons k ks ih =>
    by_cases hk : ranks.get k ≤ acc
    · simpa [hk] using ih
    · simp [hk]

theorem fixedWalkCalls_nil (is : List (Fin bucketCount)) (acc : UInt64) :
    fixedWalkCalls h ranks is acc [] = [] := by
  induction is generalizing acc with
  | nil => rfl
  | cons i is ih => simp [fixedWalkCalls, fixedBucketCalls, ih]

/-- The batch makes exactly these calls, in this order. -/
theorem fixedWalk_calls (is : List (Fin bucketCount)) (acc : UInt64) (ks : List (Fin 10))
    (values : Vector UInt64 10) :
    fixedWalk T h ranks is acc ks values =
      ((fixedWalkCalls h ranks is acc ks).foldlM (performCall h T) values >>=
        fun values ↦ .ok (ks.drop (fixedWalkCalls h ranks is acc ks).length, values)) := by
  induction is generalizing acc ks values with
  | nil => cases ks <;> rfl
  | cons i is ih =>
    cases ks with
    | nil =>
      rw [fixedWalkCalls_nil]
      rfl
    | cons k ks =>
      by_cases hc : bucketAt h i > 0
      · simp only [fixedWalk, fixedWalkCalls, if_pos hc, fixedBucketLoop_calls, bind_assoc, ok_bind,
          ih, List.foldlM_append, List.length_append, ← List.drop_drop, drop_fixedBucketCalls]
      · simp only [fixedWalk, fixedWalkCalls, if_neg hc, ih]

theorem namedQuery_call (k : Fin 10) :
    namedQuery k T h = namedQueryCall h k T >>= callAnswer h T := by
  rw [namedQuery_eq, valueAtFraction, namedQueryCall, bind_assoc]
  exact bind_congr fun r ↦ valueAtTargetRank_call h T r

theorem fixedPercentiles_calls (hne : ¬ 0 = h.eventCount) (results : Vector UInt64 10) :
    histogramValuesAtFixedPercentiles T h results =
      fixedPercentilesCalls h T >>= fun calls ↦
        calls.foldlM (performCall h T) results >>= fun values ↦
          .ok (true, fill (fun _ ↦ h.maxEventTime) ((List.finRange 10).drop calls.length)
            values) := by
  rw [histogramValuesAtFixedPercentiles, if_neg hne, fixedPercentilesCalls, bind_assoc]
  refine bind_congr fun targetRanks ↦ ?_
  rw [fixedWalk_calls, bind_assoc]
  rfl

variable {h}

theorem valueAtTargetRankCall_reaches {r : UInt64} {c : BucketCall UInt64}
    (hc : valueAtTargetRankCall h r = some c) : c.targetRank = r ∧ c.Reaches h := by
  rw [valueAtTargetRankCall] at hc
  split at hc
  · cases hc
  · rw [Option.map_eq_some_iff] at hc
    obtain ⟨⟨i, prev⟩, hfound, rfl⟩ := hc
    obtain ⟨hweight, hrank⟩ := firstHit_some hfound
    exact ⟨rfl, i, rfl, rfl, hweight, hrank⟩

theorem fixedWalkCalls_reach {is : List (Fin bucketCount)} {acc : UInt64} {ks : List (Fin 10)}
    {c : Fin 10 × BucketCall UInt64} (hc : c ∈ fixedWalkCalls h ranks is acc ks) :
    c.2.Reaches h := by
  induction is generalizing acc ks with
  | nil => cases hc
  | cons i is ih =>
    rw [fixedWalkCalls] at hc
    split at hc
    · next hweight =>
      rcases List.mem_append.mp hc with hc | hc
      · rw [fixedBucketCalls, List.mem_map] at hc
        obtain ⟨k, hk, rfl⟩ := hc
        have hrank := List.all_eq_true.mp List.all_takeWhile k hk
        exact ⟨i, rfl, rfl, hweight, of_decide_eq_true hrank⟩
      · exact ih hc
    · exact ih hc

end Ranks

end P99

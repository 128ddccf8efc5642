import P99.Recording
import P99.RankModel
import P99.RankQueries

namespace P99

open Portable Buckets OrderStatistics

variable {L : Layout}

section Toolchains

variable (T T' : Toolchain)

theorem step_toolchain {s : Session L} (hs : Recording s) (c : Call) :
    s.step T c = s.step T' c := by
  cases c with
  | init => rfl
  | clear => rfl
  | push u x =>
    simp only [Session.step, histogramPush_eq T hs.flag_cases, histogramPush_eq T' hs.flag_cases]

theorem run_toolchain (memory : Histogram L) (calls : List Call) :
    run T memory calls = run T' memory calls := by
  have hfold : ∀ s : Session L, Recording s →
      calls.foldl (Session.step T) s = calls.foldl (Session.step T') s := by
    induction calls with
    | nil => exact fun s _ ↦ rfl
    | cons c calls ih =>
      intro s hs
      rw [List.foldl_cons, List.foldl_cons, ← step_toolchain T T' hs c]
      exact ih _ (hs.step T c)
  exact hfold _ (Recording.fresh memory)

theorem Recording.width_mul_bucket_lt {s : Session L} (hs : Recording s) (i : Fin bucketCount) :
    widthOf i * (bucketAt s.histogram i).toNat < 2 ^ 64 := by
  by_cases hi : (i : ℕ) = 0
  · rw [hi, widthOf, if_pos rfl, Nat.one_mul]
    exact (bucketAt s.histogram i).toNat_lt
  · have hcount : (bucketAt s.histogram i).toNat ≤ countIn bucketOf s.recorded i := by
      rw [P99.toNat_bucketAt, hs.bucket, BitVec.toNat_ofNat]
      exact Nat.mod_le _ _
    have htotal : s.recorded.sum < 2 ^ 64 := hs.total ▸ s.histogram.eventTimeTotal.toNat_lt
    exact ((Nat.mul_le_mul_left _ hcount).trans (width_mul_countIn_le hi _)).trans_lt htotal

theorem valueAtTargetRankLoop_toolchain {h : Histogram L}
    (hfit : ∀ i : Fin bucketCount, widthOf i * (bucketAt h i).toNat < 2 ^ 64) (r : UInt64)
    (is : List (Fin bucketCount)) (acc : UInt64) :
    valueAtTargetRankLoop T h r is acc = valueAtTargetRankLoop T' h r is acc := by
  induction is generalizing acc with
  | nil => rfl
  | cons i is ih =>
    by_cases hc : bucketAt h i > 0
    · by_cases hr : r ≤ acc + bucketAt h i
      · have hle := offset_le_count hr
        have hproduct := (Nat.mul_le_mul_left (widthOf i) hle).trans_lt (hfit i)
        rw [valueAtTargetRankLoop_found T h hc hr, valueAtTargetRankLoop_found T' h hc hr,
          valueAtTargetRankInBucket, valueAtTargetRankInBucket,
          interpolateAtTargetRank_fits T i.isLt hc hproduct,
          interpolateAtTargetRank_fits T' i.isLt hc hproduct]
      · rw [valueAtTargetRankLoop_miss T h hc hr, valueAtTargetRankLoop_miss T' h hc hr, ih]
    · rw [valueAtTargetRankLoop_skip T h hc, valueAtTargetRankLoop_skip T' h hc, ih]

/-- Every build runs alike and answers the integer queries alike, and none of them faults:
`_udiv128` is never asked for a quotient that does not fit. -/
theorem toolchains_agree (memory : Histogram L) (calls : List Call) :
    run T memory calls = run T' memory calls ∧
    let h := (run T memory calls).histogram
    (∀ k, ∃ answer, namedQuery k T h = .ok answer ∧ namedQuery k T' h = .ok answer) ∧
    ∀ results, ∃ answer, histogramValuesAtFixedPercentiles T h results = .ok answer ∧
      histogramValuesAtFixedPercentiles T' h results = .ok answer := by
  refine ⟨run_toolchain T T' memory calls, ?_⟩
  have hfit := (Recording.run T memory calls).width_mul_bucket_lt
  intro h
  have hnamed : ∀ k, namedQuery k T h = namedQuery k T' h := fun k ↦ by
    rw [namedQuery_rank, namedQuery_rank, valueAtTargetRank, valueAtTargetRank,
      valueAtTargetRankLoop_toolchain T T' hfit]
  refine ⟨fun k ↦ ?_, fun results ↦ ?_⟩
  · obtain ⟨answer, hanswer⟩ := namedQuery_ok T h k
    exact ⟨answer, hanswer, hnamed k ▸ hanswer⟩
  · obtain ⟨answer, hanswer⟩ := fixedPercentiles_ok T h results
    exact ⟨answer, hanswer, fixedPercentiles_congr rfl hnamed results ▸ hanswer⟩

end Toolchains

end P99

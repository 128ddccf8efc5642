import P99.Recording
import P99.RankQueries
import P99.RankModel
import Mathlib.Tactic.IntervalCases

namespace P99

open Portable Buckets Interpolation OrderStatistics RunningTotal

variable {L : Layout}

namespace Represents

variable {h : Histogram L} {R : List ℕ}

theorem min_eq (hR : Represents h R) (hne : R ≠ []) :
    h.minEventTime.toNat = orderStatistic R 1 :=
  (hR.least hne).unique (isLeast_orderStatistic_one hne)

theorem max_eq (hR : Represents h R) (hne : R ≠ []) :
    h.maxEventTime.toNat = orderStatistic R R.length :=
  (hR.greatest hne).unique (isGreatest_orderStatistic_length hne)

theorem orderStatistic_lt (hR : Represents h R) {r : ℕ} (hr : 1 ≤ r) (hrl : r ≤ R.length) :
    orderStatistic R r < 2 ^ 64 := hR.lt_of_mem (orderStatistic_mem hr hrl)

theorem rankBucket_lt (hR : Represents h R) (hne : R ≠ []) {r : ℕ} (hr : r ≤ R.length) :
    rankBucket R r < bucketCount :=
  bucketOf_lt (hR.orderStatistic_lt (Nat.le_max_right _ _)
    (Nat.max_le.mpr ⟨hr, List.length_pos_of_ne_nil hne⟩))

theorem rankValue_lt (hR : Represents h R) (hne : R ≠ []) (r : ℕ) : rankValue R r < 2 ^ 64 :=
  (rankValue_le_last R r).trans_lt
    (hR.orderStatistic_lt (List.length_pos_of_ne_nil hne) le_rfl)

theorem width_mul_count_lt (hR : Represents h R) (i : ℕ) :
    widthOf i * countIn bucketOf R i < 2 ^ 64 := by
  by_cases hi : i = 0
  · subst hi
    rw [widthOf, if_pos rfl, Nat.one_mul]
    exact (countIn_le_length bucketOf R 0).trans_lt hR.length_lt
  · exact (width_mul_countIn_le hi R).trans_lt hR.sum_lt

end Represents

section Refinement

variable (T : Toolchain) {h : Histogram L} {R : List ℕ}

theorem firstHit_rankBucket (hR : Represents h R) (hne : R ≠ []) {r : UInt64}
    (hr : r.toNat ≤ R.length) :
    firstHit (bucketAt h) (r ≤ ·) (List.finRange bucketCount) 0 =
      some (⟨rankBucket R r.toNat, hR.rankBucket_lt hne hr⟩,
        .ofNat (countBelow bucketOf R (rankBucket R r.toNat))) := by
  have hbelow := countBelow_rankBucket_lt hne hr
  have hreach := le_count_rankBucket hne hr
  have hweight : 0 < bucketAt h ⟨rankBucket R r.toNat, hR.rankBucket_lt hne hr⟩ := by
    rw [UInt64.lt_iff_toNat_lt, hR.bucket]
    exact countIn_rankBucket_pos hne hr
  have hhit : r ≤ .ofNat (countBelow bucketOf R (rankBucket R r.toNat + 1)) := by
    rw [UInt64.le_iff_toNat_le, hR.toNat_total, countBelow_succ]
    exact (Nat.le_max_left _ _).trans hreach
  have hmiss : ∀ j : Fin bucketCount, j < ⟨rankBucket R r.toNat, hR.rankBucket_lt hne hr⟩ →
      0 < bucketAt h j → ¬ r ≤ .ofNat (countBelow bucketOf R (j + 1)) := by
    intro j hj hv hhit
    rw [UInt64.le_iff_toNat_le, hR.toNat_total, countBelow_succ] at hhit
    rw [UInt64.lt_iff_toNat_lt, UInt64.toNat_zero, hR.bucket] at hv
    have hmono : countBelow bucketOf R j + countIn bucketOf R j ≤
        countBelow bucketOf R (rankBucket R r.toNat) :=
      countBelow_add_countIn bucketOf R (Fin.lt_def.mp hj)
    omega
  have hfound := firstHit_finRange (r ≤ ·) (fun k ↦ UInt64.ofNat (countBelow bucketOf R k))
    (fun j _ ↦ hR.total_step j) hR.total_flat hweight hhit hmiss
  rwa [countBelow_zero] at hfound

theorem firstHit_beyond (hR : Represents h R) {r : UInt64} (hr : R.length < r.toNat) :
    firstHit (bucketAt h) (r ≤ ·) (List.finRange bucketCount) 0 = none := by
  have hmiss : ∀ j : Fin bucketCount, 0 < bucketAt h j →
      ¬ r ≤ .ofNat (countBelow bucketOf R (j + 1)) := by
    intro j _ hhit
    rw [UInt64.le_iff_toNat_le, hR.toNat_total] at hhit
    exact absurd (hhit.trans (countBelow_le_length bucketOf R _)) (not_le.mpr hr)
  have hnone := firstHit_finRange_none (r ≤ ·) (fun k ↦ UInt64.ofNat (countBelow bucketOf R k))
    (fun j _ ↦ hR.total_step j) hR.total_flat hmiss
  rwa [countBelow_zero] at hnone

/-- The rank query refines the model: on every toolchain, for every rank, it answers what the
recorded durations say. -/
theorem valueAtTargetRank_eq (hR : Represents h R) (hne : R ≠ []) (r : UInt64) :
    valueAtTargetRank T h r = .ok (some (.ofNat (rankValue R r.toNat))) := by
  have hcount : ¬ 0 = h.eventCount := hR.eventCount_ne hne
  rw [valueAtTargetRank, if_neg hcount, valueAtTargetRankLoop_eq]
  by_cases hr : r.toNat ≤ R.length
  · rw [firstHit_rankBucket hR hne hr]
    dsimp only
    generalize hi : (⟨rankBucket R r.toNat, hR.rankBucket_lt hne hr⟩ : Fin bucketCount) = i
    have hival : rankBucket R r.toNat = i := congrArg Fin.val hi
    have hreach := (Nat.le_max_left _ _).trans (le_count_rankBucket hne hr)
    have hweight : bucketAt h i > 0 := by
      rw [gt_iff_lt, UInt64.lt_iff_toNat_lt, hR.bucket, ← hival]
      exact countIn_rankBucket_pos hne hr
    rw [hival] at hreach ⊢
    have hle : r.toNat - (UInt64.ofNat (countBelow bucketOf R i)).toNat ≤ (bucketAt h i).toNat := by
      rw [hR.toNat_total, hR.bucket]
      omega
    have hfit := (Nat.mul_le_mul_left (widthOf i) hle).trans_lt
      (hR.bucket i ▸ hR.width_mul_count_lt i)
    have hupper := (lerp_le hle).trans_lt (upperOf_lt i.isLt)
    rw [valueAtTargetRankInBucket, interpolateAtTargetRank_fits T i.isLt hweight hfit, ok_bind,
      ok_bind]
    refine congrArg (Except.ok ∘ some) (UInt64.toNat_inj.mp ?_)
    rw [toNat_clampToExtrema, hR.min_eq hne, hR.max_eq hne, UInt64.toNat_ofNat_of_lt' hupper,
      UInt64.toNat_ofNat_of_lt' (hR.rankValue_lt hne _), rankValue, if_pos hr, hival,
      hR.toNat_total, hR.bucket]
  · rw [firstHit_beyond hR (not_le.mp hr)]
    dsimp only
    rw [ok_bind, rankValue, if_neg hr, ← hR.max_eq hne, UInt64.ofNat_toNat]

theorem valueAtTargetRank_val (hR : Represents h R) (hne : R ≠ []) (r : UInt64) :
    ∃ v, valueAtTargetRank T h r = .ok (some v) ∧ v.toNat = rankValue R r.toNat := by
  refine ⟨_, valueAtTargetRank_eq T hR hne r, ?_⟩
  rw [UInt64.toNat_ofNat_of_lt' (hR.rankValue_lt hne _)]

theorem namedQuery_val (hR : Represents h R) (hne : R ≠ []) (k : Fin 10) :
    ∃ v, namedQuery k T h = .ok (some v) ∧ v.toNat = rankValue R (fixedRank R.length k) := by
  have hv := valueAtTargetRank_val T hR hne (.ofNat (fixedRank h.eventCount.toNat k))
  rwa [← namedQuery_rank, toNat_fixedRank, hR.count] at hv

theorem fixedPercentiles_val (hR : Represents h R) (hne : R ≠ []) (results : Vector UInt64 10) :
    ∃ values : Vector UInt64 10,
      histogramValuesAtFixedPercentiles T h results = .ok (true, values) ∧
      (∀ k, namedQuery k T h = .ok (some (values.get k))) ∧
      ∀ k, (values.get k).toNat = rankValue R (fixedRank R.length k) := by
  have hcount : ¬ 0 = h.eventCount := hR.eventCount_ne hne
  obtain ⟨values, hnamed, hbatch⟩ := fixedPercentiles_eq_named T h hcount results
  refine ⟨values, hbatch, hnamed, fun k ↦ ?_⟩
  obtain ⟨v, hv, hval⟩ := namedQuery_val T hR hne k
  have heq : values.get k = v := Option.some.inj (Except.ok.inj ((hnamed k).symm.trans hv))
  rw [heq, hval]

theorem bucketIndex_eq_iff (hR : Represents h R) {q : ℕ} (hq : 1 ≤ q) (hql : q ≤ R.length)
    (v : UInt64) :
    bucketIndex T v = bucketIndex T (.ofNat (orderStatistic R q)) ↔
      bucketOf v.toNat = bucketOf (orderStatistic R q) := by
  rw [bucketIndex_eq, bucketIndex_eq, UInt64.toNat_ofNat_of_lt' (hR.orderStatistic_lt hq hql)]

end Refinement

/-- Whole runs answer ranks accurately: the value lies between the extrema and in the bucket of
the exact order statistic, which for the named levels puts it within a factor of two. -/
theorem run_rank_accuracy (T : Toolchain) (memory : Histogram L) (calls : List Call)
    (hlen : (run T memory calls).recorded.length < 2 ^ 64)
    (hne : (run T memory calls).recorded ≠ []) :
    let h := (run T memory calls).histogram
    let R := (run T memory calls).recorded
    let n := R.length
    (∀ r : UInt64, r.toNat ≤ n → ∃ v, valueAtTargetRank T h r = .ok (some v) ∧
      orderStatistic R 1 ≤ v.toNat ∧ v.toNat ≤ orderStatistic R n ∧
      bucketIndex T v = bucketIndex T (.ofNat (orderStatistic R (max r.toNat 1))) ∧
      (r = 0 → v.toNat = orderStatistic R 1)) ∧
    ∀ k : Fin 10, ∃ v, namedQuery k T h = .ok (some v) ∧
      let s := orderStatistic R (max 1 (n * numerators[k].toNat / denominators[k].toNat))
      bucketIndex T v = bucketIndex T (.ofNat s) ∧ (2 ≤ s → v.toNat ≤ 2 * s ∧ s ≤ 2 * v.toNat) := by
  have hR := (Recording.run T memory calls).represents hlen
  intro h R n
  have hpos : 1 ≤ n := List.length_pos_of_ne_nil hne
  constructor
  · intro r hr
    obtain ⟨v, hv, hval⟩ := valueAtTargetRank_val T hR hne r
    refine ⟨v, hv, hval ▸ first_le_rankValue hne _, hval ▸ rankValue_le_last _ _, ?_, ?_⟩
    · rw [bucketIndex_eq_iff T hR (Nat.le_max_right _ _) (Nat.max_le.mpr ⟨hr, hpos⟩), hval]
      exact bucketOf_rankValue hne hr
    · rintro rfl
      exact hval.trans (rankValue_zero hne)
  · intro k
    obtain ⟨v, hv, hval⟩ := namedQuery_val T hR hne k
    have hk : fixedRank n k ≤ n := fixedRank_le n k
    have hbucket : bucketOf v.toNat = bucketOf (orderStatistic R (max 1 (fixedRank n k))) := by
      rw [hval, Nat.max_comm]
      exact bucketOf_rankValue hne hk
    refine ⟨v, hv, ?_, fun hs ↦ le_two_mul_of_bucketOf_eq hs hbucket⟩
    exact (bucketIndex_eq_iff T hR (Nat.le_max_left _ _) (Nat.max_le.mpr ⟨hpos, hk⟩) v).mpr hbucket

theorem run_rank_accuracy_sample :
    (∃ v, valueAtTargetRank .gccX64 sample.histogram 2 = .ok (some v) ∧
      orderStatistic sample.recorded 1 ≤ v.toNat ∧ v.toNat ≤ orderStatistic sample.recorded 3 ∧
      bucketIndex .gccX64 v = bucketIndex .gccX64 (.ofNat (orderStatistic sample.recorded 2))) ∧
    ∃ v, namedQuery 1 .gccX64 sample.histogram = .ok (some v) ∧
      bucketIndex .gccX64 v = bucketIndex .gccX64 (.ofNat (orderStatistic sample.recorded 2)) := by
  obtain ⟨hranks, hnamed⟩ := run_rank_accuracy .gccX64 (zeroed .standard)
    [.push .ns 1, .push .us 1, .push .ns 1000] (by decide) (by decide)
  obtain ⟨v, hv, hfirst, hlast, hbucket, -⟩ := hranks 2 (by decide)
  obtain ⟨w, hw, hwbucket, -⟩ := hnamed 1
  exact ⟨⟨v, hv, hfirst, hlast, hbucket⟩, w, hw, hwbucket⟩

section Monotone

variable (T : Toolchain) {h : Histogram L} {R : List ℕ}

/-- A greater rank never has a smaller answer; the named levels, asked one by one or in one
batch, increase from p50 to p99.9999 between the minimum and the maximum. -/
theorem rank_queries_mono (hR : Records T h R) (hne : R ≠ []) :
    (∀ r r' : UInt64, r ≤ r' → ∃ v v', valueAtTargetRank T h r = .ok (some v) ∧
      valueAtTargetRank T h r' = .ok (some v') ∧ v ≤ v') ∧
    ∀ results, ∃ values : Vector UInt64 10,
      (∀ k, namedQuery k T h = .ok (some (values.get k))) ∧
      histogramValuesAtFixedPercentiles T h results = .ok (true, values) ∧
      (∀ j k, j ≤ k → values.get j ≤ values.get k) ∧
      ∀ k, h.minEventTime ≤ values.get k ∧ values.get k ≤ h.maxEventTime := by
  have hrep := hR.represents
  constructor
  · intro r r' hr
    obtain ⟨v, hv, hval⟩ := valueAtTargetRank_val T hrep hne r
    obtain ⟨v', hv', hval'⟩ := valueAtTargetRank_val T hrep hne r'
    refine ⟨v, v', hv, hv', ?_⟩
    rw [UInt64.le_iff_toNat_le, hval, hval']
    exact rankValue_mono hne (UInt64.le_iff_toNat_le.mp hr)
  · intro results
    obtain ⟨values, hbatch, hnamed, hval⟩ := fixedPercentiles_val T hrep hne results
    refine ⟨values, hnamed, hbatch, fun j k hjk ↦ ?_, fun k ↦ ⟨?_, ?_⟩⟩
    · rw [UInt64.le_iff_toNat_le, hval, hval]
      exact rankValue_mono hne (fixedRank_mono _ hjk)
    · rw [UInt64.le_iff_toNat_le, hval, hrep.min_eq hne]
      exact first_le_rankValue hne _
    · rw [UInt64.le_iff_toNat_le, hval, hrep.max_eq hne]
      exact rankValue_le_last R _

theorem rank_queries_mono_sample :
    (∃ v v', valueAtTargetRank .gccX64 sample.histogram 1 = .ok (some v) ∧
      valueAtTargetRank .gccX64 sample.histogram 5 = .ok (some v') ∧ v ≤ v') ∧
    ∃ values : Vector UInt64 10,
      histogramValuesAtFixedPercentiles .gccX64 sample.histogram (.replicate 10 0) =
        .ok (true, values) ∧ ∀ j k, j ≤ k → values.get j ≤ values.get k := by
  obtain ⟨hranks, hlevels⟩ := rank_queries_mono .gccX64 sample_records (by decide)
  obtain ⟨values, -, hbatch, hmono, -⟩ := hlevels (.replicate 10 0)
  exact ⟨hranks 1 5 (by decide), values, hbatch, hmono⟩

/-- Two histograms of equally many events, one with slower events than the other: no rank, named
level or entry of the batch is answered faster for the slower events. -/
theorem rank_queries_dominated {h' : Histogram L} {R' : List ℕ} (hR : Records T h R)
    (hR' : Records T h' R') (hne : R ≠ []) (hlen : R.length = R'.length)
    (hdom : ∀ q, 1 ≤ q → q ≤ R.length → orderStatistic R q ≤ orderStatistic R' q) :
    (∀ r : UInt64, r.toNat ≤ R.length → ∃ v v', valueAtTargetRank T h r = .ok (some v) ∧
      valueAtTargetRank T h' r = .ok (some v') ∧ v ≤ v') ∧
    (∀ k : Fin 10, ∃ v v', namedQuery k T h = .ok (some v) ∧
      namedQuery k T h' = .ok (some v') ∧ v ≤ v') ∧
    ∀ results results', ∃ values values' : Vector UInt64 10,
      histogramValuesAtFixedPercentiles T h results = .ok (true, values) ∧
      histogramValuesAtFixedPercentiles T h' results' = .ok (true, values') ∧
      ∀ k, values.get k ≤ values'.get k := by
  have hrep := hR.represents
  have hrep' := hR'.represents
  have hne' : R' ≠ [] := List.ne_nil_of_length_pos (hlen ▸ List.length_pos_of_ne_nil hne)
  refine ⟨fun r hr ↦ ?_, fun k ↦ ?_, fun results results' ↦ ?_⟩
  · obtain ⟨v, hv, hval⟩ := valueAtTargetRank_val T hrep hne r
    obtain ⟨v', hv', hval'⟩ := valueAtTargetRank_val T hrep' hne' r
    refine ⟨v, v', hv, hv', ?_⟩
    rw [UInt64.le_iff_toNat_le, hval, hval']
    exact rankValue_le_of_dominates hne hlen hdom hr
  · obtain ⟨v, hv, hval⟩ := namedQuery_val T hrep hne k
    obtain ⟨v', hv', hval'⟩ := namedQuery_val T hrep' hne' k
    refine ⟨v, v', hv, hv', ?_⟩
    rw [UInt64.le_iff_toNat_le, hval, hval', ← hlen]
    exact rankValue_le_of_dominates hne hlen hdom (fixedRank_le _ k)
  · obtain ⟨values, hbatch, -, hval⟩ := fixedPercentiles_val T hrep hne results
    obtain ⟨values', hbatch', -, hval'⟩ := fixedPercentiles_val T hrep' hne' results'
    refine ⟨values, values', hbatch, hbatch', fun k ↦ ?_⟩
    rw [UInt64.le_iff_toNat_le, hval, hval', ← hlen]
    exact rankValue_le_of_dominates hne hlen hdom (fixedRank_le _ k)

def slowerSample : Session .standard :=
  run .gccX64 (zeroed .standard) [.push .ns 2, .push .us 1, .push .ns 2000]

theorem slowerSample_records :
    Records .gccX64 slowerSample.histogram slowerSample.recorded :=
  ⟨_, _, rfl, rfl, by decide⟩

theorem sample_dominated : ∀ q, 1 ≤ q → q ≤ sample.recorded.length →
    orderStatistic sample.recorded q ≤ orderStatistic slowerSample.recorded q := by
  intro q hq hql
  rw [orderStatistic_of_sorted (by decide), orderStatistic_of_sorted (by decide)]
  change q ≤ 3 at hql
  interval_cases q <;> decide

theorem rank_queries_dominated_sample :
    (∃ v v', valueAtTargetRank .gccX64 sample.histogram 2 = .ok (some v) ∧
      valueAtTargetRank .gccX64 slowerSample.histogram 2 = .ok (some v') ∧ v ≤ v') ∧
    ∃ v v', namedQuery 0 .gccX64 sample.histogram = .ok (some v) ∧
      namedQuery 0 .gccX64 slowerSample.histogram = .ok (some v') ∧ v ≤ v' := by
  obtain ⟨hranks, hnamed, -⟩ := rank_queries_dominated .gccX64 sample_records
    slowerSample_records (by decide) (by decide) sample_dominated
  exact ⟨hranks 2 (by decide), hnamed 0⟩

end Monotone

end P99

import P99.RankRefinement
import P99.PercentileQueries
import Mathlib.Algebra.Order.Floor.Semifield

namespace P99

open Portable Buckets Double Interpolation OrderStatistics RunningTotal

variable {L : Layout}

/-- The interpolant at a fractional rank of the recorded durations, in the bucket of the event
that the rank, rounded up, stands for. -/
def interpolant (R : List ℕ) (τ : ℚ) : ℚ :=
  lowerOf (rankBucket R ⌈τ⌉₊) + widthOf (rankBucket R ⌈τ⌉₊) *
    ((τ - countBelow bucketOf R (rankBucket R ⌈τ⌉₊)) / countIn bucketOf R (rankBucket R ⌈τ⌉₊))

def percentileValue (R : List ℕ) (τ : ℚ) : ℕ :=
  clamp (orderStatistic R 1) (orderStatistic R R.length) (roundHalfAway (interpolant R τ)).toNat

section Model

variable {R : List ℕ} {τ : ℚ}

theorem ceil_pos_of_pos (hτ : 0 < τ) : 1 ≤ ⌈τ⌉₊ := Nat.ceil_pos.mpr hτ

theorem levelRank_mem (hne : R ≠ []) {p : ℚ} (hp : 0 < p) (hp' : p < 100) :
    0 < R.length * (p / 100) ∧ R.length * (p / 100) < R.length := by
  have hlength : (0 : ℚ) < R.length := Nat.cast_pos.mpr (List.length_pos_of_ne_nil hne)
  constructor
  · positivity
  · exact mul_lt_of_lt_one_right hlength ((div_lt_one (by norm_num)).mpr hp')

theorem interpolant_mem (hne : R ≠ []) (hτ : 0 < τ) (hτn : τ ≤ R.length) :
    lowerOf (rankBucket R ⌈τ⌉₊) ≤ interpolant R τ ∧
      interpolant R τ ≤ lowerOf (rankBucket R ⌈τ⌉₊) + widthOf (rankBucket R ⌈τ⌉₊) := by
  have hr : ⌈τ⌉₊ ≤ R.length := Nat.ceil_le.mpr hτn
  have hbelow := countBelow_rankBucket_lt hne hr
  have hreach := le_count_rankBucket hne hr
  have hcount := countIn_rankBucket_pos hne hr
  rw [max_eq_left (ceil_pos_of_pos hτ)] at hbelow hreach
  rw [interpolant]
  generalize rankBucket R ⌈τ⌉₊ = i at *
  have hstart : (countBelow bucketOf R i : ℚ) < τ := Nat.lt_ceil.mp hbelow
  have hstop : τ ≤ countBelow bucketOf R i + countIn bucketOf R i := by
    have hle := (Nat.le_ceil τ).trans (Nat.cast_le.mpr hreach)
    rwa [Nat.cast_add] at hle
  exact fraction_mem_range (Nat.cast_nonneg _) (by linarith) (Nat.cast_pos.mpr hcount)
    (by linarith)

theorem round_interpolant_mem (hne : R ≠ []) (hτ : 0 < τ) (hτn : τ ≤ R.length) :
    ∃ v : ℕ, roundHalfAway (interpolant R τ) = v ∧ lowerOf (rankBucket R ⌈τ⌉₊) ≤ v ∧
      v ≤ lowerOf (rankBucket R ⌈τ⌉₊) + widthOf (rankBucket R ⌈τ⌉₊) := by
  obtain ⟨hl, hu⟩ := interpolant_mem hne hτ hτn
  exact exists_roundHalfAway hl (hu.trans_eq (Nat.cast_add _ _).symm)

theorem bucketOf_percentileValue (hne : R ≠ []) (hτ : 0 < τ) (hτn : τ ≤ R.length) :
    bucketOf (percentileValue R τ) = bucketOf (orderStatistic R ⌈τ⌉₊) := by
  obtain ⟨v, hv, hl, hu⟩ := round_interpolant_mem hne hτ hτn
  have hr : ⌈τ⌉₊ ≤ R.length := Nat.ceil_le.mpr hτn
  have hone := ceil_pos_of_pos hτ
  have hbucket : rankBucket R ⌈τ⌉₊ = bucketOf (orderStatistic R ⌈τ⌉₊) := by
    rw [rankBucket, max_eq_left hone]
  rw [percentileValue, hv, ← hbucket]
  exact bucketOf_clamp ⟨_, orderStatistic_mem hone hr, hbucket.symm⟩ hl hu

end Model

theorem interpolateAtPercentile_bounds {D : Type} [LinearOrder D] [Add D] [Sub D] [Mul D] [Div D]
    [Double D] {i : ℕ} (hi : i < bucketCount) (count prev : UInt64) (τ : D) :
    interpolateAtPercentile i count prev τ =
      ofInt (lowerOf i) + ofInt (widthOf i) * ((τ - ofU64 prev) / ofU64 count) := by
  obtain ⟨lower, upper, hrange, hl, hu⟩ := bucketRange_spec hi
  simp only [interpolateAtPercentile, hrange, Option.getD_some, ofU64, bucketRangeWidth_eq hl hu,
    hl]

theorem interpolateAtPercentile_eq {i : ℕ} (hi : i < bucketCount) (count prev : UInt64) (τ : ℚ) :
    interpolateAtPercentile i count prev τ =
      lowerOf i + widthOf i * ((τ - prev.toNat) / count.toNat) := by
  simp only [interpolateAtPercentile_bounds hi, ofU64, ofInt, Int.cast_natCast]

theorem clampPercentile_of_mem {p : ℚ} (hp : 0 < p) (hp' : p < 100) : clampPercentile p = p := by
  simp only [clampPercentile, ofInt, Int.cast_zero, Int.cast_ofNat]
  rw [if_neg (not_lt.mpr hp.le), if_neg (not_lt.mpr hp'.le)]

theorem toNat_ofInt {v : ℕ} (hv : v < 2 ^ 64) : (UInt64.ofInt v).toNat = v := by
  rw [UInt64.ofInt, UInt64.toNat_ofNat']
  omega

section Refinement

variable {h : Histogram L} {R : List ℕ}

theorem firstHit_of_rank (hR : Represents h R) (hne : R ≠ []) {r : ℕ} (hr : r ≤ R.length)
    {hit : UInt64 → Prop} [DecidablePred hit] (hhit : ∀ acc, hit acc ↔ r ≤ acc.toNat) :
    firstHit (bucketAt h) hit (List.finRange bucketCount) 0 =
      some (⟨rankBucket R r, hR.rankBucket_lt hne hr⟩,
        .ofNat (countBelow bucketOf R (rankBucket R r))) := by
  have hnat : (UInt64.ofNat r).toNat = r := UInt64.toNat_ofNat_of_lt' (hr.trans_lt hR.length_lt)
  have hle : ∀ acc, hit acc ↔ UInt64.ofNat r ≤ acc := by
    intro acc
    rw [hhit, UInt64.le_iff_toNat_le, hnat]
  have hfound := firstHit_rankBucket hR hne (r := .ofNat r) (hnat.symm ▸ hr)
  rw [firstHit_congr hle, hfound]
  simp only [hnat]

theorem firstHit_ceil (hR : Represents h R) (hne : R ≠ []) {τ : ℚ}
    (hτn : τ ≤ R.length) :
    ∃ hi : rankBucket R ⌈τ⌉₊ < bucketCount,
      firstHit (bucketAt h) (τ ≤ ofU64 ·) (List.finRange bucketCount) 0 =
        some (⟨rankBucket R ⌈τ⌉₊, hi⟩,
          .ofNat (countBelow bucketOf R (rankBucket R ⌈τ⌉₊))) :=
  ⟨_, firstHit_of_rank hR hne (Nat.ceil_le.mpr hτn) fun _ ↦ Nat.ceil_le.symm⟩

theorem interpolateAtPercentile_model (hR : Represents h R) {τ : ℚ}
    (hi : rankBucket R ⌈τ⌉₊ < bucketCount) :
    interpolateAtPercentile (rankBucket R ⌈τ⌉₊) (bucketAt h ⟨rankBucket R ⌈τ⌉₊, hi⟩)
      (.ofNat (countBelow bucketOf R (rankBucket R ⌈τ⌉₊))) τ = interpolant R τ := by
  rw [interpolateAtPercentile_eq hi, hR.bucket, hR.toNat_total]
  rfl

theorem percentileValue_lt (hR : Represents h R) (hne : R ≠ []) (τ : ℚ) :
    percentileValue R τ < 2 ^ 64 :=
  clamp_le.trans_lt (hR.orderStatistic_lt (List.length_pos_of_ne_nil hne) le_rfl)

/-- The fractional rank query refines the model. -/
theorem valueAtPercentile_eq (hR : Represents h R) (hne : R ≠ []) {p : ℚ} (hp : 0 < p)
    (hp' : p < 100) :
    histogramValueAtPercentile h p = some (.ofNat (percentileValue R (R.length * (p / 100)))) := by
  have hcount : ¬ 0 = h.eventCount := hR.eventCount_ne hne
  have hrank : (ofU64 h.eventCount : ℚ) * (p / 100) = R.length * (p / 100) := by
    rw [← hR.count]
    rfl
  obtain ⟨hτ, hτn⟩ := levelRank_mem hne hp hp'
  have hτn := hτn.le
  have hquery : histogramValueAtPercentile h p =
      valueAtPercentileLoop h (R.length * (p / 100)) (List.finRange bucketCount) 0 := by
    simp only [histogramValueAtPercentile, if_neg hcount, clampPercentile_of_mem hp hp', ofInt,
      Int.cast_zero, Int.cast_ofNat, if_neg (not_le.mpr hp), ge_iff_le, if_neg (not_le.mpr hp'),
      hrank]
  obtain ⟨hi, hfound⟩ := firstHit_ceil hR hne hτn
  rw [hquery, valueAtPercentileLoop_eq, hfound]
  generalize R.length * (p / 100) = τ at *
  obtain ⟨v, hv, -, hu⟩ := round_interpolant_mem hne hτ hτn
  have hfit : v < 2 ^ 64 := hu.trans_lt (upperOf_lt hi)
  refine congrArg some (UInt64.toNat_inj.mp ?_)
  rw [valueAtPercentileInBucket]
  dsimp only
  rw [interpolateAtPercentile_model hR hi, toNat_clampToExtrema, hR.min_eq hne, hR.max_eq hne,
    UInt64.toNat_ofNat_of_lt' (percentileValue_lt hR hne τ), percentileValue, hv,
    Int.toNat_natCast]
  change clamp _ _ (UInt64.ofInt (roundHalfAway (interpolant R τ))).toNat = _
  rw [hv, toNat_ofInt hfit]

def fixedLevels : Vector ℚ 10 := #v[50, 75, 90, 95, 99, 99.5, 99.9, 99.99, 99.999, 99.9999]

theorem fixedLevels_fraction (k : Fin 10) :
    fixedLevels.get k / 100 = (numerators.get k).toNat / (denominators.get k).toNat := by
  revert k
  decide +kernel

theorem fixedLevels_mem (k : Fin 10) : 0 < fixedLevels.get k ∧ fixedLevels.get k < 100 := by
  revert k
  decide +kernel

theorem floor_fixedLevels (n : ℕ) (k : Fin 10) :
    ⌊(n : ℚ) * (fixedLevels.get k / 100)⌋₊ = fixedRank n k := by
  rw [fixedLevels_fraction, ← mul_div_assoc, ← Nat.cast_mul, Nat.floor_div_eq_div]
  rfl

/-- At a fixed level the named query answers from the bucket of the rank rounded down, the
percentile query from that of the rank rounded up. -/
theorem named_and_percentile_buckets (T : Toolchain) (hR : Records T h R) (hne : R ≠ [])
    (k : Fin 10) :
    let rank : ℚ := R.length * (fixedLevels.get k / 100)
    ∃ v w, namedQuery k T h = .ok (some v) ∧
      histogramValueAtPercentile h (fixedLevels.get k) = some w ∧
      bucketIndex T v = bucketIndex T (.ofNat (orderStatistic R (max 1 ⌊rank⌋₊))) ∧
      bucketIndex T w = bucketIndex T (.ofNat (orderStatistic R ⌈rank⌉₊)) ∧
      ((∃ m : ℕ, rank = m) → bucketIndex T v = bucketIndex T w) := by
  intro rank
  have hrep := hR.represents
  obtain ⟨hp, hp'⟩ := fixedLevels_mem k
  have hrank : 0 < rank := (levelRank_mem hne hp hp').1
  have hrankn : rank ≤ R.length := (levelRank_mem hne hp hp').2.le
  have hfloor : ⌊rank⌋₊ = fixedRank R.length k := floor_fixedLevels _ k
  have hceil : 1 ≤ ⌈rank⌉₊ := ceil_pos_of_pos hrank
  have hceiln : ⌈rank⌉₊ ≤ R.length := Nat.ceil_le.mpr hrankn
  obtain ⟨v, hv, hval⟩ := namedQuery_val T hrep hne k
  have hnamed : bucketIndex T v = bucketIndex T (.ofNat (orderStatistic R (max 1 ⌊rank⌋₊))) := by
    have hle := fixedRank_le R.length k
    rw [hfloor, bucketIndex_eq_iff T hrep (Nat.le_max_left _ _)
      (Nat.max_le.mpr ⟨List.length_pos_of_ne_nil hne, hle⟩), hval, bucketOf_rankValue hne hle,
      rankBucket, Nat.max_comm]
  have hpercentile : bucketIndex T (.ofNat (percentileValue R rank)) =
      bucketIndex T (.ofNat (orderStatistic R ⌈rank⌉₊)) := by
    rw [bucketIndex_eq_iff T hrep hceil hceiln,
      UInt64.toNat_ofNat_of_lt' (percentileValue_lt hrep hne rank)]
    exact bucketOf_percentileValue hne hrank hrankn
  refine ⟨v, _, hv, valueAtPercentile_eq hrep hne hp hp', hnamed, hpercentile, ?_⟩
  intro ⟨m, hm⟩
  rw [hnamed, hpercentile, hm, Nat.floor_natCast, Nat.ceil_natCast]
  have hm' : 1 ≤ m := by
    rw [hm, Nat.ceil_natCast] at hceil
    exact hceil
  rw [max_eq_right hm']

end Refinement

theorem named_and_percentile_buckets_sample :
    ∃ v w, namedQuery 0 .gccX64 sample.histogram = .ok (some v) ∧
      histogramValueAtPercentile sample.histogram (fixedLevels.get 0) = some w ∧
      bucketIndex .gccX64 v = bucketIndex .gccX64 (.ofNat (orderStatistic sample.recorded 1)) ∧
      bucketIndex .gccX64 w = bucketIndex .gccX64 (.ofNat (orderStatistic sample.recorded 2)) := by
  have hfloor : ⌊(sample.recorded.length : ℚ) * (fixedLevels.get 0 / 100)⌋₊ = 1 := by
    decide +kernel
  have hceil : ⌈(sample.recorded.length : ℚ) * (fixedLevels.get 0 / 100)⌉₊ = 2 := by
    decide +kernel
  obtain ⟨v, w, hv, hw, hbelow, habove, -⟩ :=
    named_and_percentile_buckets .gccX64 sample_records (by decide) 0
  rw [hfloor] at hbelow
  rw [hceil] at habove
  exact ⟨v, w, hv, hw, hbelow, habove⟩

/-- The median of 1, 1000 and 1000 nanoseconds: the rank one and a half is rounded down to the
first bucket, but lies in the second. -/
theorem named_and_percentile_part :
    ¬ ∀ (h : Histogram .standard) (R : List ℕ), Records .gccX64 h R → R ≠ [] → ∀ k : Fin 10,
      ∃ v w, namedQuery k .gccX64 h = .ok (some v) ∧
        histogramValueAtPercentile h (fixedLevels.get k) = some w ∧
        bucketIndex .gccX64 v = bucketIndex .gccX64 w := by
  have hv' : namedQuery 0 .gccX64 sample.histogram = .ok (some 1) := by decide +kernel
  have hw' : histogramValueAtPercentile sample.histogram (fixedLevels.get 0) = some 640 := by
    decide +kernel
  intro hall
  obtain ⟨v, w, hv, hw, hbucket⟩ := hall sample.histogram sample.recorded sample_records
    (by decide) 0
  rw [hv', Except.ok.injEq, Option.some.injEq] at hv
  rw [hw', Option.some.injEq] at hw
  subst hv hw
  exact absurd hbucket (by decide +kernel)

end P99

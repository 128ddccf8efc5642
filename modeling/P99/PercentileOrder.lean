import P99.PercentileRefinement
import P99.PercentileAgreement
import P99.PercentileCalls

namespace P99

open Portable Buckets Double Interpolation OrderStatistics RunningTotal

variable {L : Layout}

section Model

variable {R : List ℕ} {r : ℕ} {τ τ' : ℚ}

theorem rankBucket_pos (hr : 1 ≤ r) : rankBucket R r = bucketOf (orderStatistic R r) := by
  rw [rankBucket, max_eq_left hr]

theorem countBelow_ceil_lt (hne : R ≠ []) (hτ : 0 < τ) (hτn : τ ≤ R.length) :
    (countBelow bucketOf R (rankBucket R ⌈τ⌉₊) : ℚ) < τ := by
  have hbelow := countBelow_rankBucket_lt hne (Nat.ceil_le.mpr hτn)
  rw [max_eq_left (ceil_pos_of_pos hτ)] at hbelow
  exact Nat.lt_ceil.mp hbelow

theorem bucketOf_percentileValue_rank (hne : R ≠ []) (hτ : 0 < τ) (hτn : τ ≤ R.length) :
    bucketOf (percentileValue R τ) = rankBucket R ⌈τ⌉₊ := by
  rw [bucketOf_percentileValue hne hτ hτn, rankBucket_pos (ceil_pos_of_pos hτ)]

theorem percentileValue_mono (hne : R ≠ []) (hτ : 0 < τ) (h : τ ≤ τ') (hτn : τ' ≤ R.length) :
    percentileValue R τ ≤ percentileValue R τ' := by
  have hτ' := hτ.trans_le h
  have hbuckets := rankBucket_mono (Nat.ceil_mono h) hne (Nat.ceil_le.mpr hτn)
  rcases hbuckets.lt_or_eq with hlt | heq
  · rw [← bucketOf_percentileValue_rank hne hτ (h.trans hτn),
      ← bucketOf_percentileValue_rank hne hτ' hτn] at hlt
    exact (lt_of_bucketOf_lt hlt).le
  · have hinterpolants : interpolant R τ ≤ interpolant R τ' := by
      rw [interpolant, interpolant, heq]
      gcongr
    exact clamp_mono le_rfl le_rfl (Int.toNat_le_toNat (roundHalfAway_mono hinterpolants))

theorem rankValue_le_percentileValue (hne : R ≠ []) (hτ : 0 < τ) (hτn : τ ≤ R.length)
    (hr : (r : ℚ) ≤ τ) : rankValue R r ≤ percentileValue R τ := by
  have hceil : ⌈τ⌉₊ ≤ R.length := Nat.ceil_le.mpr hτn
  have hrc : r ≤ ⌈τ⌉₊ := Nat.cast_le.mp (hr.trans (Nat.le_ceil τ))
  rcases (rankBucket_mono hrc hne hceil).lt_or_eq with hlt | heq
  · rw [← bucketOf_rankValue hne (hrc.trans hceil),
      ← bucketOf_percentileValue_rank hne hτ hτn] at hlt
    exact (lt_of_bucketOf_lt hlt).le
  · have hbelow := countBelow_ceil_lt hne hτ hτn
    rw [rankValue, if_pos (hrc.trans hceil), percentileValue, interpolant, heq]
    generalize rankBucket R ⌈τ⌉₊ = i at *
    have hoffset : ((r - countBelow bucketOf R i : ℕ) : ℚ) ≤ τ - countBelow bucketOf R i := by
      rcases Nat.le_total r (countBelow bucketOf R i) with hle | hle
      · rw [Nat.sub_eq_zero_of_le hle, Nat.cast_zero]
        linarith
      · rw [Nat.cast_sub hle]
        linarith
    refine clamp_mono le_rfl le_rfl (Int.le_toNat ?_ |>.mpr ?_)
    · exact (Int.natCast_nonneg _).trans (le_roundHalfAway (lerp_le_fraction hoffset))
    · exact le_roundHalfAway (lerp_le_fraction hoffset)

theorem percentileValue_le_rankValue (hne : R ≠ []) (hτ : 0 < τ) (hr : τ ≤ r)
    (hrn : r ≤ R.length) : percentileValue R τ ≤ rankValue R r + 1 := by
  have hτn : τ ≤ R.length := hr.trans (Nat.cast_le.mpr hrn)
  have hcr : ⌈τ⌉₊ ≤ r := Nat.ceil_le.mpr hr
  rcases (rankBucket_mono hcr hne hrn).lt_or_eq with hlt | heq
  · rw [← bucketOf_rankValue hne hrn, ← bucketOf_percentileValue_rank hne hτ hτn] at hlt
    exact (lt_of_bucketOf_lt hlt).le.trans (Nat.le_succ _)
  · have hbelow := countBelow_ceil_lt hne hτ hτn
    have hcount := countIn_rankBucket_pos hne hrn
    have hlower := (interpolant_mem hne hτ hτn).1
    rw [rankValue, if_pos hrn, percentileValue]
    refine le_trans ?_ clamp_add_one_le
    refine clamp_mono le_rfl le_rfl (Int.toNat_le.mpr ?_)
    refine roundHalfAway_le ((Nat.cast_nonneg _).trans hlower) ?_
    rw [interpolant, heq]
    rw [heq] at hbelow
    generalize rankBucket R r = i at *
    have hle : countBelow bucketOf R i ≤ r := by
      have hlt := hbelow.trans_le hr
      exact (Nat.cast_lt.mp hlt).le
    refine fraction_le_lerp_add_one hcount ?_
    rw [Nat.cast_sub hle]
    linarith

end Model

section Order

variable (T : Toolchain) {h : Histogram L} {R : List ℕ} {p : ℚ}

theorem valueAtPercentile_val (hR : Represents h R) (hne : R ≠ []) (hp : 0 < p) (hp' : p < 100) :
    ∃ v, histogramValueAtPercentile h p = some v ∧
      v.toNat = percentileValue R (R.length * (p / 100)) := by
  refine ⟨_, valueAtPercentile_eq hR hne hp hp', ?_⟩
  rw [UInt64.toNat_ofNat_of_lt' (percentileValue_lt hR hne _)]

theorem valueAtPercentile_low (hcount : ¬ 0 = h.eventCount) (hp : p ≤ 0) :
    histogramValueAtPercentile h p = some h.minEventTime :=
  percentile_low h hcount (hp.trans_eq ofInt_zero.symm)

theorem valueAtPercentile_high (hcount : ¬ 0 = h.eventCount) (hp : 100 ≤ p) :
    histogramValueAtPercentile h p = some h.maxEventTime :=
  percentile_high h hcount (ofInt_hundred.trans_le hp)

theorem exists_percentile {D : Type} [LinearOrder D] [Add D] [Sub D] [Mul D] [Div D] [Double D]
    [MonotoneDouble D] (hR : Represents h R) (hne : R ≠ []) (p : D) :
    ∃ v, histogramValueAtPercentile h p = some v ∧
      orderStatistic R 1 ≤ v.toNat ∧ v.toNat ≤ orderStatistic R R.length := by
  have hcount : ¬ 0 = h.eventCount := hR.eventCount_ne hne
  have hlow : ∃ v, some h.minEventTime = some v ∧
      orderStatistic R 1 ≤ v.toNat ∧ v.toNat ≤ orderStatistic R R.length :=
    ⟨_, rfl, (hR.min_eq hne).ge, (hR.min_eq hne).trans_le (first_le_last hne)⟩
  have hhigh : ∃ v, some h.maxEventTime = some v ∧
      orderStatistic R 1 ≤ v.toNat ∧ v.toNat ≤ orderStatistic R R.length :=
    ⟨_, rfl, (first_le_last hne).trans_eq (hR.max_eq hne).symm, (hR.max_eq hne).le⟩
  rcases le_or_gt p (ofInt 0) with hp | hp
  · rwa [percentile_low h hcount hp]
  · rcases le_or_gt (ofInt 100) p with hp' | hp'
    · rwa [percentile_high h hcount hp']
    · rw [percentile_pos h hcount (clampPercentile_pos_iff.mpr hp), scanAt]
      split
      · rwa [histogramMaxEventTime, if_neg hcount]
      · rw [valueAtPercentileLoop_eq]
        split
        · refine ⟨_, rfl, ?_⟩
          rw [valueAtPercentileInBucket, toNat_clampToExtrema, hR.min_eq hne, hR.max_eq hne]
          exact ⟨le_clamp (first_le_last hne), clamp_le⟩
        · rwa [histogramMaxEventTime, if_neg hcount]

theorem valueAtPercentileCall_eq (hR : Represents h R) (hne : R ≠ []) (hp : 0 < p)
    (hp' : p < 100) :
    ∃ hi : rankBucket R ⌈R.length * (p / 100)⌉₊ < bucketCount,
      valueAtPercentileCall h p = some
        ⟨rankBucket R ⌈R.length * (p / 100)⌉₊,
          bucketAt h ⟨rankBucket R ⌈R.length * (p / 100)⌉₊, hi⟩,
          .ofNat (countBelow bucketOf R (rankBucket R ⌈R.length * (p / 100)⌉₊)),
          R.length * (p / 100)⟩ := by
  have hcount : ¬ 0 = h.eventCount := hR.eventCount_ne hne
  have hrank : (ofU64 h.eventCount : ℚ) * (p / 100) = R.length * (p / 100) := by
    rw [← hR.count]
    rfl
  obtain ⟨hi, hfound⟩ := firstHit_ceil hR hne (levelRank_mem hne hp hp').2.le
  refine ⟨hi, ?_⟩
  simp only [valueAtPercentileCall, if_neg hcount, clampPercentile_of_mem hp hp', ofInt,
    Int.cast_zero, Int.cast_ofNat, if_neg (not_le.mpr hp), ge_iff_le, if_neg (not_le.mpr hp'),
    hrank, hfound, Option.map_some]

/-- The answer to a fractional rank lies between those to the ranks around it, up to the rounding
of the last nanosecond. -/
theorem percentile_between_ranks (hR : Records T h R) (hne : R ≠ []) (hp : 0 < p)
    (hp' : p < 100) :
    let rank : ℚ := R.length * (p / 100)
    ∃ v low high, histogramValueAtPercentile h p = some v ∧
      valueAtTargetRank T h (.ofNat ⌊rank⌋₊) = .ok (some low) ∧
      valueAtTargetRank T h (.ofNat (⌊rank⌋₊ + 1)) = .ok (some high) ∧
      low ≤ v ∧ v.toNat ≤ high.toNat + 1 ∧
      ((∃ m : ℕ, rank = m) → v.toNat ≤ low.toNat + 1) := by
  intro rank
  have hrep := hR.represents
  obtain ⟨hrank, hrankn⟩ := levelRank_mem hne hp hp'
  have hfloor : (⌊rank⌋₊ : ℚ) ≤ rank := Nat.floor_le hrank.le
  have hnext : rank ≤ (⌊rank⌋₊ + 1 : ℕ) := by
    rw [Nat.cast_add, Nat.cast_one]
    exact (Nat.lt_floor_add_one rank).le
  have hlength : ⌊rank⌋₊ + 1 ≤ R.length := (Nat.floor_lt hrank.le).mpr hrankn
  have hrange : ⌊rank⌋₊ + 1 < 2 ^ 64 := hlength.trans_lt hrep.length_lt
  obtain ⟨v, hv, hval⟩ := valueAtPercentile_val hrep hne hp hp'
  obtain ⟨low, hlow, hlowval⟩ := valueAtTargetRank_val T hrep hne (.ofNat ⌊rank⌋₊)
  obtain ⟨high, hhigh, hhighval⟩ := valueAtTargetRank_val T hrep hne (.ofNat (⌊rank⌋₊ + 1))
  rw [UInt64.toNat_ofNat_of_lt' (Nat.lt_of_succ_lt hrange)] at hlowval
  rw [UInt64.toNat_ofNat_of_lt' hrange] at hhighval
  refine ⟨v, low, high, hv, hlow, hhigh, ?_, ?_, ?_⟩
  · rw [UInt64.le_iff_toNat_le, hlowval, hval]
    exact rankValue_le_percentileValue hne hrank hrankn.le hfloor
  · rw [hval, hhighval]
    exact percentileValue_le_rankValue hne hrank hnext hlength
  · intro ⟨m, hm⟩
    rw [hval, hlowval]
    apply percentileValue_le_rankValue hne hrank ?_ (Nat.le_of_succ_le hlength)
    rw [hm, Nat.floor_natCast]
    exact hm.le

theorem percentile_between_ranks_sample :
    ∃ v low high, histogramValueAtPercentile sample.histogram (50 : ℚ) = some v ∧
      valueAtTargetRank .gccX64 sample.histogram
        (.ofNat ⌊(sample.recorded.length : ℚ) * (50 / 100)⌋₊) = .ok (some low) ∧
      valueAtTargetRank .gccX64 sample.histogram
        (.ofNat (⌊(sample.recorded.length : ℚ) * (50 / 100)⌋₊ + 1)) = .ok (some high) ∧
      low ≤ v ∧ v.toNat ≤ high.toNat + 1 :=
  have ⟨v, low, high, hv, hlow, hhigh, hle, hge, _⟩ :=
    percentile_between_ranks .gccX64 sample_records (by decide) (p := 50) (by norm_num)
      (by norm_num)
  ⟨v, low, high, hv, hlow, hhigh, hle, hge⟩

theorem valueAtPercentile_mono (hR : Represents h R) (hne : R ≠ []) {p q : ℚ} (hpq : p ≤ q) :
    ∃ v w, histogramValueAtPercentile h p = some v ∧ histogramValueAtPercentile h q = some w ∧
      v ≤ w := by
  have hcount : ¬ 0 = h.eventCount := hR.eventCount_ne hne
  obtain ⟨v, hv, hfirst, hlast⟩ := exists_percentile hR hne p
  obtain ⟨w, hw, hfirst', hlast'⟩ := exists_percentile hR hne q
  refine ⟨v, w, hv, hw, ?_⟩
  rcases le_or_gt p 0 with hp | hp
  · rw [valueAtPercentile_low hcount hp, Option.some.injEq] at hv
    rw [UInt64.le_iff_toNat_le, ← hv, hR.min_eq hne]
    exact hfirst'
  · rcases le_or_gt 100 q with hq | hq
    · rw [valueAtPercentile_high hcount hq, Option.some.injEq] at hw
      rw [UInt64.le_iff_toNat_le, ← hw, hR.max_eq hne]
      exact hlast
    · obtain ⟨v', hv', hval⟩ := valueAtPercentile_val hR hne hp (hpq.trans_lt hq)
      obtain ⟨w', hw', hval'⟩ := valueAtPercentile_val hR hne (hp.trans_le hpq) hq
      obtain rfl := Option.some.inj (hv.symm.trans hv')
      obtain rfl := Option.some.inj (hw.symm.trans hw')
      rw [UInt64.le_iff_toNat_le, hval, hval']
      have hranks : R.length * (p / 100) ≤ R.length * (q / 100) := by gcongr
      exact percentileValue_mono hne (levelRank_mem hne hp (hpq.trans_lt hq)).1 hranks
        (levelRank_mem hne (hp.trans_le hpq) hq).2.le

/-- The query for a percentile is accurate to the bucket of the nearest-rank order statistic,
exact at both ends and increasing in the level. -/
theorem percentile_accuracy (hR : Records T h R) (hne : R ≠ []) :
    (∀ p : ℚ, ∃ v, histogramValueAtPercentile h p = some v ∧
      (p ≤ 0 → v.toNat = orderStatistic R 1) ∧
      (100 ≤ p → v.toNat = orderStatistic R R.length) ∧
      (0 < p → p < 100 →
        (∃ c, valueAtPercentileCall h p = some c ∧ v = c.fpValue h) ∧
        orderStatistic R 1 ≤ v.toNat ∧ v.toNat ≤ orderStatistic R R.length ∧
        bucketIndex T v =
          bucketIndex T (.ofNat (orderStatistic R ⌈(R.length : ℚ) * (p / 100)⌉₊)))) ∧
    ∀ p q : ℚ, p ≤ q → ∃ v w, histogramValueAtPercentile h p = some v ∧
      histogramValueAtPercentile h q = some w ∧ v ≤ w := by
  have hrep := hR.represents
  have hcount : ¬ 0 = h.eventCount := hrep.eventCount_ne hne
  refine ⟨fun p ↦ ?_, fun p q ↦ valueAtPercentile_mono hrep hne⟩
  obtain ⟨v, hv, hfirst, hlast⟩ := exists_percentile hrep hne p
  refine ⟨v, hv, ?_, ?_, ?_⟩
  · intro hp
    rw [valueAtPercentile_low hcount hp, Option.some.injEq] at hv
    rw [← hv, hrep.min_eq hne]
  · intro hp
    rw [valueAtPercentile_high hcount hp, Option.some.injEq] at hv
    rw [← hv, hrep.max_eq hne]
  · intro hp hp'
    obtain ⟨hrank, hrankn⟩ := levelRank_mem hne hp hp'
    obtain ⟨_, hcall⟩ := valueAtPercentileCall_eq hrep hne hp hp'
    obtain ⟨v', hv', hval⟩ := valueAtPercentile_val hrep hne hp hp'
    obtain rfl := Option.some.inj (hv.symm.trans hv')
    refine ⟨⟨_, hcall, ?_⟩, hfirst, hlast, ?_⟩
    · rw [valueAtPercentile_call h hcount, hcall, Option.some.injEq] at hv
      exact hv.symm
    · rw [bucketIndex_eq_iff T hrep (ceil_pos_of_pos hrank) (Nat.ceil_le.mpr hrankn.le), hval]
      exact bucketOf_percentileValue hne hrank hrankn.le

theorem percentile_accuracy_sample :
    ∃ v, histogramValueAtPercentile sample.histogram (50 : ℚ) = some v ∧
      orderStatistic sample.recorded 1 ≤ v.toNat ∧
      v.toNat ≤ orderStatistic sample.recorded sample.recorded.length :=
  have ⟨v, hv, _, _, hbetween⟩ :=
    (percentile_accuracy .gccX64 sample_records (by decide)).1 50
  have ⟨_, hfirst, hlast, _⟩ := hbetween (by norm_num) (by norm_num)
  ⟨v, hv, hfirst, hlast⟩

end Order

end P99

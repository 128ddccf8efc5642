import P99.RoundedPercentiles

namespace P99

open Portable Buckets Double FloatingPoint Interpolation OrderStatistics RunningTotal

variable {L L' : Layout}

namespace Binary64

variable {lower width prev prev' count count' : ℕ} {τ : Binary64}

theorem interpolation_le (hprev : prev ≤ τ.val) (hprev' : prev' ≤ τ.val) (hτ : τ.val < 2 ^ 53)
    (hcount : count ≤ 2 ^ 53) (hcount' : count' ≤ 2 ^ 53)
    (h : (τ.val - prev) / count ≤ (τ.val - prev') / count') :
    interpolation lower width prev count τ ≤ interpolation lower width prev' count' τ := by
  have hle : ∀ {n : ℕ}, n ≤ τ.val → n ≤ 2 ^ 53 := fun hn ↦ by exact_mod_cast hn.trans hτ.le
  apply Format.round_mono
  apply add_le_add_right
  apply Format.round_mono
  refine mul_le_mul_of_nonneg_left ?_ (ofInt_natCast_nonneg width)
  apply Format.round_mono
  rw [Number.val_sub, Number.val_sub, val_ofInt_natCast (hle hprev),
    val_ofInt_natCast (hle hprev'), val_ofInt_natCast hcount, val_ofInt_natCast hcount',
    round_sub_natCast hprev hτ, round_sub_natCast hprev' hτ]
  exact h

end Binary64

open Binary64

section Model

variable {R R' : List ℕ} (hne : R ≠ []) (hlen : R.length = R'.length)
  (hdom : ∀ q, 1 ≤ q → q ≤ R.length → orderStatistic R q ≤ orderStatistic R' q)

include hne hlen hdom

omit hlen in
theorem rankBucket_le_of_dominates {r : ℕ} (hr : r ≤ R.length) :
    rankBucket R r ≤ rankBucket R' r :=
  bucketOf_mono (hdom _ (Nat.le_max_right _ _)
    (Nat.max_le.mpr ⟨hr, List.length_pos_of_ne_nil hne⟩))

theorem fraction_le_of_dominates {t : ℚ} (ht : 0 ≤ t) (htn : t ≤ R.length)
    (heq : rankBucket R ⌈t⌉₊ = rankBucket R' ⌈t⌉₊) :
    (t - countBelow bucketOf R (rankBucket R ⌈t⌉₊)) / countIn bucketOf R (rankBucket R ⌈t⌉₊) ≤
      (t - countBelow bucketOf R' (rankBucket R' ⌈t⌉₊)) /
        countIn bucketOf R' (rankBucket R' ⌈t⌉₊) := by
  have hne' : R' ≠ [] := List.ne_nil_of_length_pos (hlen ▸ List.length_pos_of_ne_nil hne)
  have hstart := countBelow_ceil_le hne ht htn
  have hstop := le_count_ceil hne' (hlen ▸ htn)
  have hcount := countIn_rankBucket_pos hne (Nat.ceil_le.mpr htn)
  have hcount' := countIn_rankBucket_pos hne' (Nat.ceil_le.mpr (hlen ▸ htn))
  rw [← heq] at hstop hcount' ⊢
  generalize rankBucket R ⌈t⌉₊ = i at *
  have hbelow := countBelow_antitone_of_dominates bucketOf_mono hlen hdom i
  have hupto := countBelow_antitone_of_dominates bucketOf_mono hlen hdom (i + 1)
  rw [countBelow_succ, countBelow_succ] at hupto
  have hshift := fraction_shift_le (K := ℚ) (b := countBelow bucketOf R i + countIn bucketOf R i)
    (Nat.cast_le.mpr hbelow) (by exact_mod_cast hupto) hstart hstop
    (lt_add_of_pos_right _ (Nat.cast_pos.mpr hcount))
    (lt_add_of_pos_right _ (Nat.cast_pos.mpr hcount'))
  rwa [add_sub_cancel_left, add_sub_cancel_left] at hshift

theorem percentileValue_le_of_dominates {t : ℚ} (ht : 0 < t) (htn : t ≤ R.length) :
    percentileValue R t ≤ percentileValue R' t := by
  have hpos := List.length_pos_of_ne_nil hne
  have hne' : R' ≠ [] := List.ne_nil_of_length_pos (hlen ▸ hpos)
  rcases (rankBucket_le_of_dominates hne hdom (Nat.ceil_le.mpr htn)).lt_or_eq with hlt | heq
  · rw [← bucketOf_percentileValue_rank hne ht htn,
      ← bucketOf_percentileValue_rank hne' ht (hlen ▸ htn)] at hlt
    exact (lt_of_bucketOf_lt hlt).le
  · have hfraction := fraction_le_of_dominates hne hlen hdom ht.le htn heq
    refine clamp_mono (hdom 1 le_rfl hpos) (hlen ▸ hdom R.length hpos le_rfl)
      (Int.toNat_le_toNat (roundHalfAway_mono ?_))
    rw [interpolant, interpolant, ← heq]
    rw [← heq] at hfraction
    gcongr

theorem roundedValue_le_of_dominates (hn : R.length ≤ 2 ^ 53) {τ : Binary64} (hτ : 0 ≤ τ.val)
    (hτn : τ.val < R.length) : roundedValue R τ ≤ roundedValue R' τ := by
  have hpos := List.length_pos_of_ne_nil hne
  have hne' : R' ≠ [] := List.ne_nil_of_length_pos (hlen ▸ hpos)
  have hfirst := hdom 1 le_rfl hpos
  have hlast : orderStatistic R R.length ≤ orderStatistic R' R'.length :=
    hlen ▸ hdom R.length hpos le_rfl
  have hbuckets := rankBucket_le_of_dominates hne hdom (Nat.ceil_le.mpr hτn.le)
  rcases hbuckets.lt_or_eq with hlt | heq
  · exact ((roundedValue_mem hne hn hτ hτn.le).2.1.trans (clamp_mono hfirst hlast
      (two_pow_le_lowerOf hlt))).trans
        (roundedValue_mem hne' (hlen ▸ hn) hτ (hlen ▸ hτn.le)).1
  · refine clamp_mono hfirst hlast (Int.toNat_le_toNat (roundHalfAway_mono ?_))
    have hsmall : τ.val < 2 ^ 53 := hτn.trans_le (by exact_mod_cast hn)
    have hfraction := fraction_le_of_dominates hne hlen hdom hτ hτn.le heq
    have hstart' := countBelow_ceil_le hne' hτ (hlen ▸ hτn.le)
    rw [roundedInterpolant, roundedInterpolant]
    rw [← heq] at hfraction hstart' ⊢
    exact interpolation_le (countBelow_ceil_le hne hτ hτn.le) hstart' hsmall
      ((countIn_le_length _ _ _).trans hn) ((countIn_le_length _ _ _).trans (hlen ▸ hn)) hfraction

end Model

section Queries

variable {T T' : Toolchain} {h : Histogram L} {h' : Histogram L'} {R R' : List ℕ}

theorem extremes_le (hR : Represents h R) (hR' : Represents h' R') (hne : R ≠ [])
    (hlen : R.length = R'.length)
    (hdom : ∀ q, 1 ≤ q → q ≤ R.length → orderStatistic R q ≤ orderStatistic R' q) :
    h.minEventTime ≤ h'.minEventTime ∧ h.maxEventTime ≤ h'.maxEventTime := by
  have hpos := List.length_pos_of_ne_nil hne
  have hne' : R' ≠ [] := List.ne_nil_of_length_pos (hlen ▸ hpos)
  rw [UInt64.le_iff_toNat_le, UInt64.le_iff_toNat_le, hR.min_eq hne, hR'.min_eq hne',
    hR.max_eq hne, hR'.max_eq hne', ← hlen]
  exact ⟨hdom 1 le_rfl hpos, hdom _ hpos le_rfl⟩

section Levels

variable {D : Type} [LinearOrder D] [Add D] [Sub D] [Mul D] [Div D] [Double D] [MonotoneDouble D]
  (hcount : ¬ 0 = h.eventCount) (hcount' : ¬ 0 = h'.eventCount)

include hcount hcount'

theorem percentile_le_of_between (hmin : h.minEventTime ≤ h'.minEventTime)
    (hmax : h.maxEventTime ≤ h'.maxEventTime) {p : D}
    (hbetween : ofInt 0 < p → p < ofInt 100 → ∃ v v', histogramValueAtPercentile h p = some v ∧
      histogramValueAtPercentile h' p = some v' ∧ v ≤ v') :
    ∃ v v', histogramValueAtPercentile h p = some v ∧
      histogramValueAtPercentile h' p = some v' ∧ v ≤ v' := by
  rcases le_or_gt p (ofInt 0) with hp | hp
  · exact ⟨_, _, percentile_low h hcount hp, percentile_low h' hcount' hp, hmin⟩
  · rcases le_or_gt (ofInt 100) p with hp' | hp'
    · exact ⟨_, _, percentile_high h hcount hp', percentile_high h' hcount' hp', hmax⟩
    · exact hbetween hp hp'

theorem batch_le_of_percentile_le (hcongr : RankDetermines h D) (hcongr' : RankDetermines h' D)
    (hle : ∀ p : D, ∃ v v', histogramValueAtPercentile h p = some v ∧
      histogramValueAtPercentile h' p = some v' ∧ v ≤ v') {elements elements' : List (FpResult D)}
    (hlevels : elements.map (·.level) = elements'.map (·.level))
    (hord : Ordered (elements.map (·.level))) :
    List.Forall₂ (fun e e' ↦ e.value ≤ e'.value) (histogramValuesAtPercentiles h elements).2
      (histogramValuesAtPercentiles h' elements').2 :=
  values_forall₂ (percentiles_eq_answers_of_rank h hcount hcongr hord).2
    (percentiles_eq_answers_of_rank h' hcount' hcongr' (hlevels ▸ hord)).2 hlevels hle

end Levels

/-- Two histograms of equally many events, one with slower events than the other: no level, alone
or in a batch, is answered faster for the slower events. -/
theorem percentiles_dominated (hR : Records T h R) (hR' : Records T' h' R') (hne : R ≠ [])
    (hlen : R.length = R'.length)
    (hdom : ∀ q, 1 ≤ q → q ≤ R.length → orderStatistic R q ≤ orderStatistic R' q) :
    (∀ p : ℚ, ∃ v v', histogramValueAtPercentile h p = some v ∧
      histogramValueAtPercentile h' p = some v' ∧ v ≤ v') ∧
    ∀ elements elements' : List (FpResult ℚ),
      elements.map (·.level) = elements'.map (·.level) → Ordered (elements.map (·.level)) →
      List.Forall₂ (fun e e' ↦ e.value ≤ e'.value) (histogramValuesAtPercentiles h elements).2
        (histogramValuesAtPercentiles h' elements').2 := by
  have hrep := hR.represents
  have hrep' := hR'.represents
  have hne' : R' ≠ [] := List.ne_nil_of_length_pos (hlen ▸ List.length_pos_of_ne_nil hne)
  have hcount : ¬ 0 = h.eventCount := hrep.eventCount_ne hne
  have hcount' : ¬ 0 = h'.eventCount := hrep'.eventCount_ne hne'
  obtain ⟨hmin, hmax⟩ := extremes_le hrep hrep' hne hlen hdom
  have hsingle : ∀ p : ℚ, ∃ v v', histogramValueAtPercentile h p = some v ∧
      histogramValueAtPercentile h' p = some v' ∧ v ≤ v' := by
    refine fun p ↦ percentile_le_of_between hcount hcount' hmin hmax fun hp hp' ↦ ?_
    rw [ofInt_zero] at hp
    rw [ofInt_hundred] at hp'
    obtain ⟨v, hv, hval⟩ := valueAtPercentile_val hrep hne hp hp'
    obtain ⟨v', hv', hval'⟩ := valueAtPercentile_val hrep' hne' hp hp'
    obtain ⟨hrank, hrankn⟩ := levelRank_mem hne hp hp'
    refine ⟨v, v', hv, hv', ?_⟩
    rw [UInt64.le_iff_toNat_le, hval, hval', ← hlen]
    exact percentileValue_le_of_dominates hne hlen hdom hrank hrankn.le
  exact ⟨hsingle, fun _ _ ↦ batch_le_of_percentile_le hcount hcount'
    (rankDetermines_exact h hcount) (rankDetermines_exact h' hcount') hsingle⟩

theorem percentiles_dominated_sample :
    ∃ v v', histogramValueAtPercentile sample.histogram (50 : ℚ) = some v ∧
      histogramValueAtPercentile slowerSample.histogram (50 : ℚ) = some v' ∧ v ≤ v' :=
  (percentiles_dominated sample_records slowerSample_records (by decide) (by decide)
    sample_dominated).1 50

theorem roundedRank_congr (hR : Represents h R) (hR' : Represents h' R')
    (hlen : R.length = R'.length) (p : Binary64) : roundedRank h p = roundedRank h' p := by
  have hcount : h.eventCount = h'.eventCount :=
    UInt64.toNat_inj.mp (hR.count.trans (hlen.trans hR'.count.symm))
  rw [roundedRank, roundedRank, hcount]

/-- Rounding does not undo it: in the arithmetic of `double`, too, the slower events are not
answered faster. -/
theorem rounded_percentiles_dominated (hR : Records T h R) (hR' : Records T' h' R') (hne : R ≠ [])
    (hlen : R.length = R'.length)
    (hdom : ∀ q, 1 ≤ q → q ≤ R.length → orderStatistic R q ≤ orderStatistic R' q)
    (hn : R.length ≤ 2 ^ 53) (hd : ∀ t ∈ R, t < 2 ^ 62) (hd' : ∀ t ∈ R', t < 2 ^ 62) :
    (∀ p : Binary64, ∃ v v', histogramValueAtPercentile h p = some v ∧
      histogramValueAtPercentile h' p = some v' ∧ v ≤ v') ∧
    ∀ elements elements' : List (FpResult Binary64),
      elements.map (·.level) = elements'.map (·.level) → Ordered (elements.map (·.level)) →
      List.Forall₂ (fun e e' ↦ e.value ≤ e'.value) (histogramValuesAtPercentiles h elements).2
        (histogramValuesAtPercentiles h' elements').2 := by
  have hrep := hR.represents
  have hrep' := hR'.represents
  have hne' : R' ≠ [] := List.ne_nil_of_length_pos (hlen ▸ List.length_pos_of_ne_nil hne)
  have hcount : ¬ 0 = h.eventCount := hrep.eventCount_ne hne
  have hcount' : ¬ 0 = h'.eventCount := hrep'.eventCount_ne hne'
  obtain ⟨hmin, hmax⟩ := extremes_le hrep hrep' hne hlen hdom
  have hsingle : ∀ p : Binary64, ∃ v v', histogramValueAtPercentile h p = some v ∧
      histogramValueAtPercentile h' p = some v' ∧ v ≤ v' := by
    refine fun p ↦ percentile_le_of_between hcount hcount' hmin hmax fun hp hp' ↦ ?_
    rw [Number.lt_iff, val_zero] at hp
    rw [Number.lt_iff, val_hundred] at hp'
    refine ⟨_, _, valueAtPercentile_rounded hrep hne hn hd hp hp',
      valueAtPercentile_rounded hrep' hne' (hlen ▸ hn) hd' hp hp', ?_⟩
    rw [UInt64.le_iff_toNat_le, UInt64.toNat_ofNat_of_lt' (roundedValue_lt hrep hne _),
      UInt64.toNat_ofNat_of_lt' (roundedValue_lt hrep' hne' _), ← roundedRank_congr hrep hrep' hlen]
    exact roundedValue_le_of_dominates hne hlen hdom hn (roundedRank_nonneg h hp.le)
      (roundedRank_lt hrep hne hn hp')
  exact ⟨hsingle, fun _ _ ↦ batch_le_of_percentile_le hcount hcount'
    (rankDetermines_rounded hrep hne) (rankDetermines_rounded hrep' hne') hsingle⟩

theorem rounded_percentiles_dominated_sample :
    ∃ v v', histogramValueAtPercentile sample.histogram (.nearest 50 : Binary64) = some v ∧
      histogramValueAtPercentile slowerSample.histogram (.nearest 50 : Binary64) = some v' ∧
      v ≤ v' :=
  (rounded_percentiles_dominated sample_records slowerSample_records (by decide) (by decide)
    sample_dominated (by decide) (by decide) (by decide)).1 _

end Queries

end P99

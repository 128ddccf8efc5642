import P99.RoundingError

namespace P99

open Portable Buckets Double FloatingPoint Interpolation OrderStatistics RunningTotal Binary64

variable {L : Layout}

theorem rankValue_succ_le {R : List ℕ} {r : ℕ} (hr : r + 1 ≤ R.length)
    (hbucket : rankBucket R (r + 1) = rankBucket R r) :
    rankValue R (r + 1) ≤ rankValue R r +
      (widthOf (rankBucket R r) / countIn bucketOf R (rankBucket R r) + 1) := by
  rw [rankValue, rankValue, if_pos hr, if_pos (Nat.le_of_succ_le hr), hbucket]
  refine le_trans (clamp_mono le_rfl le_rfl ?_) clamp_add_le
  exact (lerp_mono (by omega)).trans lerp_succ_le

section Model

variable {R : List ℕ} {r : ℕ} {τ : Binary64} {δ : ℚ} (hne : R ≠ []) (hn : R.length ≤ 2 ^ 53)
  (hd : ∀ t ∈ R, t < 2 ^ 53) (hτ : 0 ≤ τ.val) (hτn : τ.val < R.length)

include hne hn hd hτ hτn

theorem bucketOf_roundedValue : bucketOf (roundedValue R τ) = rankBucket R ⌈τ.val⌉₊ :=
  (roundedValue_mem hne hn hτ hτn.le).2.2.resolve_right fun hwide ↦
    not_lt.mpr hwide.1 (rankBucket_lt_of_lt hne (Nat.ceil_le.mpr hτn.le) (by decide) hd)

/-- Against a rank that the computed one falls short of by less than the next event, the errors of
the interpolation stay below the half that `llround` makes up for. -/
theorem rankValue_le_roundedValue (hδ : 0 ≤ δ) (hδ' : δ < 1) (hr : r ≤ τ.val + δ)
    (herror : (lowerOf (rankBucket R ⌈τ.val⌉₊) + widthOf (rankBucket R ⌈τ.val⌉₊) : ℕ) *
      (δ + 3 / 2 ^ 53) ≤ 1 / 2) : rankValue R r ≤ roundedValue R τ := by
  rcases Nat.eq_zero_or_pos r with rfl | hpos
  · rw [rankValue_zero hne]
    exact le_clamp (first_le_last hne)
  · have hceiln : ⌈τ.val⌉₊ ≤ R.length := Nat.ceil_le.mpr hτn.le
    have hrc : r ≤ ⌈τ.val⌉₊ := by
      have hlt : (r : ℚ) < (⌈τ.val⌉₊ + 1 : ℕ) := by
        rw [Nat.cast_add, Nat.cast_one]
        linarith [Nat.le_ceil τ.val]
      exact Nat.lt_succ_iff.mp (Nat.cast_lt.mp hlt)
    rcases (rankBucket_mono hrc hne hceiln).lt_or_eq with hlt | heq
    · rw [← bucketOf_rankValue hne (hrc.trans hceiln),
        ← bucketOf_roundedValue hne hn hd hτ hτn] at hlt
      exact (lt_of_bucketOf_lt hlt).le
    · -- the rank itself, if the computed one falls short of it
      have hceil : ⌈τ.val⌉₊ = ⌈max (r : ℚ) τ.val⌉₊ := by
        rw [Nat.ceil_mono.map_max, Nat.ceil_natCast, max_eq_right hrc]
      have hshort : |τ.val - max (r : ℚ) τ.val| ≤ δ := by
        rw [abs_sub_comm, abs_of_nonneg (sub_nonneg.mpr (le_max_right _ _)), sub_le_iff_le_add']
        exact max_le hr (le_add_of_nonneg_right hδ)
      have hclose := abs_roundedInterpolant_sub_le hne hn hd hτ hτn hceil hshort
      have hlower := (roundedInterpolant_mem hne hn hτ hτn.le).1
      have hbelow := countBelow_rankBucket_lt hne (hrc.trans hceiln)
      rw [max_eq_left hpos] at hbelow
      rw [← hceil] at hclose
      have hhalf := (abs_le.mp (hclose.trans herror)).1
      rw [interpolant, ← hceil, ← heq] at hhalf
      rw [rankValue, if_pos (hrc.trans hceiln), roundedValue]
      generalize rankBucket R r = i at *
      have hoffset : ((r - countBelow bucketOf R i : ℕ) : ℚ) ≤
          max (r : ℚ) τ.val - countBelow bucketOf R i := by
        rw [Nat.cast_sub hbelow.le]
        exact sub_le_sub_right (le_max_left _ _) _
      have hlerp : (lerp (lowerOf i) (widthOf i) (countIn bucketOf R i)
          (r - countBelow bucketOf R i) : ℚ) ≤ _ := lerp_le_fraction hoffset
      suffices hround : ((_ : ℕ) : ℤ) ≤ roundHalfAway (roundedInterpolant R τ).val from
        clamp_mono le_rfl le_rfl ((Int.le_toNat ((Int.natCast_nonneg _).trans hround)).mpr hround)
      exact le_roundHalfAway_of_le_add_half ((Nat.cast_nonneg _).trans hlower) (by linarith)

theorem roundedValue_le_rankValue (hr : τ.val ≤ r) (hrn : r ≤ R.length)
    (herror : (lowerOf (rankBucket R ⌈τ.val⌉₊) + widthOf (rankBucket R ⌈τ.val⌉₊) : ℕ) *
      (3 / 2 ^ 53 : ℚ) < 1 / 2) : roundedValue R τ ≤ rankValue R r + 1 := by
  have hcr : ⌈τ.val⌉₊ ≤ r := Nat.ceil_le.mpr hr
  rcases (rankBucket_mono hcr hne hrn).lt_or_eq with hlt | heq
  · rw [← bucketOf_rankValue hne hrn, ← bucketOf_roundedValue hne hn hd hτ hτn] at hlt
    exact (lt_of_bucketOf_lt hlt).le.trans (Nat.le_succ _)
  · have hclose := abs_roundedInterpolant_sub_le hne hn hd hτ hτn rfl (δ := 0)
      (by rw [sub_self, abs_zero])
    have hlower := (roundedInterpolant_mem hne hn hτ hτn.le).1
    have hbelow := countBelow_ceil_le hne hτ hτn.le
    have hcount := countIn_rankBucket_pos hne hrn
    rw [zero_add] at hclose
    have hhalf := (abs_lt.mp (hclose.trans_lt herror)).2
    rw [interpolant] at hhalf
    rw [heq] at hbelow hhalf
    rw [rankValue, if_pos hrn, roundedValue]
    generalize rankBucket R r = i at *
    have hle : countBelow bucketOf R i ≤ r := by exact_mod_cast hbelow.trans hr
    have hoffset : τ.val - countBelow bucketOf R i ≤ ((r - countBelow bucketOf R i : ℕ) : ℚ) := by
      rw [Nat.cast_sub hle]
      exact sub_le_sub_right hr _
    have hlerp : _ ≤ ((lerp (lowerOf i) (widthOf i) (countIn bucketOf R i)
        (r - countBelow bucketOf R i) + 1 : ℕ) : ℚ) := fraction_le_lerp_add_one hcount hoffset
    refine le_trans (clamp_mono le_rfl le_rfl (Int.toNat_le.mpr ?_)) clamp_add_one_le
    refine roundHalfAway_le_of_lt_add_half ((Nat.cast_nonneg _).trans hlower) ?_
    linarith

end Model

section Rank

variable {h : Histogram L} {R : List ℕ} (hR : Represents h R) (hne : R ≠ [])
  (hn : R.length ≤ 2 ^ 53)

include hR hne hn

theorem abs_literalRank_sub_le {p : ℚ} (hp : 0 < p) (hp' : p < 100)
    (hlow : 0 < (.nearest p : Binary64).val) (hhigh : (.nearest p : Binary64).val < 100) :
    |(roundedRank h (.nearest p)).val - R.length * (p / 100)| ≤ 3 * R.length / 2 ^ 53 := by
  have hrank := abs_roundedRank_sub_le hR hne hn hlow hhigh
  have hliteral : |(.nearest p : Binary64).val - p| ≤ 100 * (1 / 2 ^ 53) :=
    abs_round_sub_le (abs_le.mpr ⟨by linarith, hp'.le⟩) (by norm_num)
  have hscaled : |R.length * ((.nearest p : Binary64).val / 100) - R.length * (p / 100)| ≤
      R.length * (1 / 2 ^ 53) := by
    rw [← mul_sub, ← sub_div, abs_mul, Nat.abs_cast, abs_div,
      abs_of_pos (by norm_num : (0 : ℚ) < 100)]
    refine mul_le_mul_of_nonneg_left ?_ (Nat.cast_nonneg _)
    rwa [div_le_iff₀' (by norm_num)]
  calc |(roundedRank h (.nearest p)).val - R.length * (p / 100)|
      ≤ R.length / 2 ^ 52 + R.length * (1 / 2 ^ 53) :=
        (abs_sub_le _ _ _).trans (add_le_add hrank hscaled)
    _ = 3 * R.length / 2 ^ 53 := by ring

end Rank

theorem nearest_fixedLevels (k : Fin 10) :
    0 < (.nearest (fixedLevels.get k) : Binary64).val ∧
      (.nearest (fixedLevels.get k) : Binary64).val < 100 := by
  revert k
  decide +kernel

theorem fixedRank_between (n : ℕ) (k : Fin 10) :
    (fixedRank n k : ℚ) ≤ n * (fixedLevels.get k / 100) ∧
      n * (fixedLevels.get k / 100) ≤ (fixedRank n k + 1 : ℕ) - 1 / 10 ^ 6 := by
  have hden : 0 < (denominators.get k).toNat ∧ (denominators.get k).toNat ≤ 10 ^ 6 := by
    revert k
    decide +kernel
  have hpos : (0 : ℚ) < (denominators.get k).toNat := Nat.cast_pos.mpr hden.1
  have hle : ((denominators.get k).toNat : ℚ) ≤ 10 ^ 6 := by exact_mod_cast hden.2
  have hlow : fixedRank n k * (denominators.get k).toNat ≤ n * (numerators.get k).toNat :=
    Nat.div_mul_le_self _ _
  have hhigh : n * (numerators.get k).toNat + 1 ≤
      (fixedRank n k + 1) * (denominators.get k).toNat :=
    Nat.lt_mul_of_div_lt (Nat.lt_succ_self _) hden.1
  have hlow' : (fixedRank n k : ℚ) * (denominators.get k).toNat ≤ n * (numerators.get k).toNat := by
    exact_mod_cast hlow
  have hhigh' : (n : ℚ) * (numerators.get k).toNat + 1 ≤
      (fixedRank n k + 1 : ℕ) * (denominators.get k).toNat := by exact_mod_cast hhigh
  rw [fixedLevels_fraction, ← mul_div_assoc]
  refine ⟨(le_div_iff₀ hpos).mpr hlow', (div_le_iff₀ hpos).mpr ?_⟩
  have hgap : 1 / 10 ^ 6 * ((denominators.get k).toNat : ℚ) ≤ 1 := by linarith
  linarith

theorem fixedRank_lt {R : List ℕ} (hne : R ≠ []) (k : Fin 10) :
    fixedRank R.length k + 1 ≤ R.length := by
  obtain ⟨hp, hp'⟩ := fixedLevels_mem k
  exact_mod_cast (fixedRank_between R.length k).1.trans_lt (levelRank_mem hne hp hp').2

theorem error_le_half {n b upper : ℕ} (hupper : upper ≤ 2 ^ b)
    (hsize : (n + 2) * 2 ^ b ≤ 2 ^ 50) :
    (upper : ℚ) * (3 * n / 2 ^ 53 + 3 / 2 ^ 53) ≤ 1 / 2 ∧ (upper : ℚ) * (3 / 2 ^ 53) < 1 / 2 := by
  have hpow : 1 ≤ 2 ^ b := Nat.one_le_two_pow
  have hle : upper * (3 * n + 3) ≤ 2 ^ 52 := by nlinarith
  have hlt : upper * 3 < 2 ^ 52 := by nlinarith
  have hle' : (upper : ℚ) * (3 * n + 3) ≤ 2 ^ 52 := by exact_mod_cast hle
  have hlt' : (upper : ℚ) * 3 < 2 ^ 52 := by exact_mod_cast hlt
  constructor
  · calc (upper : ℚ) * (3 * n / 2 ^ 53 + 3 / 2 ^ 53) = upper * (3 * n + 3) / 2 ^ 53 := by ring
      _ ≤ 2 ^ 52 / 2 ^ 53 := by gcongr
      _ = 1 / 2 := by norm_num
  · calc (upper : ℚ) * (3 / 2 ^ 53) = upper * 3 / 2 ^ 53 := by ring
      _ < 2 ^ 52 / 2 ^ 53 := by gcongr
      _ = 1 / 2 := by norm_num

section Queries

variable {h : Histogram L} {R : List ℕ} {b : ℕ}

theorem named_le_rounded (hR : Represents h R) (hne : R ≠ []) (hd : ∀ t ∈ R, t < 2 ^ b)
    (hsize : (R.length + 2) * 2 ^ b ≤ 2 ^ 50) (hn : R.length ≤ 2 ^ 31) (k : Fin 10) :
    ∃ v, histogramValueAtPercentile h (.nearest (fixedLevels.get k) : Binary64) = some v ∧
      rankValue R (fixedRank R.length k) ≤ v.toNat ∧
      v.toNat ≤ rankValue R (fixedRank R.length k + 1) + 1 := by
  have hn' : R.length ≤ 2 ^ 53 := hn.trans (by decide)
  have hpow : 1 ≤ 2 ^ b := Nat.one_le_two_pow
  have hd' : ∀ t ∈ R, t < 2 ^ 53 := fun t ht ↦ (hd t ht).trans_le (by nlinarith)
  have hd'' : ∀ t ∈ R, t < 2 ^ 62 := fun t ht ↦ (hd' t ht).trans (by decide)
  obtain ⟨hp, hp'⟩ := fixedLevels_mem k
  obtain ⟨hliteral, hliteral'⟩ := nearest_fixedLevels k
  have hτ := roundedRank_nonneg h hliteral.le
  have hτn := roundedRank_lt hR hne hn' hliteral'
  obtain ⟨hlow, hhigh⟩ := abs_le.mp (abs_literalRank_sub_le hR hne hn' hp hp' hliteral hliteral')
  obtain ⟨hfloor, hnext⟩ := fixedRank_between R.length k
  have hupper := upper_rankBucket_le hne (Nat.ceil_le.mpr hτn.le) hd
  obtain ⟨herror, herror'⟩ := error_le_half hupper hsize
  have hcast : (R.length : ℚ) ≤ 2 ^ 31 := by exact_mod_cast hn
  have hslack : 3 * (R.length : ℚ) / 2 ^ 53 ≤ 1 / 10 ^ 6 := by
    rw [div_le_div_iff₀ (by positivity) (by positivity)]
    linarith
  refine ⟨_, valueAtPercentile_rounded hR hne hn' hd'' hliteral hliteral', ?_⟩
  rw [UInt64.toNat_ofNat_of_lt' (roundedValue_lt hR hne _)]
  refine ⟨?_, ?_⟩
  · refine rankValue_le_roundedValue hne hn' hd' hτ hτn (by positivity) ?_ (by linarith) herror
    exact hslack.trans_lt (by norm_num)
  · refine roundedValue_le_rankValue hne hn' hd' hτ hτn (by linarith) ?_ herror'
    exact fixedRank_lt hne k

theorem getElem?_fixedLevels (k : Fin 10) :
    fixedLevels.toList[k.val]? = some (fixedLevels.get k) := by
  revert k
  decide +kernel

/-- The named queries and those for arbitrary levels, in a batch or alone: at a named level the
answer in the arithmetic of `double` is at least the integer one, and at most a nanosecond above
that to the next rank. If the next rank is in the same bucket, the two part by no more than the
share of one event in it and the roundings. -/
theorem named_levels_rounded (T : Toolchain) (hR : Records T h R) (hne : R ≠ [])
    (hd : ∀ t ∈ R, t < 2 ^ b) (hsize : (R.length + 2) * 2 ^ b ≤ 2 ^ 50)
    (hn : R.length ≤ 2 ^ 31) (results : Vector UInt64 10) {elements : List (FpResult Binary64)}
    (hlevels : elements.map (·.level) = fixedLevels.toList.map .nearest) :
    ∃ values, histogramValuesAtFixedPercentiles T h results = .ok (true, values) ∧
      (histogramValuesAtPercentiles h elements).1 = true ∧
      ∀ k : Fin 10, ∃ e w, (histogramValuesAtPercentiles h elements).2[k.val]? = some e ∧
        namedQuery k T h = .ok (some (values.get k)) ∧
        histogramValueAtPercentile h (.nearest (fixedLevels.get k) : Binary64) = some e.value ∧
        valueAtTargetRank T h (.ofNat (fixedRank R.length k + 1)) = .ok (some w) ∧
        values.get k ≤ e.value ∧ e.value.toNat ≤ w.toNat + 1 ∧
        (bucketIndex T w = bucketIndex T (values.get k) →
          e.value.toNat ≤ (values.get k).toNat + widthOf (bucketIndex T w) /
            countIn bucketOf R (bucketIndex T w) + 2) := by
  have hrep := hR.represents
  have hcount : ¬ 0 = h.eventCount := hrep.eventCount_ne hne
  have hsorted : (elements.map (·.level)).Pairwise (· ≤ ·) := by
    rw [hlevels]
    decide +kernel
  have hord : Ordered (elements.map (·.level)) := hsorted.imp fun hpq hpos ↦ hpos.trans_le hpq
  obtain ⟨htrue, hvalues⟩ := percentiles_eq_answers_of_rank h hcount
    (rankDetermines_rounded hrep hne) hord
  obtain ⟨values, hbatch, hnamed, hval⟩ := fixedPercentiles_val T hrep hne results
  refine ⟨values, hbatch, htrue, fun k ↦ ?_⟩
  obtain ⟨v, hv, hle, hge⟩ := named_le_rounded hrep hne hd hsize hn k
  obtain ⟨w, hw, hwval⟩ := valueAtTargetRank_val T hrep hne (.ofNat (fixedRank R.length k + 1))
  have hentry := congrArg (·[k.val]?) hvalues
  rw [answers, runningMax_of_sorted (fun _ hx ↦ by cases hx) hsorted, hlevels] at hentry
  simp only [List.getElem?_map, getElem?_fixedLevels, Option.map_some, hv] at hentry
  obtain ⟨e, he, hvalue⟩ := Option.map_eq_some_iff.mp hentry
  obtain rfl := Option.some.inj hvalue
  have hlast := fixedRank_lt hne k
  rw [UInt64.toNat_ofNat_of_lt' (hlast.trans_lt hrep.length_lt)] at hwval
  refine ⟨e, w, he, hnamed k, hv, hw, ?_, hwval ▸ hge, fun hbucket ↦ ?_⟩
  · rwa [UInt64.le_iff_toNat_le, hval]
  · rw [bucketIndex_eq, bucketIndex_eq, hval, hwval, bucketOf_rankValue hne hlast,
      bucketOf_rankValue hne (Nat.le_of_succ_le hlast)] at hbucket
    rw [bucketIndex_eq, hwval, bucketOf_rankValue hne hlast, hbucket, hval]
    exact hge.trans (Nat.succ_le_succ (rankValue_succ_le hlast hbucket))

def namedElements : List (FpResult Binary64) := fixedLevels.toList.map fun p ↦ ⟨.nearest p, 0⟩

theorem named_levels_rounded_sample :
    ∃ values e, histogramValuesAtFixedPercentiles .gccX64 sample.histogram (.replicate 10 0) =
        .ok (true, values) ∧
      (histogramValuesAtPercentiles sample.histogram namedElements).2[4]? = some e ∧
      values.get 4 ≤ e.value := by
  have hlevels : namedElements.map (·.level) = fixedLevels.toList.map .nearest := rfl
  obtain ⟨values, hbatch, -, hnamed⟩ := named_levels_rounded .gccX64 sample_records (b := 10)
    (by decide) (by decide) (by decide) (by decide) (.replicate 10 0) hlevels
  obtain ⟨e, _, he, -, -, -, hle, -⟩ := hnamed 4
  exact ⟨values, e, hbatch, he, hle⟩

end Queries

end P99

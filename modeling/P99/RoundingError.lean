import P99.RoundedPercentiles

namespace P99

open Portable Buckets Double FloatingPoint Interpolation OrderStatistics RunningTotal

variable {L : Layout}

namespace Binary64

variable {lower width prev count : ℕ} {t δ : ℚ}

theorem round_unit_mem {x : ℚ} (hx : 0 ≤ x) (hx' : x ≤ 1) :
    0 ≤ binary64.round x ∧ binary64.round x ≤ 1 ∧ |binary64.round x - x| ≤ 1 / 2 ^ 53 := by
  obtain ⟨hlow, hhigh⟩ := round_mem (a := 0) (b := 1) (x := x) (by norm_num)
    (by rwa [Nat.cast_zero]) (by rwa [Nat.cast_one])
  have herror := abs_round_sub_le (abs_le.mpr ⟨by linarith, hx'⟩) le_rfl
  rw [Nat.cast_zero] at hlow
  rw [Nat.cast_one] at hhigh
  rw [one_mul] at herror
  exact ⟨hlow, hhigh, herror⟩

theorem abs_round_line_sub_le (hwidth : 1 ≤ width) (hupper : lower + width ≤ 2 ^ 53) {f y : ℚ}
    (hf : 0 ≤ f) (hf' : f ≤ 1) (hδ : |f - y| ≤ δ) :
    |binary64.round (lower + binary64.round (width * f)) - (lower + width * y)| ≤
      (lower + width : ℕ) * (δ + 2 / 2 ^ 53) := by
  have hwidth' : (1 : ℚ) ≤ width := Nat.one_le_cast.mpr hwidth
  have hlower : (0 : ℚ) ≤ lower := Nat.cast_nonneg lower
  have hproduct : 0 ≤ width * f := mul_nonneg (by linarith) hf
  have hproduct' : width * f ≤ width := mul_le_of_le_one_right (by linarith) hf'
  have herror := abs_round_sub_le (abs_le.mpr ⟨by linarith, hproduct'⟩) hwidth'
  obtain ⟨hg, hg'⟩ := round_mem (a := 0) (b := width) (x := width * f) (by omega)
    (by rwa [Nat.cast_zero]) hproduct'
  rw [Nat.cast_zero] at hg
  generalize binary64.round (width * f) = g at *
  have hsum := abs_round_sub_le (x := lower + g) (b := lower + width)
    (abs_le.mpr ⟨by linarith, by linarith⟩) (by linarith)
  have hscaled : |width * f - width * y| ≤ width * δ := by
    rw [← mul_sub, abs_mul, abs_of_pos (by linarith : (0 : ℚ) < width)]
    exact mul_le_mul_of_nonneg_left hδ (by linarith)
  have hslack : 0 ≤ lower * (δ + 1 / 2 ^ 53) :=
    mul_nonneg hlower (add_nonneg ((abs_nonneg _).trans hδ) (by norm_num))
  rw [Nat.cast_add]
  calc |binary64.round (lower + g) - (lower + width * y)|
      ≤ |binary64.round (lower + g) - (lower + g)| + |lower + g - (lower + width * y)| :=
        abs_sub_le _ _ _
    _ ≤ (lower + width) * (1 / 2 ^ 53) + (width * (1 / 2 ^ 53) + width * δ) := by
        refine add_le_add hsum ?_
        rw [add_sub_add_left_eq_sub]
        exact (abs_sub_le _ (width * f) _).trans (add_le_add herror hscaled)
    _ ≤ (lower + width) * (1 / 2 ^ 53) + (width * (1 / 2 ^ 53) + width * δ) +
          lower * (δ + 1 / 2 ^ 53) := le_add_of_nonneg_right hslack
    _ = (lower + width) * (δ + 2 / 2 ^ 53) := by ring

theorem abs_interpolation_sub_le {τ : Binary64} (hwidth : 1 ≤ width)
    (hupper : lower + width ≤ 2 ^ 53) (hcount : 0 < count) (hcount' : count ≤ 2 ^ 53)
    (hprev : prev ≤ τ.val) (hτ : τ.val < 2 ^ 53) (hτ' : τ.val ≤ prev + count)
    (hδ : |τ.val - t| ≤ δ) :
    |(interpolation lower width prev count τ).val - (lower + width * ((t - prev) / count))| ≤
      (lower + width : ℕ) * (δ + 3 / 2 ^ 53) := by
  have hpos : (1 : ℚ) ≤ count := Nat.one_le_cast.mpr hcount
  have hle : prev ≤ 2 ^ 53 := by exact_mod_cast hprev.trans hτ.le
  have hquotient : 0 ≤ (τ.val - prev) / count := div_nonneg (by linarith) (by linarith)
  have hquotient' : (τ.val - prev) / count ≤ 1 := by
    rw [div_le_one (by linarith)]
    linarith
  obtain ⟨hf, hf', herror⟩ := round_unit_mem hquotient hquotient'
  have hshift : |(τ.val - prev) / count - (t - prev) / count| ≤ δ := by
    rw [← sub_div, sub_sub_sub_cancel_right, abs_div, abs_of_pos (by linarith : (0 : ℚ) < count)]
    exact (div_le_self (abs_nonneg _) hpos).trans hδ
  have hline := abs_round_line_sub_le hwidth hupper hf hf'
    ((abs_sub_le _ _ _).trans (add_le_add herror hshift))
  rw [interpolation, Number.val_add, Number.val_mul, Number.val_div, Number.val_sub,
    val_ofInt_natCast hle, val_ofInt_natCast (by omega : width ≤ 2 ^ 53),
    val_ofInt_natCast (by omega : lower ≤ 2 ^ 53), val_ofInt_natCast hcount',
    round_sub_natCast hprev hτ]
  refine hline.trans_eq ?_
  ring

end Binary64

open Binary64

theorem ceil_eq_of_clear {x t δ : ℚ} (ht : 0 < t) (h : |x - t| ≤ δ)
    (hclear : ∀ m : ℕ, δ < |t - m|) : ⌈x⌉₊ = ⌈t⌉₊ := by
  have hone := ceil_pos_of_pos ht
  obtain ⟨hlow, hhigh⟩ := abs_le.mp h
  rw [Nat.ceil_eq_iff (Nat.one_le_iff_ne_zero.mp hone)]
  constructor
  · have hbelow : ((⌈t⌉₊ - 1 : ℕ) : ℚ) < t := Nat.lt_ceil.mp (Nat.sub_lt hone Nat.one_pos)
    have hgap := hclear (⌈t⌉₊ - 1)
    rw [abs_of_pos (sub_pos.mpr hbelow)] at hgap
    linarith
  · have habove := Nat.le_ceil t
    have hgap := hclear ⌈t⌉₊
    rw [abs_of_nonpos (sub_nonpos.mpr habove)] at hgap
    linarith

theorem one_le_widthOf (i : ℕ) : 1 ≤ widthOf i := by
  rw [widthOf]
  split
  · exact le_rfl
  · next hi => exact Nat.le_sub_one_of_lt (Nat.one_lt_two_pow hi)

theorem upper_rankBucket_le {R : List ℕ} (hne : R ≠ []) {r b : ℕ} (hr : r ≤ R.length)
    (hd : ∀ t ∈ R, t < 2 ^ b) :
    lowerOf (rankBucket R r) + widthOf (rankBucket R r) ≤ 2 ^ b := by
  rw [lowerOf_add_widthOf]
  rcases Nat.eq_zero_or_pos b with rfl | hb
  · have hzero := hd _ (orderStatistic_mem (Nat.le_max_right r 1)
      (Nat.max_le.mpr ⟨hr, List.length_pos_of_ne_nil hne⟩))
    rw [rankBucket, Nat.lt_one_iff.mp hzero]
    decide
  · exact (Nat.sub_le _ 1).trans
      (Nat.pow_le_pow_right (by decide) (rankBucket_lt_of_lt hne hr hb.ne' hd))

section Close

variable {R : List ℕ} {τ : Binary64} {t δ : ℚ} (hne : R ≠ []) (hn : R.length ≤ 2 ^ 53)
  (hd : ∀ t ∈ R, t < 2 ^ 53) (hτ : 0 ≤ τ.val) (hτn : τ.val < R.length)
  (hceil : ⌈τ.val⌉₊ = ⌈t⌉₊)

include hne hn hd hτ hτn hceil

theorem abs_roundedInterpolant_sub_le (hδ : |τ.val - t| ≤ δ) :
    |(roundedInterpolant R τ).val - interpolant R t| ≤
      (lowerOf (rankBucket R ⌈t⌉₊) + widthOf (rankBucket R ⌈t⌉₊) : ℕ) * (δ + 3 / 2 ^ 53) := by
  have hr : ⌈τ.val⌉₊ ≤ R.length := Nat.ceil_le.mpr hτn.le
  have hsmall : τ.val < 2 ^ 53 := hτn.trans_le (by exact_mod_cast hn)
  have hstart := countBelow_ceil_le hne hτ hτn.le
  have hstop := le_count_ceil hne hτn.le
  have hcount := countIn_rankBucket_pos hne hr
  have hupper := upper_rankBucket_le hne hr hd
  rw [roundedInterpolant, interpolant]
  rw [hceil] at hstart hstop hcount hupper ⊢
  exact abs_interpolation_sub_le (one_le_widthOf _) hupper hcount
    ((countIn_le_length _ _ _).trans hn) hstart hsmall hstop hδ

omit hd hceil in
theorem values_close (ht : 0 < t) (htn : t ≤ R.length)
    (h : |(roundedInterpolant R τ).val - interpolant R t| ≤ 1) :
    roundedValue R τ ≤ percentileValue R t + 1 ∧ percentileValue R t ≤ roundedValue R τ + 1 := by
  have hexact := (Nat.cast_nonneg _).trans (interpolant_mem hne ht htn).1
  have hrounded := (Nat.cast_nonneg _).trans (roundedInterpolant_mem hne hn hτ hτn.le).1
  obtain ⟨hlow, hhigh⟩ := abs_le.mp h
  have hup := roundHalfAway_le_add_one hexact (x := (roundedInterpolant R τ).val) (by linarith)
  have hdown := roundHalfAway_le_add_one hrounded (x := interpolant R t) (by linarith)
  constructor
  · exact clamp_le_add_one (by omega)
  · exact clamp_le_add_one (by omega)

end Close

theorem error_le_one {n b upper : ℕ} (hupper : upper ≤ 2 ^ b) (hsize : (n + 2) * 2 ^ b ≤ 2 ^ 52) :
    (upper : ℚ) * (n / 2 ^ 52 + 3 / 2 ^ 53) ≤ 1 := by
  have hle : upper * (2 * n + 3) ≤ 2 ^ 53 := by nlinarith
  have hcast : (upper : ℚ) * (2 * n + 3) ≤ 2 ^ 53 := by exact_mod_cast hle
  calc (upper : ℚ) * (n / 2 ^ 52 + 3 / 2 ^ 53) = upper * (2 * n + 3) / 2 ^ 53 := by ring
    _ ≤ 1 := (div_le_one (by norm_num)).mpr hcast

section Queries

variable {h : Histogram L} {R : List ℕ}

/-- Unless the exact rank is within its error of a whole number, the answer in the arithmetic of
`double` is within a nanosecond of the exact one. -/
theorem rounded_percentile_close (T : Toolchain) (hR : Records T h R) (hne : R ≠ []) {b : ℕ}
    (hd : ∀ t ∈ R, t < 2 ^ b) (hsize : (R.length + 2) * 2 ^ b ≤ 2 ^ 52) {p : Binary64}
    (hclear : 0 < p.val → p.val < 100 → ∀ m : ℕ,
      R.length / 2 ^ 52 < |R.length * (p.val / 100) - m|) :
    ∃ v w, histogramValueAtPercentile h p = some v ∧
      histogramValueAtPercentile h p.val = some w ∧
      v.toNat ≤ w.toNat + 1 ∧ w.toNat ≤ v.toNat + 1 := by
  have hrep := hR.represents
  have hcount : ¬ 0 = h.eventCount := hrep.eventCount_ne hne
  have hpow : 1 ≤ 2 ^ b := Nat.one_le_two_pow
  have hn : R.length ≤ 2 ^ 53 := by nlinarith
  have hd' : ∀ t ∈ R, t < 2 ^ 53 := fun t ht ↦ (hd t ht).trans_le (by nlinarith)
  have hd'' : ∀ t ∈ R, t < 2 ^ 62 := fun t ht ↦ (hd' t ht).trans (by decide)
  rcases le_or_gt p.val 0 with hp | hp
  · exact ⟨_, _, rounded_low hrep hne hp, valueAtPercentile_low hcount hp, Nat.le_succ _,
      Nat.le_succ _⟩
  · rcases le_or_gt 100 p.val with hp' | hp'
    · exact ⟨_, _, rounded_high hrep hne hp', valueAtPercentile_high hcount hp', Nat.le_succ _,
        Nat.le_succ _⟩
    · obtain ⟨w, hw, hval⟩ := valueAtPercentile_val hrep hne hp hp'
      obtain ⟨ht, htn⟩ := levelRank_mem hne hp hp'
      have herror := abs_roundedRank_sub_le hrep hne hn hp hp'
      have hceil := ceil_eq_of_clear ht herror (hclear hp hp')
      have hτ := roundedRank_nonneg h hp.le
      have hτn := roundedRank_lt hrep hne hn hp'
      have hinterpolants := abs_roundedInterpolant_sub_le hne hn hd' hτ hτn hceil herror
      have hupper := upper_rankBucket_le hne (Nat.ceil_le.mpr htn.le) hd
      have hclose := values_close hne hn hτ hτn ht htn.le
        (hinterpolants.trans (error_le_one hupper hsize))
      refine ⟨_, w, valueAtPercentile_rounded hrep hne hn hd'' hp hp', hw, ?_⟩
      rw [hval, UInt64.toNat_ofNat_of_lt' (roundedValue_lt hrep hne _)]
      exact hclose

theorem rounded_percentile_close_sample :
    ∃ v w, histogramValueAtPercentile sample.histogram (ofInt 50 : Binary64) = some v ∧
      histogramValueAtPercentile sample.histogram (ofInt 50 : Binary64).val = some w ∧
      v.toNat ≤ w.toNat + 1 ∧ w.toNat ≤ v.toNat + 1 := by
  refine rounded_percentile_close .gccX64 sample_records (b := 10) (by decide) (by decide)
    (by decide) fun _ _ m ↦ ?_
  have hlength : sample.recorded.length = 3 := by decide
  rw [val_ofInt_of_le (by decide), hlength]
  rcases Nat.lt_or_ge m 2 with hm | hm
  · have hcast : (m : ℚ) ≤ 1 := by exact_mod_cast Nat.lt_succ_iff.mp hm
    rw [lt_abs]
    left
    norm_num
    linarith
  · have hcast : (2 : ℚ) ≤ m := by exact_mod_cast hm
    rw [lt_abs]
    right
    norm_num
    linarith

end Queries

end P99

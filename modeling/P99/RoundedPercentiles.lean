import P99.Binary64
import P99.PercentileOrder

namespace P99

open Portable Buckets Double FloatingPoint Interpolation OrderStatistics RunningTotal

variable {L : Layout}

namespace Binary64

theorem val_ofInt_natCast {n : ℕ} (hn : n ≤ 2 ^ 53) : (ofInt n : Binary64).val = n :=
  Format.round_natCast hn (by decide)

theorem ofInt_natCast_nonneg (n : ℕ) : 0 ≤ (ofInt n : Binary64).val :=
  Format.round_nonneg (Nat.cast_nonneg n)

theorem round_mem {a b : ℕ} {x : ℚ} (hb : b ≤ 2 ^ 53) (hax : a ≤ x) (hxb : x ≤ b) :
    a ≤ binary64.round x ∧ binary64.round x ≤ b := by
  have ha : a ≤ 2 ^ 53 := (Nat.cast_le.mp (hax.trans hxb)).trans hb
  rw [← val_ofInt_natCast ha, ← val_ofInt_natCast hb] at *
  exact ⟨Number.val_le_round hax, Number.round_le_val hxb⟩

theorem round_sub_natCast {prev : ℕ} {τ : Binary64} (hprev : prev ≤ τ.val)
    (hτ : τ.val < 2 ^ 53) :
    binary64.round (τ.val - prev) = τ.val - prev := by
  have hplace : binary64.lastPlace τ.val ≤ 0 := by
    rcases eq_or_ne τ.val 0 with hzero | hne
    · rw [Format.lastPlace, hzero, abs_zero, Int.log_zero_right]
      decide
    · refine Format.lastPlace_le (k := 53) hne ?_ (by decide)
      rw [abs_of_nonneg ((Nat.cast_nonneg prev).trans hprev)]
      exact_mod_cast hτ
  obtain ⟨s, hs⟩ := Format.two_zpow_eq_mul_ulp hplace
  have hmultiple : (prev : ℚ) = (prev * 2 ^ s : ℤ) * binary64.ulp τ.val := by
    rw [Int.cast_mul, mul_assoc, ← hs, zpow_zero, mul_one, Int.cast_natCast]
  rw [hmultiple] at hprev ⊢
  exact Format.round_sub_eq_self τ.round_val (by positivity) hprev

/-- The interpolation of the queries, in the arithmetic of `double`. -/
def interpolation (lower width prev count : ℕ) (τ : Binary64) : Binary64 :=
  ofInt lower + ofInt width * ((τ - ofInt prev) / ofInt count)

section Interpolation

variable {lower width prev count : ℕ} {τ τ' : Binary64}

theorem interpolation_mono (h : τ ≤ τ') :
    interpolation lower width prev count τ ≤ interpolation lower width prev count τ' := by
  have hwidth := ofInt_natCast_nonneg width
  have hcount := ofInt_natCast_nonneg count
  apply Format.round_mono
  apply add_le_add_right
  apply Format.round_mono
  refine mul_le_mul_of_nonneg_left ?_ hwidth
  apply Format.round_mono
  refine div_le_div_of_nonneg_right ?_ hcount
  apply Format.round_mono
  exact sub_le_sub_right (Number.le_iff.mp h) _

theorem interpolation_mem (htotal : prev + count ≤ 2 ^ 53) (hcount : 0 < count)
    (hprev : prev ≤ τ.val) (hτ : τ.val ≤ prev + count) :
    (ofInt lower : Binary64).val ≤ (interpolation lower width prev count τ).val ∧
      (interpolation lower width prev count τ).val ≤
        binary64.round ((ofInt lower : Binary64).val + (ofInt width : Binary64).val) := by
  have hcount' : (0 : ℚ) < count := Nat.cast_pos.mpr hcount
  have hwidth := ofInt_natCast_nonneg width
  obtain ⟨hoffset, hoffset'⟩ := round_mem (a := 0) (b := count) (x := τ.val - prev) (by omega)
    (by simpa using hprev) (by linarith)
  rw [Nat.cast_zero] at hoffset
  obtain ⟨hfraction, hfraction'⟩ := round_mem (a := 0) (b := 1)
    (x := binary64.round (τ.val - prev) / count) (by norm_num)
    (by rw [Nat.cast_zero]; positivity)
    (by rw [Nat.cast_one]; exact (div_le_one hcount').mpr hoffset')
  rw [Nat.cast_zero] at hfraction
  rw [Nat.cast_one] at hfraction'
  have hproduct := Format.round_nonneg (F := binary64) (mul_nonneg hwidth hfraction)
  have hproduct' := Number.round_le_val (mul_le_of_le_one_right hwidth hfraction')
  rw [interpolation, Number.val_add, Number.val_mul, Number.val_div, Number.val_sub,
    val_ofInt_natCast (n := prev) (by omega), val_ofInt_natCast (n := count) (by omega)]
  exact ⟨Number.val_le_round (by linarith), Format.round_mono (by linarith)⟩

theorem round_two_pow (i : ℕ) : binary64.round (2 ^ i) = 2 ^ i := by
  rw [← zpow_natCast]
  exact Format.round_two_zpow (by
    have hi := Int.natCast_nonneg i
    have hmin : binary64.minExponent = -1074 := rfl
    omega)

theorem round_lowerOf (i : ℕ) : binary64.round (lowerOf i) = lowerOf i := by
  rw [lowerOf]
  split
  · exact Format.round_zero
  · rw [Nat.cast_pow, Nat.cast_ofNat]
    exact round_two_pow i

/-- In wide buckets the end of the range is rounded up to the start of the next one. -/
theorem interpolation_mem_bucket (i : ℕ) (htotal : prev + count ≤ 2 ^ 53) (hcount : 0 < count)
    (hprev : prev ≤ τ.val) (hτ : τ.val ≤ prev + count) :
    lowerOf i ≤ (interpolation (lowerOf i) (widthOf i) prev count τ).val ∧
      (interpolation (lowerOf i) (widthOf i) prev count τ).val ≤ (2 ^ (i + 1) : ℕ) ∧
      (i < 53 → (interpolation (lowerOf i) (widthOf i) prev count τ).val ≤
        (lowerOf i + widthOf i : ℕ)) := by
  have hlow : _ ≤ (interpolation (lowerOf i) (widthOf i) prev count τ).val :=
    (interpolation_mem htotal hcount hprev hτ).1
  have hhigh : (interpolation (lowerOf i) (widthOf i) prev count τ).val ≤ _ :=
    (interpolation_mem htotal hcount hprev hτ).2
  have hlower : (ofInt (lowerOf i) : Binary64).val = lowerOf i := round_lowerOf i
  have hends := lowerOf_add_widthOf i
  rw [hlower] at hlow hhigh
  refine ⟨hlow, hhigh.trans ?_, fun hi ↦ hhigh.trans ?_⟩
  · have hstart : (lowerOf i : ℚ) ≤ 2 ^ i := by
      rw [lowerOf]
      split
      · exact Nat.cast_zero.trans_le (by positivity)
      · exact (Nat.cast_pow 2 i).le
    have hwidth : (ofInt (widthOf i) : Binary64).val ≤ 2 ^ i := by
      rw [← round_two_pow]
      refine Format.round_mono ?_
      rw [widthOf]
      split
      · next hi => simp [hi]
      · exact_mod_cast Nat.sub_le (2 ^ i) 1
    rw [Nat.cast_pow, Nat.cast_ofNat, ← round_two_pow]
    refine Format.round_mono ?_
    rw [pow_succ]
    linarith
  · have hupper : lowerOf i + widthOf i ≤ 2 ^ 53 := by
      rw [hends]
      exact (Nat.sub_le _ 1).trans (Nat.pow_le_pow_right (by decide) hi)
    rw [val_ofInt_natCast (n := widthOf i) (by omega), ← Nat.cast_add]
    exact (val_ofInt_natCast hupper).le

end Interpolation

end Binary64

open Binary64

def roundedInterpolant (R : List ℕ) (τ : Binary64) : Binary64 :=
  interpolation (lowerOf (rankBucket R ⌈τ.val⌉₊)) (widthOf (rankBucket R ⌈τ.val⌉₊))
    (countBelow bucketOf R (rankBucket R ⌈τ.val⌉₊)) (countIn bucketOf R (rankBucket R ⌈τ.val⌉₊)) τ

def roundedValue (R : List ℕ) (τ : Binary64) : ℕ :=
  clamp (orderStatistic R 1) (orderStatistic R R.length)
    (roundHalfAway (roundedInterpolant R τ).val).toNat

theorem abs_ceil_sub_lt {x y δ : ℚ} (hx : 0 ≤ x) (hy : 0 < y) (h : |x - y| ≤ δ) :
    |((max ⌈x⌉₊ 1 : ℕ) : ℚ) - y| < 1 + δ := by
  have hδ : 0 ≤ δ := (abs_nonneg _).trans h
  have hceil := Nat.ceil_lt_add_one hx
  have hceil' := Nat.le_ceil x
  rw [abs_le] at h
  rw [abs_lt, Nat.cast_max, Nat.cast_one]
  constructor
  · have hmax := le_max_left (⌈x⌉₊ : ℚ) 1
    linarith
  · have hmax : max (⌈x⌉₊ : ℚ) 1 < y + (1 + δ) := max_lt (by linarith) (by linarith)
    linarith

theorem rankBucket_lt_of_lt {R : List ℕ} (hne : R ≠ []) {r b : ℕ} (hr : r ≤ R.length) (hb : b ≠ 0)
    (hd : ∀ t ∈ R, t < 2 ^ b) : rankBucket R r < b :=
  Nat.log_lt_of_lt_pow' hb (hd _ (orderStatistic_mem (Nat.le_max_right r 1)
    (Nat.max_le.mpr ⟨hr, List.length_pos_of_ne_nil hne⟩)))

theorem two_pow_le_lowerOf {i j : ℕ} (hij : i < j) : 2 ^ (i + 1) ≤ lowerOf j := by
  rw [lowerOf, if_neg (Nat.ne_zero_of_lt hij)]
  exact Nat.pow_le_pow_right (by decide) hij

section Model

variable {R : List ℕ} {τ τ' : Binary64}

theorem countBelow_ceil_le (hne : R ≠ []) {t : ℚ} (ht : 0 ≤ t) (htn : t ≤ R.length) :
    (countBelow bucketOf R (rankBucket R ⌈t⌉₊) : ℚ) ≤ t := by
  have hbelow := countBelow_rankBucket_lt hne (Nat.ceil_le.mpr htn)
  rcases ht.eq_or_lt with hzero | hpos
  · rw [← hzero, Nat.ceil_zero] at hbelow ⊢
    have hnone : countBelow bucketOf R (rankBucket R 0) = 0 := Nat.lt_one_iff.mp hbelow
    rw [hnone, Nat.cast_zero]
  · rw [max_eq_left (ceil_pos_of_pos hpos)] at hbelow
    exact (Nat.lt_ceil.mp hbelow).le

theorem le_count_ceil (hne : R ≠ []) {t : ℚ} (htn : t ≤ R.length) :
    t ≤ countBelow bucketOf R (rankBucket R ⌈t⌉₊) + countIn bucketOf R (rankBucket R ⌈t⌉₊) := by
  have hreach := (Nat.le_max_left _ _).trans (le_count_rankBucket hne (Nat.ceil_le.mpr htn))
  exact_mod_cast (Nat.le_ceil t).trans (Nat.cast_le.mpr hreach)

variable (hne : R ≠ []) (hn : R.length ≤ 2 ^ 53)

include hne hn

theorem roundedInterpolant_mem (hτ : 0 ≤ τ.val) (hτn : τ.val ≤ R.length) :
    lowerOf (rankBucket R ⌈τ.val⌉₊) ≤ (roundedInterpolant R τ).val ∧
      (roundedInterpolant R τ).val ≤ (2 ^ (rankBucket R ⌈τ.val⌉₊ + 1) : ℕ) ∧
      (rankBucket R ⌈τ.val⌉₊ < 53 → (roundedInterpolant R τ).val ≤
        (lowerOf (rankBucket R ⌈τ.val⌉₊) + widthOf (rankBucket R ⌈τ.val⌉₊) : ℕ)) := by
  have htotal : countBelow bucketOf R (rankBucket R ⌈τ.val⌉₊) +
      countIn bucketOf R (rankBucket R ⌈τ.val⌉₊) ≤ R.length := by
    rw [← countBelow_succ]
    exact countBelow_le_length bucketOf R _
  exact interpolation_mem_bucket _ (htotal.trans hn)
    (countIn_rankBucket_pos hne (Nat.ceil_le.mpr hτn)) (countBelow_ceil_le hne hτ hτn)
    (le_count_ceil hne hτn)

/-- From `2 ^ 53` on a value may be rounded out of its bucket, but only onto the first value of the
next one. -/
theorem roundedValue_mem (hτ : 0 ≤ τ.val) (hτn : τ.val ≤ R.length) :
    clamp (orderStatistic R 1) (orderStatistic R R.length) (lowerOf (rankBucket R ⌈τ.val⌉₊)) ≤
        roundedValue R τ ∧
      roundedValue R τ ≤ clamp (orderStatistic R 1) (orderStatistic R R.length)
        (2 ^ (rankBucket R ⌈τ.val⌉₊ + 1)) ∧
      (bucketOf (roundedValue R τ) = rankBucket R ⌈τ.val⌉₊ ∨
        53 ≤ rankBucket R ⌈τ.val⌉₊ ∧ roundedValue R τ = 2 ^ (rankBucket R ⌈τ.val⌉₊ + 1)) := by
  obtain ⟨hl, hu, hsmall⟩ := roundedInterpolant_mem hne hn hτ hτn
  obtain ⟨v, hv, hlower, hupper⟩ := exists_roundHalfAway hl hu
  have hmem := orderStatistic_mem (Nat.le_max_right ⌈τ.val⌉₊ 1)
    (Nat.max_le.mpr ⟨Nat.ceil_le.mpr hτn, List.length_pos_of_ne_nil hne⟩)
  have hfirst := orderStatistic_one_le hmem
  have hlast := le_orderStatistic_length hmem
  have hstart := lowerOf_bucketOf_le (orderStatistic R (max ⌈τ.val⌉₊ 1))
  have hend := le_upperOf_bucketOf (orderStatistic R (max ⌈τ.val⌉₊ 1))
  have hbucket : bucketOf (orderStatistic R (max ⌈τ.val⌉₊ 1)) = rankBucket R ⌈τ.val⌉₊ := rfl
  have hwide := lowerOf_add_widthOf (rankBucket R ⌈τ.val⌉₊)
  have hpow := Nat.two_pow_pos (rankBucket R ⌈τ.val⌉₊ + 1)
  rw [hbucket] at hstart hend
  rw [roundedValue, hv, Int.toNat_natCast]
  refine ⟨clamp_mono le_rfl le_rfl hlower, clamp_mono le_rfl le_rfl hupper, ?_⟩
  rcases Nat.lt_or_ge v (2 ^ (rankBucket R ⌈τ.val⌉₊ + 1)) with hin | hout
  · exact .inl (bucketOf_clamp ⟨_, hmem, rfl⟩ hlower (by omega))
  · obtain rfl := hupper.antisymm hout
    rw [clamp, max_eq_right (by omega)]
    rcases Nat.lt_or_ge (orderStatistic R R.length) (2 ^ (rankBucket R ⌈τ.val⌉₊ + 1))
      with hcut | hfar
    · rw [min_eq_left hcut.le]
      exact .inl (bucketOf_eq_of_mem (hstart.trans hlast) (by omega))
    · refine .inr ⟨?_, min_eq_right hfar⟩
      by_contra hi
      have hle := roundHalfAway_le ((Nat.cast_nonneg _).trans hl) (hsmall (not_le.mp hi))
      rw [hv] at hle
      omega

theorem roundedValue_mono (hτ : 0 ≤ τ.val) (h : τ ≤ τ') (hτn : τ'.val ≤ R.length) :
    roundedValue R τ ≤ roundedValue R τ' := by
  have hval : τ.val ≤ τ'.val := h
  have hbuckets := rankBucket_mono (Nat.ceil_mono hval) hne (Nat.ceil_le.mpr hτn)
  rcases hbuckets.lt_or_eq with hlt | heq
  · exact ((roundedValue_mem hne hn hτ (hval.trans hτn)).2.1.trans (clamp_mono le_rfl le_rfl
      (two_pow_le_lowerOf hlt))).trans (roundedValue_mem hne hn (hτ.trans hval) hτn).1
  · have hinterpolants : roundedInterpolant R τ ≤ roundedInterpolant R τ' := by
      rw [roundedInterpolant, roundedInterpolant, heq]
      exact interpolation_mono h
    exact clamp_mono le_rfl le_rfl (Int.toNat_le_toNat (roundHalfAway_mono hinterpolants))

end Model

section Rank

variable {h : Histogram L} {R : List ℕ} {p : Binary64}

def roundedRank (h : Histogram L) (p : Binary64) : Binary64 := ofU64 h.eventCount * (p / ofInt 100)

theorem clampedRank_between (h : Histogram L) (hp : ofInt 0 < p) (hp' : p < ofInt 100) :
    clampedRank h p = roundedRank h p := by
  rw [clampedRank, clampPercentile, if_neg (not_lt.mpr hp.le), if_neg (not_lt.mpr hp'.le),
    batchTargetRank, if_neg (not_le.mpr hp'), roundedRank]

theorem roundedRank_mono (h : Histogram L) {q : Binary64} (hpq : p ≤ q) :
    roundedRank h p ≤ roundedRank h q := MonotoneDouble.rank_mono _ _ _ hpq

theorem roundedRank_nonneg (h : Histogram L) (hp : 0 ≤ p.val) : 0 ≤ (roundedRank h p).val := by
  apply Format.round_nonneg
  refine mul_nonneg (ofU64_nonneg _) (Format.round_nonneg ?_)
  rw [val_hundred]
  exact div_nonneg hp (by norm_num)

theorem val_eventCount (hR : Represents h R) (hn : R.length ≤ 2 ^ 53) :
    (ofU64 h.eventCount : Binary64).val = R.length := by
  rw [val_ofU64_of_le (hR.count ▸ hn), hR.count]

theorem roundedRank_lt (hR : Represents h R) (hne : R ≠ []) (hn : R.length ≤ 2 ^ 53)
    (hp : p.val < 100) : (roundedRank h p).val < R.length := by
  have hcount : ¬ 0 = h.eventCount := hR.eventCount_ne hne
  have hlevel : p < ofInt 100 := by rwa [Number.lt_iff, val_hundred]
  rw [← val_eventCount hR hn]
  exact MonotoneDouble.rank_lt _ p (eventCount_pos h hcount) hlevel

theorem abs_roundedRank_sub_le (hR : Represents h R) (hne : R ≠ []) (hn : R.length ≤ 2 ^ 53)
    (hp : 0 < p.val) (hp' : p.val < 100) :
    |(roundedRank h p).val - R.length * (p.val / 100)| ≤ R.length / 2 ^ 52 := by
  have hlength : (1 : ℚ) ≤ R.length := by exact_mod_cast List.length_pos_of_ne_nil hne
  have hfraction : |(p / ofInt 100).val - p.val / 100| ≤ 1 / 2 ^ 53 := by
    rw [Number.val_div, val_hundred, ← one_mul (1 / 2 ^ 53 : ℚ)]
    refine abs_round_sub_le ?_ le_rfl
    rw [abs_of_nonneg (by positivity), div_le_one (by norm_num)]
    exact hp'.le
  obtain ⟨h₀, h₁⟩ := LawfulDouble.fraction p (by rwa [Number.lt_iff, val_zero])
    (by rwa [Number.lt_iff, val_hundred])
  rw [Number.le_iff, val_zero] at h₀
  rw [Number.le_iff, val_one] at h₁
  have hproduct : |(roundedRank h p).val - R.length * (p / ofInt 100).val| ≤
      R.length * (1 / 2 ^ 53) := by
    rw [roundedRank, Number.val_mul, val_eventCount hR hn]
    refine abs_round_sub_le ?_ hlength
    rw [abs_of_nonneg (by positivity)]
    exact mul_le_of_le_one_right (by positivity) h₁
  have hscaled : |R.length * (p / ofInt 100).val - R.length * (p.val / 100)| ≤
      R.length * (1 / 2 ^ 53) := by
    rw [← mul_sub, abs_mul, abs_of_nonneg (by positivity)]
    exact mul_le_mul_of_nonneg_left hfraction (by positivity)
  calc |(roundedRank h p).val - R.length * (p.val / 100)| ≤ _ := abs_sub_le _ _ _
    _ ≤ R.length * (1 / 2 ^ 53) + R.length * (1 / 2 ^ 53) := add_le_add hproduct hscaled
    _ = R.length / 2 ^ 52 := by ring

/-- At 7 percent of 100 events the computed rank is above 7. -/
example : ⌈((.nearest 100 : Binary64) * (.nearest 7 / .nearest 100)).val⌉₊ = 8 := by
  decide +kernel

end Rank

section Refinement

variable {h : Histogram L} {R : List ℕ} {p q : Binary64}

theorem roundedValue_lt (hR : Represents h R) (hne : R ≠ []) (τ : Binary64) :
    roundedValue R τ < 2 ^ 64 :=
  clamp_le.trans_lt (hR.orderStatistic_lt (List.length_pos_of_ne_nil hne) le_rfl)

theorem interpolateAtPercentile_rounded (hR : Represents h R) {τ : Binary64}
    (hi : rankBucket R ⌈τ.val⌉₊ < bucketCount) :
    interpolateAtPercentile (rankBucket R ⌈τ.val⌉₊) (bucketAt h ⟨rankBucket R ⌈τ.val⌉₊, hi⟩)
      (.ofNat (countBelow bucketOf R (rankBucket R ⌈τ.val⌉₊))) τ = roundedInterpolant R τ := by
  rw [interpolateAtPercentile_bounds hi, ofU64, ofU64, hR.bucket, hR.toNat_total]
  rfl

theorem le_ofU64_iff (hn : R.length ≤ 2 ^ 53) {τ : Binary64} (hτn : τ.val ≤ R.length)
    (acc : UInt64) : τ ≤ ofU64 acc ↔ ⌈τ.val⌉₊ ≤ acc.toNat := by
  rw [Nat.ceil_le, Number.le_iff]
  rcases le_or_gt acc.toNat (2 ^ 53) with hacc | hacc
  · rw [val_ofU64_of_le hacc]
  · have hreach : (R.length : ℚ) ≤ acc.toNat := by exact_mod_cast hn.trans hacc.le
    have hcast : ((2 ^ 53 : ℕ) : ℚ) ≤ (ofU64 acc : Binary64).val := by
      rw [← val_ofInt_natCast le_rfl]
      exact Format.round_mono (Nat.cast_le.mpr hacc.le)
    have hlength : (R.length : ℚ) ≤ (2 ^ 53 : ℕ) := Nat.cast_le.mpr hn
    exact ⟨fun _ ↦ hτn.trans hreach, fun _ ↦ hτn.trans (hlength.trans hcast)⟩

/-- Of up to `2 ^ 53` durations below `2 ^ 62`, which keeps `llround` in its range, the query
refines the model. -/
theorem valueAtPercentile_rounded (hR : Represents h R) (hne : R ≠ []) (hn : R.length ≤ 2 ^ 53)
    (hd : ∀ t ∈ R, t < 2 ^ 62) (hp : 0 < p.val) (hp' : p.val < 100) :
    histogramValueAtPercentile h p = some (.ofNat (roundedValue R (roundedRank h p))) := by
  have hcount : ¬ 0 = h.eventCount := hR.eventCount_ne hne
  have hτ := roundedRank_nonneg h hp.le
  have hτn := (roundedRank_lt hR hne hn hp').le
  have hlow : ofInt 0 < p := by rwa [Number.lt_iff, val_zero]
  have hhigh : p < ofInt 100 := by rwa [Number.lt_iff, val_hundred]
  rw [percentile_between h hcount hlow hhigh, clampedRank_between h hlow hhigh,
    valueAtPercentileLoop_eq]
  generalize roundedRank h p = τ at *
  rw [firstHit_of_rank hR hne (Nat.ceil_le.mpr hτn) (le_ofU64_iff hn hτn)]
  obtain ⟨hl, hu, -⟩ := roundedInterpolant_mem hne hn hτ hτn
  obtain ⟨v, hv, -, hupper⟩ := exists_roundHalfAway hl hu
  have hbucket := rankBucket_lt_of_lt hne (Nat.ceil_le.mpr hτn) (by decide) hd
  have hfit : v < 2 ^ 64 := hupper.trans_lt
    ((Nat.pow_le_pow_right (by decide) hbucket).trans_lt (by decide))
  refine congrArg some (UInt64.toNat_inj.mp ?_)
  rw [valueAtPercentileInBucket]
  dsimp only
  rw [interpolateAtPercentile_rounded hR, toNat_clampToExtrema, hR.min_eq hne, hR.max_eq hne,
    UInt64.toNat_ofNat_of_lt' (roundedValue_lt hR hne τ), roundedValue, hv, Int.toNat_natCast]
  change clamp _ _ (UInt64.ofInt (roundHalfAway (roundedInterpolant R τ).val)).toNat = _
  rw [hv, toNat_ofInt hfit]

theorem rounded_low (hR : Represents h R) (hne : R ≠ []) (hp : p.val ≤ 0) :
    histogramValueAtPercentile h p = some h.minEventTime := by
  have hcount : ¬ 0 = h.eventCount := hR.eventCount_ne hne
  exact percentile_low h hcount (by rwa [Number.le_iff, val_zero])

theorem rounded_high (hR : Represents h R) (hne : R ≠ []) (hp : 100 ≤ p.val) :
    histogramValueAtPercentile h p = some h.maxEventTime := by
  have hcount : ¬ 0 = h.eventCount := hR.eventCount_ne hne
  exact percentile_high h hcount (by rwa [Number.le_iff, val_hundred])

theorem rounded_mono (hR : Represents h R) (hne : R ≠ []) (hn : R.length ≤ 2 ^ 53)
    (hd : ∀ t ∈ R, t < 2 ^ 62) (hpq : p ≤ q) :
    ∃ v w, histogramValueAtPercentile h p = some v ∧ histogramValueAtPercentile h q = some w ∧
      v ≤ w := by
  obtain ⟨v, hv, hfirst, hlast⟩ := exists_percentile hR hne p
  obtain ⟨w, hw, hfirst', hlast'⟩ := exists_percentile hR hne q
  have hval : p.val ≤ q.val := hpq
  refine ⟨v, w, hv, hw, ?_⟩
  rw [UInt64.le_iff_toNat_le]
  rcases le_or_gt p.val 0 with hp | hp
  · rw [rounded_low hR hne hp, Option.some.injEq] at hv
    rwa [← hv, hR.min_eq hne]
  · rcases le_or_gt 100 q.val with hq | hq
    · rw [rounded_high hR hne hq, Option.some.injEq] at hw
      rwa [← hw, hR.max_eq hne]
    · rw [valueAtPercentile_rounded hR hne hn hd hp (hval.trans_lt hq), Option.some.injEq] at hv
      rw [valueAtPercentile_rounded hR hne hn hd (hp.trans_le hval) hq, Option.some.injEq] at hw
      rw [← hv, ← hw, UInt64.toNat_ofNat_of_lt' (roundedValue_lt hR hne _),
        UInt64.toNat_ofNat_of_lt' (roundedValue_lt hR hne _)]
      exact roundedValue_mono hne hn (roundedRank_nonneg h hp.le) (roundedRank_mono h hpq)
        (roundedRank_lt hR hne hn hq).le

/-- What the answer to a level is worth: it lies between the extremes, is exact at both ends, and
in between lies in the bucket of an event whose rank is that of the level up to the next event and
the slack. From `2 ^ 53` on it may also be the first value of the next bucket. -/
structure NearLevel (T : Toolchain) (R : List ℕ) (level slack : ℚ) (v : UInt64) : Prop where
  first_le : orderStatistic R 1 ≤ v.toNat
  le_last : v.toNat ≤ orderStatistic R R.length
  low : level ≤ 0 → v.toNat = orderStatistic R 1
  high : 100 ≤ level → v.toNat = orderStatistic R R.length
  between : 0 < level → level < 100 → ∃ r : ℕ, 1 ≤ r ∧ r ≤ R.length ∧
    |(r : ℚ) - R.length * (level / 100)| < 1 + slack ∧
    (bucketIndex T v = bucketIndex T (.ofNat (orderStatistic R r)) ∨
      2 ^ 53 ≤ orderStatistic R r ∧
        v.toNat = 2 ^ (bucketIndex T (.ofNat (orderStatistic R r)) + 1))

theorem exists_nearLevel (T : Toolchain) (hR : Represents h R) (hne : R ≠ [])
    (hn : R.length ≤ 2 ^ 53) (hd : ∀ t ∈ R, t < 2 ^ 62) (p : Binary64) :
    ∃ v, histogramValueAtPercentile h p = some v ∧
      NearLevel T R p.val (R.length / 2 ^ 52) v := by
  obtain ⟨v, hv, hfirst, hlast⟩ := exists_percentile hR hne p
  refine ⟨v, hv, hfirst, hlast, fun hp ↦ ?_, fun hp ↦ ?_, fun hp hp' ↦ ?_⟩
  · rw [rounded_low hR hne hp, Option.some.injEq] at hv
    rw [← hv, hR.min_eq hne]
  · rw [rounded_high hR hne hp, Option.some.injEq] at hv
    rw [← hv, hR.max_eq hne]
  · rw [valueAtPercentile_rounded hR hne hn hd hp hp', Option.some.injEq] at hv
    have hτ := roundedRank_nonneg h hp.le
    have hτn := (roundedRank_lt hR hne hn hp').le
    have hone := Nat.le_max_right ⌈(roundedRank h p).val⌉₊ 1
    have hlength : max ⌈(roundedRank h p).val⌉₊ 1 ≤ R.length :=
      Nat.max_le.mpr ⟨Nat.ceil_le.mpr hτn, List.length_pos_of_ne_nil hne⟩
    refine ⟨_, hone, hlength, ?_, ?_⟩
    · exact abs_ceil_sub_lt hτ (levelRank_mem hne hp hp').1
        (abs_roundedRank_sub_le hR hne hn hp hp')
    · rw [bucketIndex_eq_iff T hR hone hlength, bucketIndex_eq,
        UInt64.toNat_ofNat_of_lt' (hR.orderStatistic_lt hone hlength), ← hv,
        UInt64.toNat_ofNat_of_lt' (roundedValue_lt hR hne _)]
      refine (roundedValue_mem hne hn hτ hτn).2.2.imp_right fun ⟨hwide, hvalue⟩ ↦ ⟨?_, hvalue⟩
      exact (Nat.pow_le_pow_right (by decide) hwide).trans (Nat.pow_log_le_self 2 (fun hzero ↦ by
        rw [rankBucket, hzero] at hwide
        exact absurd hwide (by decide)))

/-- In the arithmetic of `double`, the query for a percentile is accurate to a bucket, where two
roundings part the rank from the exact one, and increases with the level. -/
theorem rounded_percentile_accuracy (T : Toolchain) (hR : Records T h R) (hne : R ≠ [])
    (hn : R.length ≤ 2 ^ 53) (hd : ∀ t ∈ R, t < 2 ^ 62) :
    (∀ p : Binary64, ∃ v, histogramValueAtPercentile h p = some v ∧
      NearLevel T R p.val (R.length / 2 ^ 52) v) ∧
    ∀ p q : Binary64, p ≤ q → ∃ v w, histogramValueAtPercentile h p = some v ∧
      histogramValueAtPercentile h q = some w ∧ v ≤ w :=
  ⟨exists_nearLevel T hR.represents hne hn hd,
    fun _ _ hpq ↦ rounded_mono hR.represents hne hn hd hpq⟩

theorem rounded_percentile_accuracy_sample :
    ∃ v, histogramValueAtPercentile sample.histogram (.nearest 50 : Binary64) = some v ∧
      NearLevel .gccX64 sample.recorded (.nearest 50 : Binary64).val
        (sample.recorded.length / 2 ^ 52) v :=
  (rounded_percentile_accuracy .gccX64 sample_records (by decide) (by decide) (by decide)).1 _

/-- Of `2 ^ 54` and `2 ^ 56` nanoseconds, the median in `double` is in the bucket of neither. -/
example :
    let h := (run .gccX64 (zeroed .standard) [.push .ns (2 ^ 54), .push .ns (2 ^ 56)]).histogram
    histogramValueAtPercentile h (50 : ℚ) = some (2 ^ 55 - 1) ∧
      histogramValueAtPercentile h (.nearest 50 : Binary64) = some (2 ^ 55) := by
  decide +kernel

end Refinement

section Batch

variable {h : Histogram L} {R : List ℕ}

theorem interpolation_zero {lower : ℕ} (hlower : binary64.round lower = lower) (width count : ℕ) :
    (interpolation lower width 0 count (ofInt 0)).val = lower := by
  have hlower' : (ofInt lower : Binary64).val = lower := hlower
  have hzero : (ofInt ((0 : ℕ) : ℤ) : Binary64).val = 0 := val_zero
  rw [interpolation, Number.val_add, Number.val_mul, Number.val_div, Number.val_sub, hzero,
    val_zero, hlower', sub_zero, Format.round_zero, zero_div, Format.round_zero, mul_zero,
    Format.round_zero, add_zero, hlower]

/-- A positive level may have rank zero, by underflow; its answer is the minimum nevertheless. -/
theorem valueAtPercentileLoop_zero (hR : Represents h R) (hne : R ≠ []) :
    valueAtPercentileLoop h (ofInt 0 : Binary64) (List.finRange bucketCount) 0 =
      some h.minEventTime := by
  have hhit : ∀ acc : UInt64, (ofInt 0 : Binary64) ≤ ofU64 acc ↔ 0 ≤ acc.toNat := fun acc ↦ by
    rw [Number.le_iff, val_zero]
    exact iff_of_true (ofU64_nonneg acc) (Nat.zero_le _)
  have hbelow : countBelow bucketOf R (rankBucket R 0) = 0 :=
    Nat.lt_one_iff.mp (countBelow_rankBucket_lt hne (Nat.zero_le _))
  have hlower : lowerOf (rankBucket R 0) ≤ orderStatistic R 1 := lowerOf_bucketOf_le _
  have hfit : lowerOf (rankBucket R 0) < 2 ^ 64 :=
    hlower.trans_lt (hR.orderStatistic_lt le_rfl (List.length_pos_of_ne_nil hne))
  rw [valueAtPercentileLoop_eq, firstHit_of_rank hR hne (Nat.zero_le _) hhit]
  refine congrArg some (UInt64.toNat_inj.mp ?_)
  rw [valueAtPercentileInBucket]
  dsimp only
  rw [interpolateAtPercentile_bounds (hR.rankBucket_lt hne (Nat.zero_le _)), ofU64, ofU64,
    hR.bucket, hR.toNat_total, hbelow, toNat_clampToExtrema]
  change clamp _ _ (UInt64.ofInt (roundHalfAway (interpolation _ _ 0 _ (ofInt 0)).val)).toNat = _
  obtain ⟨v, hv, hvl, hvu⟩ := exists_roundHalfAway (K := ℚ) le_rfl
    (le_refl ((lowerOf (rankBucket R 0) : ℕ) : ℚ))
  obtain rfl := hvu.antisymm hvl
  rw [interpolation_zero (round_lowerOf _), hv, toNat_ofInt hfit, hR.min_eq hne, hR.max_eq hne]
  exact clamp_of_le hlower (first_le_last hne)

theorem rankDetermines_rounded (hR : Represents h R) (hne : R ≠ []) :
    RankDetermines h Binary64 := by
  have hcount : ¬ 0 = h.eventCount := hR.eventCount_ne hne
  have hascending : ∀ p q : Binary64, p ≤ q → clampedRank h p = clampedRank h q →
      histogramValueAtPercentile h p = histogramValueAtPercentile h q := by
    intro p q hpq hrank
    rcases le_or_gt q (ofInt 0) with hq | hq
    · rw [percentile_low h hcount hq, percentile_low h hcount (hpq.trans hq)]
    · rcases le_or_gt (ofInt 100) q with hq' | hq'
      · have hp : ofInt 100 ≤ p := by
          by_contra hlt
          rw [clampedRank_of_hundred_le h hq'] at hrank
          exact (clampedRank_lt h hcount (not_le.mp hlt)).ne hrank
        rw [percentile_high h hcount hp, percentile_high h hcount hq']
      · rw [percentile_between h hcount hq hq', ← hrank]
        rcases le_or_gt p (ofInt 0) with hp | hp
        · have hclamp : clampPercentile p ≤ ofInt 0 :=
            not_lt.mp fun hlt ↦ not_lt.mpr hp (clampPercentile_pos_iff.mp hlt)
          rw [percentile_low h hcount hp, clampedRank_of_nonpos h hclamp,
            valueAtPercentileLoop_zero hR hne]
        · rw [percentile_between h hcount hp (hpq.trans_lt hq')]
  intro p q hrank
  rcases le_total p q with hpq | hqp
  · exact hascending p q hpq hrank
  · exact (hascending q p hqp hrank.symm).symm

/-- In the arithmetic of `double`, a batch in whatever order has values in ascending order, and
each is accurate to a bucket for the largest level so far. -/
theorem rounded_batch_accuracy (T : Toolchain) (hR : Records T h R) (hne : R ≠ [])
    (hn : R.length ≤ 2 ^ 53) (hd : ∀ t ∈ R, t < 2 ^ 62) {elements : List (FpResult Binary64)}
    (hord : Ordered (elements.map (·.level))) :
    let out := (histogramValuesAtPercentiles h elements).2
    (out.Pairwise fun e e' ↦ e.value ≤ e'.value) ∧
    ∀ k p, k < elements.length → IsGreatest {q | q ∈ (elements.map (·.level)).take (k + 1)} p →
      ∃ e, out[k]? = some e ∧ NearLevel T R p.val (R.length / 2 ^ 52) e.value := by
  have hrep := hR.represents
  have hcount : ¬ 0 = h.eventCount := hrep.eventCount_ne hne
  obtain ⟨-, hvalues⟩ := percentiles_eq_answers_of_rank h hcount
    (rankDetermines_rounded hrep hne) hord
  refine ⟨values_pairwise hvalues fun _ _ ↦ rounded_mono hrep hne hn hd, fun k p hk hp ↦ ?_⟩
  obtain ⟨e, he, hvalue⟩ := answer_of_isGreatest hvalues hk hp
  obtain ⟨v, hv, hnear⟩ := exists_nearLevel T hrep hne hn hd p
  obtain rfl := Option.some.inj (hvalue.symm.trans hv)
  exact ⟨e, he, hnear⟩

def roundedElements : List (FpResult Binary64) :=
  [⟨.nearest (-5), 0⟩, ⟨.nearest 50, 0⟩, ⟨.nearest 20, 0⟩, ⟨.nearest 120, 0⟩]

theorem rounded_batch_accuracy_sample :
    ∃ e, (histogramValuesAtPercentiles sample.histogram roundedElements).2[2]? = some e ∧
      NearLevel .gccX64 sample.recorded (.nearest 50 : Binary64).val
        (sample.recorded.length / 2 ^ 52) e.value := by
  have hord : Ordered (roundedElements.map (·.level)) := by decide +kernel
  have hsample := rounded_batch_accuracy .gccX64 sample_records (by decide) (by decide)
    (by decide) hord
  have hmem : (.nearest 50 : Binary64) ∈ (roundedElements.map (·.level)).take 3 := by
    decide +kernel
  have hmax : ∀ x ∈ (roundedElements.map (·.level)).take 3, x ≤ (.nearest 50 : Binary64) := by
    decide +kernel
  exact hsample.2 2 _ (by decide) ⟨hmem, hmax⟩

end Batch

end P99

import Mathlib.Data.Int.Log
import Mathlib.Data.Rat.Floor
import Mathlib.Algebra.Order.Field.Power
import Mathlib.Tactic.FieldSimp
import Mathlib.Tactic.Linarith
import Mathlib.Tactic.Positivity
import Mathlib.Tactic.Ring

namespace FloatingPoint

section Integer

/-- The nearest integer, with halves rounded to the even neighbour. -/
def roundHalfEven (x : ℚ) : ℤ :=
  if x - ⌊x⌋ < 1 / 2 then ⌊x⌋
  else if 1 / 2 < x - ⌊x⌋ then ⌊x⌋ + 1
  else ⌊x⌋ + ⌊x⌋ % 2

variable {x y : ℚ}

theorem roundHalfEven_intCast (m : ℤ) : roundHalfEven m = m := by
  rw [roundHalfEven, Int.floor_intCast, sub_self, if_pos (by norm_num)]

theorem floor_le_roundHalfEven (x : ℚ) : ⌊x⌋ ≤ roundHalfEven x := by
  rw [roundHalfEven]
  split_ifs <;> omega

theorem roundHalfEven_le_floor_add_one (x : ℚ) : roundHalfEven x ≤ ⌊x⌋ + 1 := by
  rw [roundHalfEven]
  split_ifs <;> omega

theorem roundHalfEven_mono (h : x ≤ y) : roundHalfEven x ≤ roundHalfEven y := by
  rcases (Int.floor_le_floor h).lt_or_eq with hlt | heq
  · calc roundHalfEven x ≤ ⌊x⌋ + 1 := roundHalfEven_le_floor_add_one x
      _ ≤ ⌊y⌋ := hlt
      _ ≤ roundHalfEven y := floor_le_roundHalfEven y
  · -- the same parity decides both ties
    rw [roundHalfEven, roundHalfEven, heq]
    have hfract : x - ⌊y⌋ ≤ y - ⌊y⌋ := sub_le_sub_right h _
    split_ifs <;> first | omega | (exfalso; linarith)

theorem abs_roundHalfEven_sub_le (x : ℚ) : |roundHalfEven x - x| ≤ 1 / 2 := by
  have hfloor := Int.floor_le x
  have hnext := Int.lt_floor_add_one x
  have hparity : ((⌊x⌋ % 2 : ℤ) : ℚ) = 0 ∨ ((⌊x⌋ % 2 : ℤ) : ℚ) = 1 := by
    rcases Int.emod_two_eq ⌊x⌋ with h | h <;> simp [h]
  rw [roundHalfEven, abs_le]
  split_ifs
  · constructor <;> linarith
  · rw [Int.cast_add, Int.cast_one]
    constructor <;> linarith
  · rw [Int.cast_add]
    rcases hparity with h | h <;> rw [h] <;> constructor <;> linarith

theorem roundHalfEven_neg (x : ℚ) : roundHalfEven (-x) = -roundHalfEven x := by
  by_cases hx : (⌊x⌋ : ℚ) = x
  · rw [← hx, ← Int.cast_neg, roundHalfEven_intCast, roundHalfEven_intCast]
  · have hlt : (⌊x⌋ : ℚ) < x := lt_of_le_of_ne (Int.floor_le x) hx
    have hnext := Int.lt_floor_add_one x
    have hfloor : ⌊-x⌋ = -⌊x⌋ - 1 := by
      rw [Int.floor_eq_iff, Int.cast_sub, Int.cast_neg, Int.cast_one]
      constructor <;> linarith
    have hfract : -x - ((-⌊x⌋ - 1 : ℤ) : ℚ) = 1 - (x - ⌊x⌋) := by
      rw [Int.cast_sub, Int.cast_neg, Int.cast_one]
      ring
    rw [roundHalfEven, roundHalfEven, hfloor, hfract]
    split_ifs <;> first | omega | (exfalso; linarith)

end Integer

/-- A binary format: so many bits of significand, and the exponent of the last place of its
subnormal numbers. Exponents have no upper bound. -/
structure Format where
  precision : ℕ
  minExponent : ℤ
  precision_pos : 0 < precision

namespace Format

variable (F : Format)

/-- The exponent of the last place of the numbers of the format next to `x`. -/
def lastPlace (x : ℚ) : ℤ := max (Int.log 2 |x| + 1 - F.precision) F.minExponent

def ulp (x : ℚ) : ℚ := 2 ^ F.lastPlace x

/-- The nearest number of the format, with ties to the even significand. -/
def round (x : ℚ) : ℚ := roundHalfEven (x / F.ulp x) * F.ulp x

theorem ulp_pos (x : ℚ) : 0 < F.ulp x := zpow_pos two_pos _

variable {F} {x y : ℚ} {k : ℤ}

theorem lastPlace_neg : F.lastPlace (-x) = F.lastPlace x := by rw [lastPlace, lastPlace, abs_neg]

theorem lastPlace_le (hx : x ≠ 0) (hk : |x| < 2 ^ k) (hmin : F.minExponent ≤ k - F.precision) :
    F.lastPlace x ≤ k - F.precision := by
  have hlog : Int.log 2 |x| < k :=
    (Int.lt_zpow_iff_log_lt one_lt_two (abs_pos.mpr hx)).mp (by exact_mod_cast hk)
  rw [lastPlace]
  omega

theorem lastPlace_eq (hlow : 2 ^ k ≤ |x|) (hhigh : |x| < 2 ^ (k + 1))
    (hmin : F.minExponent ≤ k + 1 - F.precision) : F.lastPlace x = k + 1 - F.precision := by
  have hpos : 0 < |x| := (zpow_pos two_pos k).trans_le hlow
  have hle := (Int.zpow_le_iff_le_log one_lt_two hpos).mp (by exact_mod_cast hlow)
  have hlt := (Int.lt_zpow_iff_log_lt one_lt_two hpos).mp (by exact_mod_cast hhigh)
  rw [lastPlace]
  omega

theorem lastPlace_mono (hx : 0 < x) (h : x ≤ y) : F.lastPlace x ≤ F.lastPlace y := by
  have hlog : Int.log 2 |x| ≤ Int.log 2 |y| := by
    rw [abs_of_pos hx, abs_of_pos (hx.trans_le h)]
    exact Int.log_mono_right hx h
  rw [lastPlace, lastPlace]
  omega

theorem abs_lt_two_zpow (x : ℚ) : |x| < 2 ^ (F.lastPlace x + F.precision) := by
  have hlog : |x| < 2 ^ (Int.log 2 |x| + 1) := by
    exact_mod_cast Int.lt_zpow_succ_log_self one_lt_two |x|
  refine hlog.trans_le (zpow_le_zpow_right₀ one_le_two ?_)
  rw [lastPlace]
  omega

theorem abs_div_ulp_lt (x : ℚ) : |x / F.ulp x| < (2 ^ F.precision : ℤ) := by
  rw [abs_div, abs_of_pos (F.ulp_pos x), div_lt_iff₀ (F.ulp_pos x), ulp, Int.cast_pow,
    Int.cast_ofNat, ← zpow_natCast, ← zpow_add₀ two_ne_zero, add_comm]
  exact abs_lt_two_zpow x

theorem round_zero : F.round 0 = 0 := by
  rw [round, zero_div, ← Int.cast_zero (R := ℚ), roundHalfEven_intCast, Int.cast_zero, zero_mul]

theorem round_neg (x : ℚ) : F.round (-x) = -F.round x := by
  rw [round, round, ulp, ulp, lastPlace_neg, neg_div, roundHalfEven_neg, Int.cast_neg, neg_mul]

theorem round_eq_of_lastPlace_le {m e : ℤ} (he : F.lastPlace (m * 2 ^ e) ≤ e) :
    F.round (m * 2 ^ e) = m * 2 ^ e := by
  obtain ⟨s, hs⟩ := Int.le.dest he
  have hulp : (2 : ℚ) ^ e = 2 ^ s * F.ulp (m * 2 ^ e) := by
    rw [ulp, ← zpow_natCast, ← zpow_add₀ two_ne_zero]
    congr 1
    omega
  have hquotient : m * 2 ^ e / F.ulp (m * 2 ^ e) = ((m * 2 ^ s : ℤ) : ℚ) := by
    rw [div_eq_iff (F.ulp_pos _).ne', Int.cast_mul, Int.cast_pow, Int.cast_ofNat, mul_assoc,
      ← hulp]
  rw [round, hquotient, roundHalfEven_intCast, Int.cast_mul, Int.cast_pow, Int.cast_ofNat,
    mul_assoc, ← hulp]

theorem lastPlace_mul_le {m e : ℤ} (hm : m ≠ 0) (hm' : |m| < 2 ^ F.precision)
    (he : F.minExponent ≤ e) : F.lastPlace (m * 2 ^ e) ≤ e := by
  have hlt : |(m * 2 ^ e : ℚ)| < 2 ^ (e + F.precision) := by
    rw [abs_mul, abs_of_pos (zpow_pos (two_pos (α := ℚ)) e), zpow_add₀ two_ne_zero, zpow_natCast,
      mul_comm ((2 : ℚ) ^ e)]
    have hcast : |(m : ℚ)| < 2 ^ F.precision := by exact_mod_cast hm'
    exact mul_lt_mul_of_pos_right hcast (zpow_pos two_pos e)
  have hne : (m * 2 ^ e : ℚ) ≠ 0 := mul_ne_zero (Int.cast_ne_zero.mpr hm) (zpow_pos two_pos e).ne'
  have hle := lastPlace_le (F := F) hne hlt (by omega)
  omega

theorem round_eq_self {m e : ℤ} (hm : |m| ≤ 2 ^ F.precision) (he : F.minExponent ≤ e) :
    F.round (m * 2 ^ e) = m * 2 ^ e := by
  rcases eq_or_ne m 0 with rfl | hne
  · rw [Int.cast_zero, zero_mul, round_zero]
  · rcases hm.lt_or_eq with hlt | heq
    · exact round_eq_of_lastPlace_le (lastPlace_mul_le hne hlt he)
    · -- the power of two above all significands is half of it, one place higher
      obtain ⟨p, hp⟩ := Nat.exists_eq_succ_of_ne_zero F.precision_pos.ne'
      have heven : m = m / 2 * 2 := by
        rw [hp, pow_succ] at heq
        rcases abs_eq_abs.mp (heq.trans (abs_of_pos (by positivity)).symm) with h | h <;> omega
      have hvalue : (m : ℚ) * 2 ^ e = (m / 2 : ℤ) * 2 ^ (e + 1) := by
        rw [zpow_add_one₀ two_ne_zero, mul_comm ((2 : ℚ) ^ e), ← mul_assoc]
        congr 1
        exact_mod_cast heven
      have hhalf : |m / 2| < 2 ^ F.precision := by
        rw [← heq]
        rcases abs_cases m with ⟨h, _⟩ | ⟨h, _⟩ <;> rw [h] <;>
          rcases abs_cases (m / 2) with ⟨h', _⟩ | ⟨h', _⟩ <;> rw [h'] <;> omega
      rw [hvalue]
      exact round_eq_of_lastPlace_le (lastPlace_mul_le (by omega) hhalf (by omega))

theorem round_intCast {m : ℤ} (hm : |m| ≤ 2 ^ F.precision) (hmin : F.minExponent ≤ 0) :
    F.round m = m := by
  simpa using round_eq_self hm hmin

theorem round_natCast {n : ℕ} (hn : n ≤ 2 ^ F.precision) (hmin : F.minExponent ≤ 0) :
    F.round n = n := by
  refine round_intCast (m := n) ?_ hmin
  rw [Nat.abs_cast]
  exact_mod_cast hn

theorem round_two_zpow (hk : F.minExponent ≤ k) : F.round (2 ^ k) = 2 ^ k := by
  have hone : |(1 : ℤ)| ≤ 2 ^ F.precision := by
    rw [abs_one]
    exact one_le_pow₀ one_le_two
  simpa using round_eq_self hone hk

theorem abs_significand_le (x : ℚ) : |roundHalfEven (x / F.ulp x)| ≤ 2 ^ F.precision := by
  obtain ⟨hlow, hhigh⟩ := abs_lt.mp (abs_div_ulp_lt (F := F) x)
  rw [← Int.cast_neg] at hlow
  rw [abs_le]
  constructor
  · rw [← roundHalfEven_intCast (-2 ^ F.precision)]
    exact roundHalfEven_mono hlow.le
  · rw [← roundHalfEven_intCast (2 ^ F.precision)]
    exact roundHalfEven_mono hhigh.le

theorem round_round (x : ℚ) : F.round (F.round x) = F.round x :=
  round_eq_self (abs_significand_le x) (le_max_right _ _)

theorem round_sub_eq_self {m : ℤ} (hx : F.round x = x) (hm : 0 ≤ m) (hmx : m * F.ulp x ≤ x) :
    F.round (x - m * F.ulp x) = x - m * F.ulp x := by
  have hx' : roundHalfEven (x / F.ulp x) * F.ulp x = x := hx
  have hle : m ≤ roundHalfEven (x / F.ulp x) :=
    Int.cast_le.mp (le_of_mul_le_mul_right (hmx.trans_eq hx'.symm) (F.ulp_pos x))
  have hdifference : x - m * F.ulp x =
      (roundHalfEven (x / F.ulp x) - m : ℤ) * 2 ^ F.lastPlace x := by
    rw [Int.cast_sub, sub_mul]
    exact congrArg (· - m * F.ulp x) hx'.symm
  rw [hdifference]
  refine round_eq_self ?_ (le_max_right _ _)
  rw [abs_of_nonneg (sub_nonneg.mpr hle)]
  exact (sub_le_self _ hm).trans ((le_abs_self _).trans (abs_significand_le x))

theorem round_nonneg (hx : 0 ≤ x) : 0 ≤ F.round x := by
  have hzero := roundHalfEven_mono (div_nonneg hx (F.ulp_pos x).le)
  rw [← Int.cast_zero, roundHalfEven_intCast] at hzero
  exact mul_nonneg (Int.cast_nonneg hzero) (F.ulp_pos x).le

theorem round_le_of_le_ulp {m : ℤ} (h : x ≤ m * F.ulp x) : F.round x ≤ m * F.ulp x := by
  have hle := roundHalfEven_mono ((div_le_iff₀ (F.ulp_pos x)).mpr h)
  rw [roundHalfEven_intCast] at hle
  exact mul_le_mul_of_nonneg_right (Int.cast_le.mpr hle) (F.ulp_pos x).le

theorem le_round_of_ulp_le {m : ℤ} (h : m * F.ulp x ≤ x) : m * F.ulp x ≤ F.round x := by
  have hle := roundHalfEven_mono ((le_div_iff₀ (F.ulp_pos x)).mpr h)
  rw [roundHalfEven_intCast] at hle
  exact mul_le_mul_of_nonneg_right (Int.cast_le.mpr hle) (F.ulp_pos x).le

theorem two_zpow_eq_mul_ulp (hk : F.lastPlace x ≤ k) :
    ∃ s : ℕ, (2 : ℚ) ^ k = (2 ^ s : ℤ) * F.ulp x := by
  obtain ⟨s, hs⟩ := Int.le.dest hk
  refine ⟨s, ?_⟩
  rw [← hs, add_comm, zpow_add₀ two_ne_zero, zpow_natCast, Int.cast_pow, Int.cast_ofNat, ulp]

/-- Between numbers of different binades lies a power of two, a multiple of both last places. -/
theorem round_le_round_of_lastPlace_lt (hx : 0 < x) (hxy : x ≤ y)
    (hlt : F.lastPlace x < F.lastPlace y) : F.round x ≤ F.round y := by
  have hplace : F.lastPlace y = Int.log 2 |y| + 1 - F.precision := by
    have hmin : F.minExponent ≤ F.lastPlace x := le_max_right _ _
    have hmax : F.lastPlace y = max (Int.log 2 |y| + 1 - F.precision) F.minExponent := rfl
    omega
  have hp := F.precision_pos
  have hlow : x ≤ 2 ^ Int.log 2 |y| := by
    have hle := (abs_lt_two_zpow (F := F) x).le
    rw [abs_of_pos hx] at hle
    exact hle.trans (zpow_le_zpow_right₀ one_le_two (by omega))
  have hhigh : 2 ^ Int.log 2 |y| ≤ y := by
    have hle := Int.zpow_log_le_self one_lt_two (abs_pos.mpr (hx.trans_le hxy).ne')
    rw [Nat.cast_ofNat] at hle
    exact hle.trans_eq (abs_of_pos (hx.trans_le hxy))
  obtain ⟨s, hs⟩ := two_zpow_eq_mul_ulp (F := F) (x := x) (k := Int.log 2 |y|) (by omega)
  obtain ⟨t, ht⟩ := two_zpow_eq_mul_ulp (F := F) (x := y) (k := Int.log 2 |y|) (by omega)
  calc F.round x ≤ 2 ^ Int.log 2 |y| := by
        rw [hs] at hlow ⊢
        exact round_le_of_le_ulp hlow
    _ ≤ F.round y := by
        rw [ht] at hhigh ⊢
        exact le_round_of_ulp_le hhigh

theorem round_mono (hxy : x ≤ y) : F.round x ≤ F.round y := by
  have hpositive : ∀ {a b : ℚ}, 0 < a → a ≤ b → F.round a ≤ F.round b := by
    intro a b ha hab
    rcases (lastPlace_mono (F := F) ha hab).lt_or_eq with hlt | heq
    · exact round_le_round_of_lastPlace_lt ha hab hlt
    · rw [round, round, ulp, ulp, heq]
      have hpos : (0 : ℚ) < 2 ^ F.lastPlace b := zpow_pos two_pos _
      exact mul_le_mul_of_nonneg_right
        (Int.cast_le.mpr (roundHalfEven_mono (div_le_div_of_nonneg_right hab hpos.le))) hpos.le
  rcases lt_or_ge 0 x with hx | hx
  · exact hpositive hx hxy
  · rcases lt_or_ge y 0 with hy | hy
    · have hneg := hpositive (neg_pos.mpr hy) (neg_le_neg hxy)
      rw [round_neg, round_neg] at hneg
      exact neg_le_neg_iff.mp hneg
    · have hneg := round_nonneg (F := F) (neg_nonneg.mpr hx)
      rw [round_neg] at hneg
      exact (neg_nonneg.mp hneg).trans (round_nonneg hy)

theorem abs_round_sub_le_ulp (x : ℚ) : |F.round x - x| ≤ F.ulp x / 2 := by
  have hu := F.ulp_pos x
  have hscale : F.round x - x = (roundHalfEven (x / F.ulp x) - x / F.ulp x) * F.ulp x := by
    rw [round, sub_mul, div_mul_cancel₀ x hu.ne']
  have hle := mul_le_mul_of_nonneg_right (abs_roundHalfEven_sub_le (x / F.ulp x)) hu.le
  rw [hscale, abs_mul, abs_of_pos hu]
  linarith

theorem abs_round_sub_le (hk : |x| < 2 ^ k) (hmin : F.minExponent ≤ k - F.precision) :
    |F.round x - x| ≤ 2 ^ (k - F.precision - 1) := by
  rcases eq_or_ne x 0 with rfl | hx
  · rw [round_zero, sub_zero, abs_zero]
    positivity
  · refine (abs_round_sub_le_ulp x).trans ?_
    rw [zpow_sub_one₀ two_ne_zero, ← div_eq_mul_inv, ulp]
    exact div_le_div_of_nonneg_right
      (zpow_le_zpow_right₀ one_le_two (lastPlace_le hx hk hmin)) two_pos.le

theorem abs_round_sub_le_mul {b : ℚ} (hx : |x| ≤ b) (hb : 2 ^ (F.minExponent + F.precision) ≤ b) :
    |F.round x - x| ≤ b * 2 ^ (-F.precision : ℤ) := by
  have hpos : 0 < b := (zpow_pos two_pos _).trans_le hb
  have hmin := (Int.zpow_le_iff_le_log one_lt_two hpos).mp (by exact_mod_cast hb)
  have hlow : 2 ^ Int.log 2 b ≤ b := by exact_mod_cast Int.zpow_log_le_self one_lt_two hpos
  have hhigh : b < 2 ^ (Int.log 2 b + 1) := by
    exact_mod_cast Int.lt_zpow_succ_log_self one_lt_two b
  refine (abs_round_sub_le (hx.trans_lt hhigh) (by omega)).trans ?_
  rw [show Int.log 2 b + 1 - F.precision - 1 = Int.log 2 b + -F.precision by omega,
    zpow_add₀ two_ne_zero]
  exact mul_le_mul_of_nonneg_right hlow (zpow_pos two_pos _).le

theorem add_ulp_le {m : ℤ} (hx : F.round x = x) (h : x < m * F.ulp x) :
    x + F.ulp x ≤ m * F.ulp x := by
  have hu := F.ulp_pos x
  have hx' : roundHalfEven (x / F.ulp x) * F.ulp x = x := hx
  have hlt : roundHalfEven (x / F.ulp x) + 1 ≤ m :=
    Int.cast_lt.mp (lt_of_mul_lt_mul_right (hx'.trans_lt h) hu.le)
  calc x + F.ulp x = (roundHalfEven (x / F.ulp x) + 1 : ℤ) * F.ulp x := by
        rw [Int.cast_add, Int.cast_one, add_mul, one_mul, hx']
    _ ≤ m * F.ulp x := mul_le_mul_of_nonneg_right (Int.cast_le.mpr hlt) hu.le

/-- A factor that is below one by at least half of a last place makes a normal number smaller,
also after rounding. -/
theorem round_mul_lt {f : ℚ} (hx : 2 ^ (F.minExponent + F.precision) ≤ x) (hf : 0 ≤ f)
    (hf' : f ≤ 1 - 2 ^ (-F.precision : ℤ)) : F.round (x * f) < x := by
  have hpos : 0 < x := (zpow_pos two_pos _).trans_le hx
  obtain ⟨k, hk⟩ : ∃ k, k = Int.log 2 x := ⟨_, rfl⟩
  have hmin : F.minExponent + F.precision ≤ k := by
    rw [hk]
    exact (Int.zpow_le_iff_le_log one_lt_two hpos).mp (by exact_mod_cast hx)
  have hlow : 2 ^ k ≤ x := by
    rw [hk]
    exact_mod_cast Int.zpow_log_le_self one_lt_two hpos
  have hhigh : x < 2 ^ (k + 1) := by
    rw [hk]
    exact_mod_cast Int.lt_zpow_succ_log_self one_lt_two x
  have hproduct : x * f ≤ x - x * 2 ^ (-F.precision : ℤ) := by
    have hle := mul_le_mul_of_nonneg_left hf' hpos.le
    linarith
  have hgap : (2 : ℚ) ^ (k - F.precision) = 2 ^ k * 2 ^ (-F.precision : ℤ) := by
    rw [sub_eq_add_neg, zpow_add₀ two_ne_zero]
  have hplace : (0 : ℚ) < 2 ^ (-F.precision : ℤ) := zpow_pos two_pos _
  have habs : |x * f| = x * f := abs_of_nonneg (mul_nonneg hpos.le hf)
  rcases hlow.lt_or_eq with hlt | heq
  · have herr : |F.round (x * f) - x * f| ≤ 2 ^ (k + 1 - F.precision - 1) := by
      refine abs_round_sub_le ?_ (by omega)
      rw [habs]
      linarith [mul_pos hpos hplace]
    rw [show k + 1 - F.precision - 1 = k - F.precision by omega, hgap] at herr
    have hstrict := mul_lt_mul_of_pos_right hlt hplace
    linarith [(abs_le.mp herr).2]
  · have herr : |F.round (x * f) - x * f| ≤ 2 ^ (k - F.precision - 1) := by
      refine abs_round_sub_le ?_ (by omega)
      rw [habs, heq]
      linarith [mul_pos hpos hplace]
    rw [zpow_sub_one₀ two_ne_zero, hgap, heq] at herr
    linarith [(abs_le.mp herr).2, mul_pos hpos hplace]

end Format

/-- The finite numbers of a format. Zero has no sign. -/
structure Number (F : Format) where
  val : ℚ
  round_val : F.round val = val

namespace Number

variable {F : Format}

theorem val_injective : Function.Injective (val : Number F → ℚ) := by
  rintro ⟨x, _⟩ ⟨_, _⟩ rfl
  rfl

instance : LinearOrder (Number F) := LinearOrder.lift' val val_injective

def nearest (x : ℚ) : Number F := ⟨F.round x, Format.round_round x⟩

instance : Add (Number F) := ⟨fun x y ↦ nearest (x.val + y.val)⟩

instance : Sub (Number F) := ⟨fun x y ↦ nearest (x.val - y.val)⟩

instance : Mul (Number F) := ⟨fun x y ↦ nearest (x.val * y.val)⟩

/-- The quotient by zero is zero: there is no infinity. -/
instance : Div (Number F) := ⟨fun x y ↦ nearest (x.val / y.val)⟩

variable {x y : Number F} {a : ℚ}

theorem val_add : (x + y).val = F.round (x.val + y.val) := rfl

theorem val_sub : (x - y).val = F.round (x.val - y.val) := rfl

theorem val_mul : (x * y).val = F.round (x.val * y.val) := rfl

theorem val_div : (x / y).val = F.round (x.val / y.val) := rfl

theorem le_iff : x ≤ y ↔ x.val ≤ y.val := Iff.rfl

theorem lt_iff : x < y ↔ x.val < y.val := Iff.rfl

theorem val_le_round (h : x.val ≤ a) : x.val ≤ F.round a :=
  x.round_val.symm.trans_le (Format.round_mono h)

theorem round_le_val (h : a ≤ x.val) : F.round a ≤ x.val :=
  (Format.round_mono h).trans_eq x.round_val

end Number

end FloatingPoint

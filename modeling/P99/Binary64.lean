import P99.PercentileAgreement
import P99.Library.FloatingPoint

namespace P99

open Portable Buckets Double FloatingPoint Interpolation RunningTotal

/-- The C type `double`. No operation of the queries comes near its largest exponent. -/
def binary64 : Format := ⟨53, -1074, by decide⟩

abbrev Binary64 := Number binary64

/-- Integers are rounded when they are converted. `llround` is exact where its result fits a
`long long`. -/
instance : Double Binary64 where
  ofInt n := .nearest n
  llround x := roundHalfAway x.val

namespace Binary64

theorem val_ofInt_of_le {n : ℤ} (hn : |n| ≤ 2 ^ 53) : (ofInt n : Binary64).val = n :=
  Format.round_intCast hn (by decide)

@[simp] theorem val_zero : (ofInt 0 : Binary64).val = 0 := val_ofInt_of_le (by decide)

@[simp] theorem val_one : (ofInt 1 : Binary64).val = 1 := val_ofInt_of_le (by decide)

@[simp] theorem val_hundred : (ofInt 100 : Binary64).val = 100 := val_ofInt_of_le (by decide)

variable {n : UInt64} {p : Binary64}

theorem val_ofU64_of_le (hn : n.toNat ≤ 2 ^ 53) : (ofU64 n : Binary64).val = n.toNat :=
  Format.round_natCast hn (by decide)

theorem ofU64_nonneg (n : UInt64) : 0 ≤ (ofU64 n : Binary64).val :=
  Format.round_nonneg (Nat.cast_nonneg n.toNat)

theorem one_le_ofU64 (hn : 0 < n) : 1 ≤ (ofU64 n : Binary64).val := by
  rw [← val_one]
  apply Format.round_mono
  exact_mod_cast UInt64.lt_iff_toNat_lt.mp hn

theorem abs_round_sub_le {x b : ℚ} (hx : |x| ≤ b) (hb : 1 ≤ b) :
    |binary64.round x - x| ≤ b * (1 / 2 ^ 53) := by
  have hmin : (2 : ℚ) ^ (binary64.minExponent + binary64.precision) ≤ b :=
    (zpow_le_one_of_nonpos₀ one_le_two (by decide)).trans hb
  have hunit : (2 : ℚ) ^ (-binary64.precision : ℤ) = 1 / 2 ^ 53 := by
    rw [show (-binary64.precision : ℤ) = -53 from rfl]
    norm_num
  rw [← hunit]
  exact Format.abs_round_sub_le_mul hx hmin

theorem le_of_lt_hundred (hp : p.val < 100) : p.val ≤ 100 - 2 ^ (-46 : ℤ) := by
  rcases lt_or_ge p.val 64 with hlow | hlow
  · norm_num
    linarith
  · have hplace : binary64.lastPlace p.val = -46 := by
      have habs : |p.val| = p.val := abs_of_nonneg (by linarith)
      refine Format.lastPlace_eq (k := 6) ?_ ?_ (by decide) <;> rw [habs] <;> norm_num <;> linarith
    have hulp : binary64.ulp p.val = 2 ^ (-46 : ℤ) := by rw [Format.ulp, hplace]
    have hend : (100 : ℚ) = (100 * 2 ^ 46 : ℤ) * binary64.ulp p.val := by
      rw [hulp]
      norm_num
    have hle := Format.add_ulp_le p.round_val (hp.trans_eq hend)
    rw [← hend, hulp] at hle
    linarith

theorem fraction_le (hp : p.val < 100) : (p / ofInt 100).val ≤ 1 - 2 ^ (-53 : ℤ) := by
  have hbound : (1 - 2 ^ (-53 : ℤ) : ℚ) = (2 ^ 53 - 1 : ℤ) * 2 ^ (-53 : ℤ) := by norm_num
  have hfixed : binary64.round (1 - 2 ^ (-53 : ℤ)) = 1 - 2 ^ (-53 : ℤ) := by
    rw [hbound]
    exact Format.round_eq_self (by decide) (by decide)
  rw [Number.val_div, val_hundred, ← hfixed]
  apply Format.round_mono
  have hle := le_of_lt_hundred hp
  rw [div_le_iff₀ (by norm_num)]
  norm_num at hle ⊢
  linarith

instance : LawfulDouble Binary64 where
  zero_lt_hundred := by simp [Number.lt_iff]
  fraction p h₀ h₁ := by
    simp only [Number.lt_iff, Number.le_iff, Number.val_div, val_zero, val_one, val_hundred]
      at h₀ h₁ ⊢
    constructor
    · exact Format.round_nonneg (by positivity)
    · rw [← val_one]
      exact Number.round_le_val (by rw [val_one, div_le_one] <;> linarith)
  mul_le n x h₀ h₁ := by
    simp only [Number.le_iff, val_zero, val_one] at h₀ h₁
    exact Number.round_le_val (mul_le_of_le_one_right (ofU64_nonneg n) h₁)

instance : MonotoneDouble Binary64 where
  rank_mono n p q hpq := by
    apply Format.round_mono
    refine mul_le_mul_of_nonneg_left ?_ (ofU64_nonneg n)
    apply Format.round_mono
    rw [val_hundred]
    exact div_le_div_of_nonneg_right hpq (by norm_num)
  rank_lt n p hn hp := by
    have hcount := one_le_ofU64 hn
    rw [Number.lt_iff, val_hundred] at hp
    rw [Number.lt_iff, Number.val_mul]
    rcases lt_or_ge (p / ofInt 100).val 0 with hneg | hpos
    · have hle := Format.round_mono (F := binary64)
        (mul_nonpos_of_nonneg_of_nonpos (ofU64_nonneg n) hneg.le)
      rw [Format.round_zero] at hle
      linarith
    · refine Format.round_mul_lt ?_ hpos (fraction_le hp)
      exact le_trans (zpow_le_one_of_nonpos₀ one_le_two (by decide)) hcount
  rank_zero n := by
    apply Number.val_injective
    simp [Number.val_mul, Number.val_div, Format.round_zero]

end Binary64

end P99

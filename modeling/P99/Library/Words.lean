import Mathlib.Data.Nat.Log
import Mathlib.Tactic.Ring

namespace WordArithmetic

/-- The high and low digits, in base `B * B`, of the product of two
two-digit numbers, as the schoolbook method carries them through its middle sum. -/
theorem schoolbook_product (B a₀ a₁ b₀ b₁ : ℕ) :
    (a₁ * b₁ + (a₀ * b₁ + a₁ * b₀ + a₀ * b₀ / B) / B) * (B * B) +
        ((a₀ * b₁ + a₁ * b₀ + a₀ * b₀ / B) % B * B + a₀ * b₀ % B) =
      (a₁ * B + a₀) * (b₁ * B + b₀) := by
  have hlow := Nat.div_add_mod (a₀ * b₀) B
  have hmid := Nat.div_add_mod (a₀ * b₁ + a₁ * b₀ + a₀ * b₀ / B) B
  generalize a₀ * b₀ / B = q at *
  generalize a₀ * b₀ % B = r at *
  generalize (a₀ * b₁ + a₁ * b₀ + q) / B = c at *
  generalize (a₀ * b₁ + a₁ * b₀ + q) % B = m at *
  calc (a₁ * b₁ + c) * (B * B) + (m * B + r)
      = a₁ * b₁ * (B * B) + (B * c + m) * B + r := by ring
    _ = a₁ * b₁ * (B * B) + (a₀ * b₁ + a₁ * b₀) * B + (B * q + r) := by rw [hmid]; ring
    _ = (a₁ * B + a₀) * (b₁ * B + b₀) := by rw [hlow]; ring

/-- The state of a restoring division of `n` by `d` with `k` digits unread:
the quotient and the remainder of the digits already read. -/
structure Restoring (n d k q r : ℕ) : Prop where
  div : n / 2 ^ k = q * d + r
  lt : r < d

/-- The remainder of the digits of `n` above the `k`-th, with the `k`-th digit shifted in. -/
def shiftedRemainder (n d k : ℕ) : ℕ := 2 * (n / 2 ^ (k + 1) % d) + n / 2 ^ k % 2

theorem shiftedRemainder_lt {d : ℕ} (hd : 0 < d) (n k : ℕ) : shiftedRemainder n d k < 2 * d := by
  have hr := Nat.mod_lt (n / 2 ^ (k + 1)) hd
  rw [shiftedRemainder]
  omega

namespace Restoring

variable {n d k q r : ℕ}

theorem shifted (h : Restoring n d (k + 1) q r) :
    n / 2 ^ k = 2 * q * d + (2 * r + n / 2 ^ k % 2) := by
  have hhalf : n / 2 ^ k / 2 = q * d + r := by
    rw [Nat.div_div_eq_div_mul, ← Nat.pow_succ]
    exact h.div
  have hdigit := Nat.div_add_mod (n / 2 ^ k) 2
  rw [hhalf] at hdigit
  calc n / 2 ^ k = 2 * (q * d + r) + n / 2 ^ k % 2 := hdigit.symm
    _ = 2 * q * d + (2 * r + n / 2 ^ k % 2) := by ring

theorem subtract (h : Restoring n d (k + 1) q r) (hd : d ≤ 2 * r + n / 2 ^ k % 2) :
    Restoring n d k (2 * q + 1) (2 * r + n / 2 ^ k % 2 - d) where
  div := by
    have hs := h.shifted
    rw [Nat.add_mul, Nat.one_mul]
    omega
  lt := by
    have hr := h.lt
    omega

theorem restore (h : Restoring n d (k + 1) q r) (hd : 2 * r + n / 2 ^ k % 2 < d) :
    Restoring n d k (2 * q) (2 * r + n / 2 ^ k % 2) :=
  ⟨h.shifted, hd⟩

theorem div_eq (h : Restoring n d k q r) : n / 2 ^ k / d = q := by
  rw [h.div, Nat.mul_comm, Nat.mul_add_div (Nat.zero_lt_of_lt h.lt), Nat.div_eq_of_lt h.lt,
    Nat.add_zero]

theorem quotient_eq (h : Restoring n d 0 q r) : q = n / d := by
  rw [← h.div_eq, Nat.pow_zero, Nat.div_one]

theorem quotient_mul_le (h : Restoring n d k q r) : q * 2 ^ k ≤ n / d := by
  rw [← h.div_eq, Nat.div_div_eq_div_mul, Nat.mul_comm (2 ^ k), ← Nat.div_div_eq_div_mul]
  exact Nat.div_mul_le_self _ _

theorem shiftedRemainder_eq (h : Restoring n d (k + 1) q r) :
    shiftedRemainder n d k = 2 * r + n / 2 ^ k % 2 := by
  rw [shiftedRemainder, h.div, Nat.mul_comm q, Nat.mul_add_mod, Nat.mod_eq_of_lt h.lt]

end Restoring

end WordArithmetic

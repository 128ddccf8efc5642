import P99.Portable

namespace P99.Portable

open WordArithmetic

section Multiply

theorem words_inj {p q : UInt64 × UInt64}
    (h : p.1.toNat * 2 ^ 64 + p.2.toNat = q.1.toNat * 2 ^ 64 + q.2.toNat) : p = q := by
  have hp := p.2.toNat_lt
  have hq := q.2.toNat_lt
  apply Prod.ext
  · apply UInt64.toNat_inj.mp
    omega
  · apply UInt64.toNat_inj.mp
    omega

/-- The fallback product is exact exactly when its middle sum does not carry out of 64 bits: a
carry is lost, and with it `2 ^ 32` of the high word. -/
theorem mulU64U64Fallback_exact_iff (a b : UInt64) :
    ((mulU64U64Fallback a b).1.toNat * 2 ^ 64 + (mulU64U64Fallback a b).2.toNat =
        a.toNat * b.toNat ∧
      mulU64U64Fallback a b = mulU64U64Int128 a b) ↔
    middleSum a.toNat b.toNat < 2 ^ 64 := by
  constructor
  · intro ⟨hexact, _⟩
    obtain ⟨hhigh, hlow⟩ := mulU64U64Fallback_words a b
    have hwords := product_words a.toNat b.toNat
    have hcut := Nat.mod_le (a.toNat / 2 ^ 32 * (b.toNat / 2 ^ 32) +
      middleSum a.toNat b.toNat % 2 ^ 64 / 2 ^ 32) (2 ^ 64)
    rw [hhigh, hlow] at hexact
    omega
  · intro hmid
    have hexact := mulU64U64Fallback_exact hmid
    exact ⟨hexact, words_inj (hexact.trans (mulU64U64Int128_exact a b).symm)⟩

theorem mulU64U64Fallback_inexact :
    ¬ ∀ a b : UInt64, (mulU64U64Fallback a b).1.toNat * 2 ^ 64 +
      (mulU64U64Fallback a b).2.toNat = a.toNat * b.toNat := by
  intro hexact
  exact absurd (hexact uint64Max uint64Max) (by decide)

end Multiply

section Divide

section High

variable (low divisor : UInt64)

theorem divU128U64Loop_high {k : ℕ} (remainder : UInt64) {quotient : UInt64}
    (hq : (quotient.toNat + 1) * 2 ^ k ≤ 2 ^ 64) :
    (divU128U64Loop low divisor k remainder quotient).toNat / 2 ^ k = quotient.toNat := by
  induction k generalizing remainder quotient with
  | zero => simp [divU128U64Loop]
  | succ k ih =>
    have hpos := Nat.two_pow_pos k
    have hdouble : (2 * quotient.toNat + 1 + 1) * 2 ^ k ≤ 2 ^ 64 := by
      calc (2 * quotient.toNat + 1 + 1) * 2 ^ k = (quotient.toNat + 1) * 2 ^ (k + 1) := by ring
        _ ≤ 2 ^ 64 := hq
    have hsmall : quotient.toNat < 2 ^ 63 := by
      have hle := Nat.le_mul_of_pos_right (2 * quotient.toNat + 1 + 1) hpos
      omega
    have hset : ((quotient <<< 1) ||| 1).toNat = 2 * quotient.toNat + 1 :=
      toNat_pushBit hsmall (by decide)
    have hclear := toNat_double hsmall
    rw [pow_succ, ← Nat.div_div_eq_div_mul, divU128U64Loop]
    split
    · rw [ih _ (by rw [hset]; exact hdouble), hset]
      omega
    · have hle := Nat.mul_le_mul_right (2 ^ k) (Nat.le_succ (2 * quotient.toNat + 1))
      rw [ih _ (by rw [hclear]; exact hle.trans hdouble), hclear]
      omega

end High

variable {high low divisor : UInt64} {k : ℕ} {remainder quotient : UInt64}

/-- A shifted remainder that outgrows 64 bits loses its top bit, and is then found to be less than
the divisor: the quotient misses a bit that the exact one has. -/
theorem divU128U64Loop_ne (hlt : high < divisor) (hk : k < 64)
    (h : Restoring (high.toNat * 2 ^ 64 + low.toNat) divisor.toNat (k + 1) quotient.toNat
      remainder.toNat)
    (hbig : 2 ^ 64 ≤ shiftedRemainder (high.toNat * 2 ^ 64 + low.toNat) divisor.toNat k) :
    (divU128U64Loop low divisor (k + 1) remainder quotient).toNat ≠
      (high.toNat * 2 ^ 64 + low.toNat) / divisor.toNat := by
  have hq := loop_quotient_lt hlt h
  have hbit := toNat_digit high low hk
  have hr := h.lt
  have hdivisor := divisor.toNat_lt
  have hquo := toNat_double hq
  rw [h.shiftedRemainder_eq] at hbig
  have hnext : (2 * quotient.toNat + 1) * 2 ^ k ≤
      (high.toNat * 2 ^ 64 + low.toNat) / divisor.toNat :=
    (h.subtract (hdivisor.le.trans hbig)).quotient_mul_le
  have hfits := hnext.trans_lt (quotient_lt hlt)
  have hrem : ((remainder <<< 1) ||| ((low >>> .ofNat k) &&& 1)).toNat < divisor.toNat := by
    rw [toNat_pushBit_mod (hbit.trans_lt (Nat.mod_lt _ (by decide))), hbit]
    omega
  rw [divU128U64Loop, if_neg (fun hge ↦ not_le.mpr hrem (UInt64.le_iff_toNat_le.mp hge))]
  intro hexact
  have hroom : ((quotient <<< 1).toNat + 1) * 2 ^ k ≤ 2 ^ 64 := by
    rw [hquo]
    exact hfits.le
  have hhigh := divU128U64Loop_high low divisor
    ((remainder <<< 1) ||| ((low >>> .ofNat k) &&& 1)) hroom
  rw [hexact, hquo] at hhigh
  have hodd := (Nat.le_div_iff_mul_le (Nat.two_pow_pos k)).mpr hnext
  omega

theorem divU128U64Loop_fits (hlt : high < divisor) (hk : k ≤ 64)
    (h : Restoring (high.toNat * 2 ^ 64 + low.toNat) divisor.toNat k quotient.toNat
      remainder.toNat)
    (hexact : (divU128U64Loop low divisor k remainder quotient).toNat =
      (high.toNat * 2 ^ 64 + low.toNat) / divisor.toNat) :
    ∀ j < k, shiftedRemainder (high.toNat * 2 ^ 64 + low.toNat) divisor.toNat j < 2 ^ 64 := by
  induction k generalizing remainder quotient with
  | zero =>
    intro j hj
    exact absurd hj (Nat.not_lt_zero j)
  | succ k ih =>
    intro j hj
    have hfit : shiftedRemainder (high.toNat * 2 ^ 64 + low.toNat) divisor.toNat k < 2 ^ 64 :=
      not_le.mp fun hbig ↦ divU128U64Loop_ne hlt hk h hbig hexact
    rcases (Nat.lt_succ_iff.mp hj).lt_or_eq with hjk | rfl
    · obtain ⟨remainder', quotient', hstep, h'⟩ := divU128U64Loop_step hlt hk h hfit
      exact ih (Nat.le_of_succ_le hk) h' (hstep ▸ hexact) j hjk
    · exact hfit

/-- The fallback division is exact exactly when no shifted remainder outgrows 64 bits. -/
theorem divU128U64Fallback_exact_iff (hlt : high < divisor) :
    ((divU128U64Fallback high low divisor).toNat =
        (high.toNat * 2 ^ 64 + low.toNat) / divisor.toNat ∧
      .ok (divU128U64Fallback high low divisor) = divU128U64Int128 high low divisor ∧
      .ok (divU128U64Fallback high low divisor) = udiv128 high low divisor) ↔
    ∀ k < 64, shiftedRemainder (high.toNat * 2 ^ 64 + low.toNat) divisor.toNat k < 2 ^ 64 := by
  constructor
  · intro ⟨hexact, _⟩
    exact divU128U64Loop_fits hlt le_rfl (restoring_start hlt) hexact
  · intro hfit
    have hexact := divU128U64Loop_eq hlt le_rfl hfit (restoring_start hlt)
    have hquotient : divU128U64Fallback high low divisor =
        .ofNat ((high.toNat * 2 ^ 64 + low.toNat) / divisor.toNat) := by
      apply UInt64.toNat_inj.mp
      rw [UInt64.toNat_ofNat_of_lt' (quotient_lt hlt)]
      exact hexact
    have hne : divisor ≠ 0 := by
      rintro rfl
      exact Nat.not_lt_zero _ (UInt64.lt_iff_toNat_lt.mp hlt)
    refine ⟨hexact, ?_, ?_⟩
    · rw [divU128U64Int128_eq hne, hquotient]
    · rw [udiv128, if_neg (UInt64.not_le.mpr hlt), hquotient]

theorem divU128U64Fallback_exact_iff_sample :
    (divU128U64Fallback 1 5 3).toNat = (2 ^ 64 + 5) / 3 := by
  have hfit : ∀ k < 64, shiftedRemainder ((1 : UInt64).toNat * 2 ^ 64 + (5 : UInt64).toNat)
      (3 : UInt64).toNat k < 2 ^ 64 := by decide +kernel
  exact ((divU128U64Fallback_exact_iff (by decide)).mpr hfit).1

theorem divU128U64Fallback_inexact :
    ¬ ∀ high low divisor : UInt64, high < divisor →
      (divU128U64Fallback high low divisor).toNat =
        (high.toNat * 2 ^ 64 + low.toNat) / divisor.toNat := by
  intro hexact
  exact absurd (hexact 0x8000000000000000 0 0x8000000000000001 (by decide)) (by decide +kernel)

end Divide

end P99.Portable

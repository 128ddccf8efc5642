import P99.Portable

namespace P99.Buckets

open Portable

abbrev bucketCount : ℕ := 64

def bucketIndex (T : Toolchain) (timeInNs : UInt64) : ℕ :=
  if timeInNs ≤ 1 then 0 else floorLog2U64 T timeInNs

/-- The inclusive bounds of a bucket; `none` stands for `P99_FALSE`. -/
def bucketRange (index : ℕ) : Option (UInt64 × UInt64) :=
  if index ≥ bucketCount then none
  else if 0 = index then some (0, 1)
  else
    let lower := (1 : UInt64) <<< UInt64.ofNat index
    if bucketCount - 1 = index then some (lower, uint64Max)
    else some (lower, ((1 : UInt64) <<< UInt64.ofNat (index + 1)) - 1)

/-- The bucket of a duration, the smallest duration of a bucket and the distance to its
largest one, over the naturals. -/
def bucketOf (t : ℕ) : ℕ := Nat.log 2 t

def lowerOf (i : ℕ) : ℕ := if i = 0 then 0 else 2 ^ i

def widthOf (i : ℕ) : ℕ := if i = 0 then 1 else 2 ^ i - 1

theorem bucketOf_mono : Monotone bucketOf := fun _ _ h ↦ Nat.log_mono_right h

theorem lowerOf_add_widthOf (i : ℕ) : lowerOf i + widthOf i = 2 ^ (i + 1) - 1 := by
  cases i with
  | zero => rfl
  | succ i =>
    have hpos := Nat.two_pow_pos (i + 1)
    rw [lowerOf, widthOf, if_neg (Nat.succ_ne_zero i), if_neg (Nat.succ_ne_zero i),
      Nat.pow_succ 2 (i + 1)]
    omega

theorem lowerOf_bucketOf_le (t : ℕ) : lowerOf (bucketOf t) ≤ t := by
  rw [lowerOf]
  split
  · exact Nat.zero_le t
  · next h => exact Nat.pow_log_le_self 2 (fun ht ↦ h (by rw [ht]; rfl))

theorem le_upperOf_bucketOf (t : ℕ) : t ≤ lowerOf (bucketOf t) + widthOf (bucketOf t) := by
  rw [lowerOf_add_widthOf]
  have h := Nat.lt_pow_succ_log_self (by decide : 1 < 2) t
  rw [bucketOf]
  omega

theorem bucketOf_eq_of_mem {i t : ℕ} (hl : lowerOf i ≤ t) (hu : t ≤ lowerOf i + widthOf i) :
    bucketOf t = i := by
  rw [lowerOf_add_widthOf] at hu
  have hpos := Nat.two_pow_pos (i + 1)
  cases i with
  | zero => exact Nat.log_of_lt (by omega)
  | succ i => exact Nat.log_eq_of_pow_le_of_lt_pow (by simpa [lowerOf] using hl) (by omega)

theorem widthOf_lt {i : ℕ} (hi : i < bucketCount) : widthOf i < 2 ^ 64 := by
  have := Nat.pow_le_pow_right (show 0 < 2 by decide) (Nat.le_of_lt_succ hi)
  rw [widthOf]
  split <;> omega

theorem upperOf_lt {i : ℕ} (hi : i < bucketCount) : lowerOf i + widthOf i < 2 ^ 64 := by
  have hpow : 2 ^ (i + 1) ≤ 2 ^ 64 := Nat.pow_le_pow_right (by decide) hi
  rw [lowerOf_add_widthOf]
  omega

theorem bucketOf_lt {t : ℕ} (ht : t < 2 ^ 64) : bucketOf t < bucketCount :=
  Nat.log_lt_of_lt_pow' (by decide) ht

theorem bucketIndex_eq (T : Toolchain) (t : UInt64) : bucketIndex T t = bucketOf t.toNat := by
  rw [bucketIndex]
  split
  · next h =>
    have hle : t.toNat ≤ 1 := UInt64.le_iff_toNat_le.mp h
    exact (Nat.log_of_lt (by omega)).symm
  · next h => exact floorLog2U64_eq T (fun hz ↦ h (hz ▸ by decide))

theorem bucketIndex_lt (T : Toolchain) (t : UInt64) : bucketIndex T t < bucketCount :=
  bucketIndex_eq T t ▸ bucketOf_lt t.toNat_lt

theorem toNat_one_shiftLeft {i : ℕ} (hi : i < 64) :
    ((1 : UInt64) <<< UInt64.ofNat i).toNat = 2 ^ i := by
  have hmod : (UInt64.ofNat i).toNat % 64 = i := by
    rw [UInt64.toNat_ofNat_of_lt' (show i < 2 ^ 64 by omega), Nat.mod_eq_of_lt hi]
  rw [UInt64.toNat_shiftLeft, hmod, UInt64.toNat_one, Nat.one_shiftLeft]
  exact Nat.mod_eq_of_lt (Nat.pow_lt_pow_right (by decide) hi)

/-- The two shifts of the range, with their special cases at both ends, give the bounds of
the bucket without wrapping. -/
theorem bucketRange_spec {i : ℕ} (hi : i < bucketCount) :
    ∃ lower upper, bucketRange i = some (lower, upper) ∧ lower.toNat = lowerOf i ∧
      upper.toNat = lowerOf i + widthOf i := by
  rw [lowerOf_add_widthOf, bucketRange, if_neg (not_le.mpr hi)]
  by_cases hz : 0 = i
  · subst hz
    exact ⟨0, 1, rfl, rfl, rfl⟩
  · rw [if_neg hz]
    have hlower : lowerOf i = 2 ^ i := if_neg (Ne.symm hz)
    by_cases hl : bucketCount - 1 = i
    · subst hl
      exact ⟨_, uint64Max, if_pos rfl, toNat_one_shiftLeft hi, rfl⟩
    · have hlast : i ≠ 63 := fun h ↦ hl h.symm
      have hlt : i < 64 := hi
      have hshift := toNat_one_shiftLeft (show i + 1 < 64 by omega)
      have hpos := Nat.two_pow_pos (i + 1)
      have hone : (1 : UInt64) ≤ (1 : UInt64) <<< UInt64.ofNat (i + 1) := by
        rw [UInt64.le_iff_toNat_le, hshift]
        exact hpos
      refine ⟨_, _, if_neg hl, (toNat_one_shiftLeft hi).trans hlower.symm, ?_⟩
      rw [UInt64.toNat_sub_of_le _ _ hone, hshift, UInt64.toNat_one]

theorem toNat_bucketRange {i : ℕ} {lower upper : UInt64}
    (hrange : bucketRange i = some (lower, upper)) :
    lower.toNat = lowerOf i ∧ upper.toNat = lowerOf i + widthOf i := by
  by_cases hi : i < bucketCount
  · obtain ⟨lower', upper', hrange', hl, hu⟩ := bucketRange_spec hi
    cases hrange.symm.trans hrange'
    exact ⟨hl, hu⟩
  · rw [bucketRange, if_pos (not_lt.mp hi)] at hrange
    cases hrange

/-- The ranges partition the 64-bit durations without a gap, and on every toolchain, whether it
counts zero bits or shifts in a loop, the index of a duration is that of its range. -/
theorem bucketIndex_bucketRange (T : Toolchain) :
    (∀ t, bucketIndex T t < bucketCount ∧ ∃ lower upper,
      bucketRange (bucketIndex T t) = some (lower, upper) ∧ lower ≤ t ∧ t ≤ upper) ∧
    (∀ t i lower upper, bucketRange i = some (lower, upper) → lower ≤ t → t ≤ upper →
      i = bucketIndex T t) ∧
    (∃ upper, bucketRange 0 = some (0, upper)) ∧
    (∀ i, i + 1 < bucketCount → ∃ lower upper lower' upper',
      bucketRange i = some (lower, upper) ∧ bucketRange (i + 1) = some (lower', upper') ∧
      lower'.toNat = upper.toNat + 1) ∧
    (∃ lower, bucketRange (bucketCount - 1) = some (lower, uint64Max)) ∧
    ∀ t t', t ≤ t' → bucketIndex T t ≤ bucketIndex T t' := by
  refine ⟨fun t ↦ ?_, ?_, ⟨1, rfl⟩, ?_, ⟨_, rfl⟩, ?_⟩
  · obtain ⟨lower, upper, hrange, hl, hu⟩ := bucketRange_spec (bucketIndex_lt T t)
    rw [bucketIndex_eq] at hl hu
    refine ⟨bucketIndex_lt T t, lower, upper, hrange, ?_, ?_⟩
    · rw [UInt64.le_iff_toNat_le, hl]
      exact lowerOf_bucketOf_le t.toNat
    · rw [UInt64.le_iff_toNat_le, hu]
      exact le_upperOf_bucketOf t.toNat
  · intro t i lower upper hrange hlt htu
    obtain ⟨hl, hu⟩ := toNat_bucketRange hrange
    rw [UInt64.le_iff_toNat_le, hl] at hlt
    rw [UInt64.le_iff_toNat_le, hu] at htu
    rw [bucketIndex_eq, bucketOf_eq_of_mem hlt htu]
  · intro i hi
    obtain ⟨lower, upper, hrange, -, hu⟩ := bucketRange_spec (Nat.lt_of_succ_lt hi)
    obtain ⟨lower', upper', hrange', hl, -⟩ := bucketRange_spec hi
    refine ⟨lower, upper, lower', upper', hrange, hrange', ?_⟩
    have hpos := Nat.two_pow_pos (i + 1)
    rw [hl, hu, lowerOf_add_widthOf, lowerOf, if_neg (Nat.succ_ne_zero i)]
    omega
  · intro t t' htt
    rw [bucketIndex_eq, bucketIndex_eq]
    exact bucketOf_mono (UInt64.le_iff_toNat_le.mp htt)

end P99.Buckets

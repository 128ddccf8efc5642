import P99.BucketCalls

namespace P99

open Portable Buckets Interpolation

variable {T : Toolchain}

namespace Portable

variable {a b d : UInt64}

/-- The words of a product division that leaves 64 bits, on a compiler with `__uint128_t`: no
operation wraps and no cast loses a bit. -/
structure WideExact (T : Toolchain) (a b d high low : UInt64) : Prop where
  product : (product128 a b).toNat = a.toNat * b.toNat
  words : mulU64U64 T a b = (high, low)
  high_eq : high = ⟨(product128 a b >>> 64).setWidth 64⟩
  low_eq : low = ⟨(product128 a b).setWidth 64⟩
  halves : high.toNat * 2 ^ 64 + low.toNat = (product128 a b).toNat
  high_ne : high ≠ 0
  dividend : (dividend128 high low).toNat = high.toNat * 2 ^ 64 + low.toNat
  division : divU128U64 T high low d = .ok ⟨(quotient128 high low d).setWidth 64⟩
  quotient : (quotient128 high low d).toNat = a.toNat * b.toNat / d.toNat
  fits : (quotient128 high low d).toNat < 2 ^ 64

theorem exists_wideExact (hT : T.hasInt128 = true) (hwide : 2 ^ 64 ≤ a.toNat * b.toNat)
    (hq : a.toNat * b.toNat < 2 ^ 64 * d.toNat) : ∃ high low, WideExact T a b d high low := by
  have hwords : mulU64U64 T a b = mulU64U64Int128 a b := if_pos hT
  have hhalves := mulU64U64Int128_exact a b
  have hd : d ≠ 0 := by
    rintro rfl
    simp at hq
  have hhigh : (mulU64U64Int128 a b).1 ≠ 0 := by
    intro hz
    have hlow := (mulU64U64Int128 a b).2.toNat_lt
    rw [hz, UInt64.toNat_zero, Nat.zero_mul, Nat.zero_add] at hhalves
    omega
  have hquotient := toNat_quotient128 (mulU64U64Int128 a b).1 (mulU64U64Int128 a b).2 d
  rw [hhalves] at hquotient
  exact ⟨(mulU64U64Int128 a b).1, (mulU64U64Int128 a b).2, {
    product := toNat_product128 a b
    words := hwords
    high_eq := rfl
    low_eq := rfl
    halves := hhalves.trans (toNat_product128 a b).symm
    high_ne := hhigh
    dividend := toNat_dividend128 _ _
    division := by rw [divU128U64, if_neg hhigh, if_pos hT, divU128U64Int128_word hd]
    quotient := hquotient
    fits := by
      rw [hquotient]
      exact Nat.div_lt_of_lt_mul (Nat.mul_comm _ d.toNat ▸ hq) }⟩

end Portable

namespace BucketCall

/-- Every operation of the branch that a call takes gives its exact result. -/
structure Exact (T : Toolchain) (c : BucketCall UInt64) (lower upper quotient : UInt64) :
    Prop where
  range_eq : bucketRange c.bucketIndex = some (lower, upper)
  width_eq : lower.toNat + c.rangeWidth.toNat = upper.toNat
  offset_eq : c.prevAccumulated.toNat + c.targetOffset.toNat = c.targetRank.toNat
  narrow : ¬ c.IsWide → quotient = c.rangeWidth * c.targetOffset / c.count ∧
    (c.rangeWidth * c.targetOffset).toNat = c.rangeWidth.toNat * c.targetOffset.toNat
  wide : c.IsWide → u64MulDivU64 T c.rangeWidth c.targetOffset c.count = .ok quotient ∧
    ∃ high low, WideExact T c.rangeWidth c.targetOffset c.count high low
  quotient_eq : quotient.toNat = c.rangeWidth.toNat * c.targetOffset.toNat / c.count.toNat
  sum_eq : (lower + quotient).toNat = lower.toNat + quotient.toNat
  value_eq : interpolateAtTargetRank T c.bucketIndex c.count c.prevAccumulated c.targetRank =
    .ok (lower + quotient)

section InBucket

variable {c : BucketCall UInt64} {lower upper : UInt64} (hi : c.bucketIndex < bucketCount)
  (hp : c.prevAccumulated < c.targetRank)
  (hr : c.targetRank.toNat ≤ c.prevAccumulated.toNat + c.count.toNat)

include hp in
theorem prev_add_targetOffset :
    c.prevAccumulated.toNat + c.targetOffset.toNat = c.targetRank.toNat := by
  have hle : c.prevAccumulated.toNat ≤ c.targetRank.toNat := (UInt64.lt_iff_toNat_lt.mp hp).le
  rw [targetOffset, UInt64.toNat_sub_of_le _ _ (UInt64.le_iff_toNat_le.mpr hle)]
  omega

include hp in
theorem isWide_iff_product :
    c.IsWide ↔ 2 ^ 64 ≤ c.rangeWidth.toNat * c.targetOffset.toNat := by
  have hoffset := prev_add_targetOffset hp
  rw [isWide_iff, ← hoffset, Nat.add_sub_cancel_left]

include hp in
theorem toNat_product (hfit : ¬ c.IsWide) :
    (c.rangeWidth * c.targetOffset).toNat = c.rangeWidth.toNat * c.targetOffset.toNat := by
  rw [isWide_iff_product hp, not_le] at hfit
  rw [UInt64.toNat_mul, Nat.mod_eq_of_lt hfit]

include hp hr

theorem count_pos : 0 < c.count.toNat := by
  have hlt := UInt64.lt_iff_toNat_lt.mp hp
  omega

theorem targetOffset_le_count : c.targetOffset.toNat ≤ c.count.toNat := by
  have hoffset := prev_add_targetOffset hp
  omega

theorem quotient_le_rangeWidth :
    c.rangeWidth.toNat * c.targetOffset.toNat / c.count.toNat ≤ c.rangeWidth.toNat :=
  mul_div_le_width (targetOffset_le_count hp hr)

include hi

theorem product_lt_count :
    c.rangeWidth.toNat * c.targetOffset.toNat < 2 ^ 64 * c.count.toNat := by
  rw [toNat_rangeWidth hi]
  exact width_mul_offset_lt hi (count_pos hp hr) (targetOffset_le_count hp hr)

theorem exists_exact (hT : T.hasInt128 = true)
    (hrange : bucketRange c.bucketIndex = some (lower, upper)) :
    ∃ quotient, c.Exact T lower upper quotient := by
  obtain ⟨hl, hu⟩ := toNat_bucketRange hrange
  have hupper := upperOf_lt hi
  have hwidth := toNat_rangeWidth hi
  have hle := quotient_le_rangeWidth hp hr
  have hproduct := product_lt_count hi hp hr
  have hcount : c.count ≠ 0 :=
    UInt64.pos_iff_ne_zero.mp (UInt64.lt_iff_toNat_lt.mpr (count_pos hp hr))
  let quotient : UInt64 := .ofNat (c.rangeWidth.toNat * c.targetOffset.toNat / c.count.toNat)
  have hquotient : quotient.toNat =
      c.rangeWidth.toNat * c.targetOffset.toNat / c.count.toNat :=
    UInt64.toNat_ofNat_of_lt' (hle.trans_lt c.rangeWidth.toNat_lt)
  have hnarrow : ¬ c.IsWide → quotient = c.rangeWidth * c.targetOffset / c.count := by
    intro hfit
    apply UInt64.toNat_inj.mp
    rw [hquotient, UInt64.toNat_div, toNat_product hp hfit]
  have hwide : u64MulDivU64 T c.rangeWidth c.targetOffset c.count = .ok quotient :=
    u64MulDivU64_exact T hproduct (.inl hT) (.inl hT)
  exact ⟨quotient, {
    range_eq := hrange
    width_eq := by rw [hl, hu, hwidth]
    offset_eq := prev_add_targetOffset hp
    narrow := fun hfit ↦ ⟨hnarrow hfit, toNat_product hp hfit⟩
    wide := fun hw ↦ ⟨hwide, exists_wideExact hT ((isWide_iff_product hp).mp hw) hproduct⟩
    quotient_eq := hquotient
    sum_eq := by
      rw [UInt64.toNat_add]
      exact Nat.mod_eq_of_lt (by omega)
    value_eq := by
      have hlower : c.lower = lower := by rw [BucketCall.lower, hrange, Option.getD_some]
      rw [interpolate_eq, branchValue, hlower]
      split
      · rw [u64AddMulDivU64, hwide, ok_bind]
        rfl
      · next hfit =>
        rw [if_neg (UInt64.not_le.mpr hp), divU64_eq hcount, ok_bind, hnarrow hfit] }⟩

end InBucket

namespace Exact

variable {c c' : BucketCall UInt64} {lower upper quotient quotient' : UInt64}

theorem le_value (h : c.Exact T lower upper quotient) : lower ≤ lower + quotient := by
  rw [UInt64.le_iff_toNat_le, h.sum_eq]
  exact Nat.le_add_right _ _

theorem mono (h : c.Exact T lower upper quotient) (h' : c'.Exact T lower upper quotient')
    (hcount : c.count = c'.count) (hprev : c.prevAccumulated = c'.prevAccumulated)
    (hr : c.targetRank ≤ c'.targetRank) : lower + quotient ≤ lower + quotient' := by
  have hwidth : c.rangeWidth.toNat = c'.rangeWidth.toNat :=
    Nat.add_left_cancel (h.width_eq.trans h'.width_eq.symm)
  have hoffset : c.targetOffset.toNat ≤ c'.targetOffset.toNat := by
    have hrank := UInt64.le_iff_toNat_le.mp hr
    rw [← h.offset_eq, ← h'.offset_eq, hprev] at hrank
    exact Nat.le_of_add_le_add_left hrank
  rw [UInt64.le_iff_toNat_le, h.sum_eq, h'.sum_eq, h.quotient_eq, h'.quotient_eq, hwidth, hcount]
  exact lerp_mono hoffset

end Exact

end BucketCall

/-- For a rank in a bucket, whatever the histogram holds: the code's test chooses the branch by the
exact product, every operation of that branch is exact, its value lies in the range of the bucket
and grows with the rank. -/
theorem interpolation_exact {L : Layout} (hT : T.hasInt128 = true) {i : ℕ} (hi : i < bucketCount)
    (count prev : UInt64) :
    ∃ lower upper, bucketRange i = some (lower, upper) ∧
      (∀ r, prev < r → r.toNat ≤ prev.toNat + count.toNat →
        let c : BucketCall UInt64 := ⟨i, count, prev, r⟩
        (¬ c.IsWide ↔ c.rangeWidth.toNat * c.targetOffset.toNat ≤ uint64Max.toNat) ∧
        interpolateAtTargetRank T i count prev r = c.branchValue T ∧
        ∃ quotient, c.Exact T lower upper quotient ∧
          lower ≤ lower + quotient ∧ lower + quotient ≤ upper ∧
          ∀ h : Histogram L, valueAtTargetRankInBucket T h i count prev r =
            .ok (clampToExtrema h (lower + quotient))) ∧
      ∀ r r', prev < r → r ≤ r' → r'.toNat ≤ prev.toNat + count.toNat →
        ∃ v v', interpolateAtTargetRank T i count prev r = .ok v ∧
          interpolateAtTargetRank T i count prev r' = .ok v' ∧ v ≤ v' ∧
          ∀ h : Histogram L, clampToExtrema h v ≤ clampToExtrema h v' := by
  obtain ⟨lower, upper, hrange, -⟩ := bucketRange_spec hi
  refine ⟨lower, upper, hrange, fun r hp hr ↦ ⟨?_, BucketCall.interpolate_eq T ⟨i, count, prev, r⟩,
    ?_⟩, fun r r' hp hle hr ↦ ?_⟩
  · rw [BucketCall.isWide_iff_product hp, not_le]
    exact Nat.lt_succ_iff
  · obtain ⟨quotient, hexact⟩ :=
      BucketCall.exists_exact (c := ⟨i, count, prev, r⟩) hi hp hr hT hrange
    refine ⟨quotient, hexact, hexact.le_value, ?_, fun h ↦ ?_⟩
    · rw [UInt64.le_iff_toNat_le, hexact.sum_eq, ← hexact.width_eq, hexact.quotient_eq]
      exact Nat.add_le_add_left (BucketCall.quotient_le_rangeWidth hp hr) _
    · rw [valueAtTargetRankInBucket, hexact.value_eq, ok_bind]
  · have hrank := UInt64.le_iff_toNat_le.mp hle
    obtain ⟨quotient, hexact⟩ := BucketCall.exists_exact (c := ⟨i, count, prev, r⟩) hi hp
      (hrank.trans hr) hT hrange
    obtain ⟨quotient', hexact'⟩ := BucketCall.exists_exact (c := ⟨i, count, prev, r'⟩) hi
      (UInt64.lt_of_lt_of_le hp hle) hr hT hrange
    have hmono := hexact.mono hexact' rfl rfl hle
    exact ⟨_, _, hexact.value_eq, hexact'.value_eq, hmono, fun h ↦ clampToExtrema_mono h hmono⟩

theorem interpolation_exact_sample :
    ¬ (⟨63, 4, 0, 2⟩ : BucketCall UInt64).IsWide ∧ (⟨63, 4, 0, 3⟩ : BucketCall UInt64).IsWide ∧
    (∃ quotient, (⟨63, 4, 0, 3⟩ : BucketCall UInt64).Exact .gccX64 0x8000000000000000 uint64Max
      quotient) ∧
    ∃ v v', interpolateAtTargetRank .gccX64 63 4 0 2 = .ok v ∧
      interpolateAtTargetRank .gccX64 63 4 0 3 = .ok v' ∧ v ≤ v' := by
  obtain ⟨lower, upper, hrange, hcall, hmono⟩ :=
    interpolation_exact (L := .standard) (T := .gccX64) rfl (show 63 < bucketCount by decide) 4 0
  have hlast : bucketRange 63 = some (0x8000000000000000, uint64Max) := rfl
  cases hlast.symm.trans hrange
  obtain ⟨-, -, quotient, hexact, -⟩ := hcall 3 (by decide) (by decide)
  obtain ⟨v, v', hv, hv', hle, -⟩ := hmono 2 3 (by decide) (by decide) (by decide)
  exact ⟨by decide, by decide, ⟨quotient, hexact⟩, v, v', hv, hv', hle⟩

end P99

import P99.PercentileOrder

namespace P99

open Portable Buckets Double Interpolation OrderStatistics

variable {L : Layout} {h : Histogram L} {R : List ℕ}

namespace BucketCall

theorem product_lt (hR : Represents h R) {c : BucketCall UInt64} (hc : c.Reaches h) :
    c.rangeWidth.toNat * (c.targetRank.toNat - c.prevAccumulated.toNat) < 2 ^ 64 := by
  obtain ⟨i, hi, -, -, hrank⟩ := hc
  have hwidth : c.rangeWidth.toNat = widthOf i := by
    rw [toNat_rangeWidth (hi ▸ i.isLt), hi]
  have hoffset := offset_le_count hrank
  rw [hR.bucket] at hoffset
  rw [hwidth]
  exact (Nat.mul_le_mul_left _ hoffset).trans_lt (hR.width_mul_count_lt i)

theorem not_isWide (hR : Represents h R) {c : BucketCall UInt64} (hc : c.Reaches h) :
    ¬ c.IsWide := by
  rw [isWide_iff, not_le]
  exact product_lt hR hc

end BucketCall

namespace Represents

theorem weight_le_total (hR : Represents h R) :
    ∑ i : Fin bucketCount, (bucketAt h i).toNat *
      ((bucketRange i).getD (0, uint64Max)).1.toNat ≤ h.eventTimeTotal.toNat := by
  have hweight := sum_countIn_mul_le (l := R) (fun t _ ↦ lowerOf_bucketOf_le t) bucketCount
  rw [hR.total]
  refine le_of_eq_of_le (Finset.sum_congr rfl fun i _ ↦ ?_) hweight
  obtain ⟨lower, upper, hrange, hl, -⟩ := bucketRange_spec i.isLt
  rw [hrange, hR.bucket]
  exact congrArg (_ * ·) hl

theorem countIn_last_le (hR : Represents h R) : countIn bucketOf R 63 ≤ 1 := by
  have hweight : countIn bucketOf R 63 * 2 ^ 63 ≤ R.sum := countP_mul_le_sum fun t _ ht ↦ by
    have hl := lowerOf_bucketOf_le t
    rwa [ht] at hl
  have hsum := hR.sum_lt
  omega

end Represents

section Integer

variable (T : Toolchain)

/-- The buckets do not outweigh the total, which fits in 64 bits; neither then does the product of
any interpolation, for a rank, a named level or the fixed batch, whose answers are those of these
calls. -/
theorem interpolation_products_fit (hR : Records T h R) :
    ∑ i : Fin bucketCount, (bucketAt h i).toNat *
      ((bucketRange i).getD (0, uint64Max)).1.toNat ≤ h.eventTimeTotal.toNat ∧
    (∀ i : Fin bucketCount, (i : ℕ) = bucketCount - 1 → (bucketAt h i).toNat ≤ 1) ∧
    (∀ r : UInt64, valueAtTargetRank T h r = callAnswer h T (valueAtTargetRankCall h r) ∧
      ∀ c ∈ valueAtTargetRankCall h r,
        c.rangeWidth.toNat * (r.toNat - c.prevAccumulated.toNat) ≤ uint64Max.toNat ∧ ¬ c.IsWide) ∧
    (∀ k, ∃ call, namedQueryCall h k T = .ok call ∧ namedQuery k T h = callAnswer h T call ∧
      ∀ c ∈ call, ¬ c.IsWide) ∧
    (∃ calls, fixedPercentilesCalls h T = .ok calls ∧ (∀ c ∈ calls, ¬ c.2.IsWide) ∧
      (¬ 0 = h.eventCount → ∀ results, histogramValuesAtFixedPercentiles T h results =
        calls.foldlM (performCall h T) results >>= fun values ↦
          .ok (true, fill (fun _ ↦ h.maxEventTime) ((List.finRange 10).drop calls.length)
            values))) ∧
    ∀ c : BucketCall UInt64,
      interpolateAtTargetRank T c.bucketIndex c.count c.prevAccumulated c.targetRank =
        c.branchValue T := by
  have hrep := hR.represents
  have hcall : ∀ r : UInt64, ∀ c ∈ valueAtTargetRankCall h r, ¬ c.IsWide := fun r c hc ↦
    BucketCall.not_isWide hrep (valueAtTargetRankCall_reaches hc).2
  refine ⟨hrep.weight_le_total, ?_, fun r ↦ ⟨valueAtTargetRank_call h T r, fun c hc ↦
    ⟨?_, hcall r c hc⟩⟩, fun k ↦ ?_, ?_, BucketCall.interpolate_eq T⟩
  · intro i hi
    rw [hrep.bucket, hi]
    exact hrep.countIn_last_le
  · obtain ⟨rfl, hreaches⟩ := valueAtTargetRankCall_reaches hc
    exact Nat.le_of_lt_succ (BucketCall.product_lt hrep hreaches)
  · have hrank : u64MulDivU64 T h.eventCount (numerators.get k) (denominators.get k) = _ :=
      fixedRank_spec T h.eventCount k
    have hnamed : namedQueryCall h k T = .ok (valueAtTargetRankCall h
        (.ofNat (fixedRank h.eventCount.toNat k))) := by rw [namedQueryCall, hrank, ok_bind]
    refine ⟨_, hnamed, ?_, hcall _⟩
    rw [namedQuery_call, hnamed, ok_bind]
  · obtain ⟨ranks, hranks⟩ : ∃ ranks, fixedTargetRanks T h.eventCount = .ok ranks :=
      ⟨_, fixedTargetRanks_eq T h.eventCount⟩
    have hcalls : fixedPercentilesCalls h T =
        .ok (fixedWalkCalls h ranks (List.finRange bucketCount) 0 (List.finRange 10)) := by
      rw [fixedPercentilesCalls, hranks, ok_bind]
    refine ⟨_, hcalls, fun c hc ↦ BucketCall.not_isWide hrep (fixedWalkCalls_reach hc),
      fun hne results ↦ ?_⟩
    rw [fixedPercentiles_calls h T hne, hcalls, ok_bind]

theorem interpolation_products_fit_sample :
    valueAtTargetRank .gccX64 sample.histogram 2 =
        callAnswer sample.histogram .gccX64 (some ⟨9, 2, 1, 2⟩) ∧
      ¬ (⟨9, 2, 1, 2⟩ : BucketCall UInt64).IsWide ∧
      ∃ calls, fixedPercentilesCalls sample.histogram .gccX64 = .ok calls ∧
        ∀ c ∈ calls, ¬ c.2.IsWide := by
  have hcall : valueAtTargetRankCall sample.histogram 2 = some ⟨9, 2, 1, 2⟩ := by decide +kernel
  obtain ⟨-, -, hrank, -, ⟨calls, hcalls, hnarrow, -⟩, -⟩ :=
    interpolation_products_fit .gccX64 sample_records
  exact ⟨hcall ▸ (hrank 2).1, ((hrank 2).2 _ hcall).2, calls, hcalls, hnarrow⟩

end Integer

section Percentile

variable (T : Toolchain) {p : ℚ}

theorem last_bucket_iff (hR : Represents h R) (hne : R ≠ []) {r : ℕ} (hr : 1 ≤ r)
    (hrl : r ≤ R.length) :
    bucketOf (orderStatistic R r) = 63 ↔ 2 ^ 63 ≤ h.maxEventTime.toNat ∧ r = R.length := by
  constructor
  · intro hlast
    have hlower : lowerOf 63 ≤ orderStatistic R r := hlast ▸ lowerOf_bucketOf_le _
    have hmax := hlower.trans (le_orderStatistic_length (orderStatistic_mem hr hrl))
    refine ⟨hR.max_eq hne ▸ hmax, ?_⟩
    have hbelow : ¬ r ≤ countBelow bucketOf R 63 := fun hle ↦
      ((class_lt_iff bucketOf_mono hr hrl).mpr hle).ne hlast
    have htotal := countBelow_succ bucketOf R 63
    rw [hR.countBelow_bucketCount] at htotal
    have hone := hR.countIn_last_le
    omega
  · rintro ⟨hmax, rfl⟩
    rw [hR.max_eq hne] at hmax
    have hlast : bucketOf (2 ^ 63) ≤ bucketOf (orderStatistic R R.length) := bucketOf_mono hmax
    have hlt : bucketOf (orderStatistic R R.length) < 64 :=
      bucketOf_lt (hR.orderStatistic_lt hr le_rfl)
    rw [bucketOf, Nat.log_pow (by decide)] at hlast
    omega

theorem ceil_ne_length_iff {τ : ℚ} (hne : R ≠ []) (hτn : τ ≤ R.length) :
    ⌈τ⌉₊ ≠ R.length ↔ τ ≤ R.length - 1 := by
  have hlength := List.length_pos_of_ne_nil hne
  have hceil : ⌈τ⌉₊ ≤ R.length := Nat.ceil_le.mpr hτn
  rw [← Nat.cast_pred hlength, ← Nat.ceil_le]
  omega

theorem fitsLongLong_iff_bucket (hR : Represents h R) (hne : R ≠ []) (hp : 0 < p)
    (hp' : p < 100) :
    (∀ c ∈ valueAtPercentileCall h p, c.FitsLongLong) ↔
      rankBucket R ⌈R.length * (p / 100)⌉₊ ≠ 63 := by
  obtain ⟨hrank, hrankn⟩ := levelRank_mem hne hp hp'
  obtain ⟨hi, hcall⟩ := valueAtPercentileCall_eq hR hne hp hp'
  obtain ⟨v, hv, hl, hu⟩ := round_interpolant_mem hne hrank hrankn.le
  simp only [hcall, Option.mem_some_iff, forall_eq', BucketCall.FitsLongLong,
    BucketCall.interpolated, interpolateAtPercentile_model hR hi]
  change -2 ^ 63 ≤ roundHalfAway _ ∧ roundHalfAway _ ≤ 2 ^ 63 - 1 ↔ _
  rw [hv]
  rw [lowerOf_add_widthOf] at hu
  generalize rankBucket R ⌈R.length * (p / 100)⌉₊ = i at *
  constructor
  · rintro ⟨-, hfits⟩ rfl
    have hlower : 2 ^ 63 ≤ v := hl
    omega
  · intro hlast
    have hi : i + 1 ≤ 63 := by
      have hlt : i < 64 := hi
      omega
    have hupper : 2 ^ (i + 1) ≤ 2 ^ 63 := Nat.pow_le_pow_right (by decide) hi
    omega

/-- For a level, `llround` stays in its range, in the single query and in every batch, exactly when
all durations lie below `2 ^ 63` or the rank is not beyond the last but one. -/
theorem percentile_calls_fit_iff (hR : Records T h R) (hne : R ≠ []) (hp : 0 < p)
    (hp' : p < 100) :
    ((∀ c ∈ valueAtPercentileCall h p, c.FitsLongLong) ∧
      ∀ elements : List (FpResult ℚ), ∀ c ∈ histogramValuesAtPercentilesCalls h elements,
        c.1 = p → c.2.FitsLongLong) ↔
    h.maxEventTime.toNat < 2 ^ 63 ∨ (R.length : ℚ) * (p / 100) ≤ R.length - 1 := by
  have hrep := hR.represents
  obtain ⟨hrank, hrankn⟩ := levelRank_mem hne hp hp'
  have hbucket := fitsLongLong_iff_bucket hrep hne hp hp'
  rw [rankBucket_pos (ceil_pos_of_pos hrank), ne_eq, last_bucket_iff hrep hne
    (ceil_pos_of_pos hrank) (Nat.ceil_le.mpr hrankn.le), not_and_or, not_le, ← ne_eq,
    ceil_ne_length_iff hne hrankn.le] at hbucket
  constructor
  · intro ⟨hsingle, _⟩
    exact hbucket.mp hsingle
  · intro hcond
    have hsingle := hbucket.mpr hcond
    refine ⟨hsingle, ?_⟩
    rintro elements c hc rfl
    exact hsingle c.2 (percentilesCalls_subset hc)

theorem percentile_calls_fit_sample :
    (⟨9, 2, 1, 3 / 2⟩ : BucketCall ℚ).FitsLongLong := by
  have hcall : valueAtPercentileCall sample.histogram (50 : ℚ) = some ⟨9, 2, 1, 3 / 2⟩ := by
    decide +kernel
  exact ((percentile_calls_fit_iff .gccX64 sample_records (by decide) (by norm_num)
    (by norm_num)).mpr (.inl (by decide))).1 _ hcall

def longestSample : Session .standard :=
  run .gccX64 (zeroed .standard) [.push .ns 0x8000000000000000]

/-- The median of one event of `2 ^ 63` nanoseconds. -/
theorem percentile_calls_unfit :
    ¬ ∀ (h : Histogram .standard) (R : List ℕ), Records .gccX64 h R → R ≠ [] →
      ∀ p : ℚ, 0 < p → p < 100 → ∀ c ∈ valueAtPercentileCall h p, c.FitsLongLong := by
  intro hall
  have hcall : valueAtPercentileCall longestSample.histogram (50 : ℚ) =
      some ⟨63, 1, 0, 1 / 2⟩ := by decide +kernel
  have hfits := hall longestSample.histogram longestSample.recorded
    ⟨_, _, rfl, rfl, by decide⟩ (by decide) 50 (by norm_num) (by norm_num) _ hcall
  revert hfits
  decide +kernel

end Percentile

end P99

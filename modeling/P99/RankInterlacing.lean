import P99.RankRefinement

namespace P99

open Portable Buckets Interpolation OrderStatistics

variable {L : Layout} {R R' E : List ℕ}

theorem rankValue_le_of_lerp {r r' : ℕ} (hne : R ≠ []) (hne' : R' ≠ []) (hr : r ≤ R.length)
    (hr' : r' ≤ R'.length) (hfirst : orderStatistic R 1 ≤ orderStatistic R' 1)
    (hlast : orderStatistic R R.length ≤ orderStatistic R' R'.length)
    (hbuckets : rankBucket R r ≤ rankBucket R' r')
    (hlerp : ∀ i, rankBucket R r = i → rankBucket R' r' = i →
      lerp (lowerOf i) (widthOf i) (countIn bucketOf R i) (r - countBelow bucketOf R i) ≤
        lerp (lowerOf i) (widthOf i) (countIn bucketOf R' i) (r' - countBelow bucketOf R' i)) :
    rankValue R r ≤ rankValue R' r' := by
  rcases hbuckets.lt_or_eq with hlt | heq
  · rw [← bucketOf_rankValue hne hr, ← bucketOf_rankValue hne' hr'] at hlt
    exact (lt_of_bucketOf_lt hlt).le
  · rw [rankValue, rankValue, if_pos hr, if_pos hr', ← heq]
    exact clamp_mono hfirst hlast (hlerp _ rfl heq.symm)

section Values

variable (hperm : R'.Perm (R ++ E)) {r : ℕ}

include hperm

theorem length_of_perm_append : R'.length = R.length + E.length := by
  rw [hperm.length_eq, List.length_append]

theorem ne_nil_of_perm_append (hne : R ≠ []) : R' ≠ [] := by
  rintro rfl
  exact hne (List.append_eq_nil_iff.mp hperm.nil_eq.symm).1

theorem first_of_perm_append (hne : R ≠ []) : orderStatistic R' 1 ≤ orderStatistic R 1 :=
  orderStatistic_le_of_perm_append hperm le_rfl (List.length_pos_of_ne_nil hne)

theorem last_of_perm_append (hne : R ≠ []) :
    orderStatistic R R.length ≤ orderStatistic R' R'.length := by
  rw [length_of_perm_append hperm]
  exact le_orderStatistic_of_perm_append hperm (List.length_pos_of_ne_nil hne) le_rfl

theorem le_first_of_perm_append (hne : R ≠ []) (hlow : ∀ t ∈ E, orderStatistic R 1 ≤ t) :
    orderStatistic R 1 ≤ orderStatistic R' 1 := by
  have hmem := (isLeast_orderStatistic_one (ne_nil_of_perm_append hperm hne)).1
  rcases List.mem_append.mp (hperm.mem_iff.mp hmem) with hR | hE
  · exact orderStatistic_one_le hR
  · exact hlow _ hE

theorem last_le_of_perm_append (hne : R ≠ [])
    (hhigh : ∀ t ∈ E, t ≤ orderStatistic R R.length) :
    orderStatistic R' R'.length ≤ orderStatistic R R.length := by
  have hmem := (isGreatest_orderStatistic_length (ne_nil_of_perm_append hperm hne)).1
  rcases List.mem_append.mp (hperm.mem_iff.mp hmem) with hR | hE
  · exact le_orderStatistic_length hR
  · exact hhigh _ hE

theorem rankBucket_perm_append_le (hne : R ≠ []) (hr : r ≤ R.length) :
    rankBucket R' r ≤ rankBucket R r :=
  bucketOf_mono (orderStatistic_le_of_perm_append hperm (Nat.le_max_right r 1)
    (Nat.max_le.mpr ⟨hr, List.length_pos_of_ne_nil hne⟩))

theorem le_rankBucket_perm_append (hr : 1 ≤ r) (hrl : r ≤ R.length) :
    rankBucket R r ≤ rankBucket R' (r + E.length) := by
  rw [rankBucket, rankBucket, max_eq_left hr, max_eq_left (by omega)]
  exact bucketOf_mono (le_orderStatistic_of_perm_append hperm hr hrl)

theorem bucketOf_le_rankValue_perm_append (hne : R ≠ []) (hr : 1 ≤ r) :
    bucketOf (rankValue R r) ≤ bucketOf (rankValue R' (r + E.length)) := by
  have hne' := ne_nil_of_perm_append hperm hne
  have hlength := length_of_perm_append hperm
  by_cases hrl : r ≤ R.length
  · rw [bucketOf_rankValue hne hrl, bucketOf_rankValue hne' (by omega)]
    exact le_rankBucket_perm_append hperm hr hrl
  · have hlast := last_of_perm_append hperm hne
    rw [show rankValue R' (r + E.length) = orderStatistic R' R'.length from if_neg (by omega)]
    exact bucketOf_mono ((rankValue_le_last R r).trans hlast)

theorem rankValue_perm_append_le (hne : R ≠ []) (hhigh : ∀ t ∈ E, t ≤ orderStatistic R R.length)
    (r : ℕ) : rankValue R' r ≤ rankValue R r := by
  have hne' := ne_nil_of_perm_append hperm hne
  have hlength := length_of_perm_append hperm
  have hfirst := first_of_perm_append hperm hne
  have hlast := last_le_of_perm_append hperm hne hhigh
  by_cases hr : r ≤ R.length
  · have hr' : r ≤ R'.length := by omega
    rcases Nat.eq_zero_or_pos r with rfl | hpos
    · rwa [rankValue_zero hne, rankValue_zero hne']
    · refine rankValue_le_of_lerp hne' hne hr' hr hfirst hlast
        (rankBucket_perm_append_le hperm hne hr) fun i hi' hi ↦ ?_
      have hbelow := countBelow_rankBucket_lt hne' hr'
      have hreach := le_count_rankBucket hne hr
      rw [max_eq_left hpos] at hbelow hreach
      rw [hi'] at hbelow
      rw [hi] at hreach
      have hstart := (countBelow_of_perm_append hperm bucketOf i).1
      have hstop := (countBelow_of_perm_append hperm bucketOf (i + 1)).1
      rw [countBelow_succ, countBelow_succ] at hstop
      have hshift : lerp (lowerOf i) (widthOf i) _ _ ≤ lerp (lowerOf i) (widthOf i) _ _ :=
        lerp_shift_le hstart hstop hbelow hreach
      rwa [Nat.add_sub_cancel_left, Nat.add_sub_cancel_left] at hshift
  · rw [show rankValue R r = orderStatistic R R.length from if_neg hr]
    exact (rankValue_le_last R' r).trans hlast

theorem le_rankValue_perm_append (hne : R ≠ []) (hlow : ∀ t ∈ E, orderStatistic R 1 ≤ t) (r : ℕ) :
    rankValue R r ≤ rankValue R' (r + E.length) := by
  have hne' := ne_nil_of_perm_append hperm hne
  have hlength := length_of_perm_append hperm
  have hfirst := le_first_of_perm_append hperm hne hlow
  have hlast := last_of_perm_append hperm hne
  by_cases hr : r ≤ R.length
  · have hr' : r + E.length ≤ R'.length := by omega
    rcases Nat.eq_zero_or_pos r with rfl | hpos
    · rw [rankValue_zero hne]
      exact hfirst.trans (first_le_rankValue hne' _)
    · refine rankValue_le_of_lerp hne hne' hr hr' hfirst hlast
        (le_rankBucket_perm_append hperm hpos hr) fun i hi hi' ↦ ?_
      have hbelow := countBelow_rankBucket_lt hne hr
      have hreach := le_count_rankBucket hne' hr'
      rw [max_eq_left hpos, hi] at hbelow
      rw [max_eq_left (by omega), hi'] at hreach
      have hstart := (countBelow_of_perm_append hperm bucketOf i).2
      have hstop := (countBelow_of_perm_append hperm bucketOf (i + 1)).2
      rw [countBelow_succ, countBelow_succ, Nat.add_right_comm] at hstop
      have hshift : lerp (lowerOf i) (widthOf i) _ _ ≤ lerp (lowerOf i) (widthOf i) _ _ :=
        lerp_shift_le hstart hstop (Nat.add_lt_add_right hbelow _) hreach
      rwa [Nat.add_sub_add_right, Nat.add_right_comm, Nat.add_sub_add_right,
        Nat.add_sub_cancel_left, Nat.add_sub_cancel_left] at hshift
  · rw [show rankValue R' (r + E.length) = orderStatistic R' R'.length from if_neg (by omega)]
    exact (rankValue_le_last R r).trans hlast

end Values

section Queries

variable (T : Toolchain) {h : Histogram L}

/-- A histogram with further events, within the extremes of an earlier one or not: its answers,
counted from the bottom, are at most the earlier ones, and counted from the top at least. -/
theorem ranks_interlace {L' : Layout} {h' : Histogram L'} (hR : Records T h R)
    (hR' : Records T h' R') (hperm : R'.Perm (R ++ E)) (hne : R ≠ []) (r r' : UInt64) :
    ∃ v v', valueAtTargetRank T h r = .ok (some v) ∧ valueAtTargetRank T h' r' = .ok (some v') ∧
      (r' ≤ r → (r.toNat ≤ R.length → bucketIndex T v' ≤ bucketIndex T v) ∧
        ((∀ t ∈ E, t ≤ h.maxEventTime.toNat) → v' ≤ v)) ∧
      (r.toNat + E.length ≤ r'.toNat →
        (1 ≤ r.toNat → bucketIndex T v ≤ bucketIndex T v') ∧
        ((∀ t ∈ E, h.minEventTime.toNat ≤ t) → v ≤ v')) := by
  have hrep := hR.represents
  have hne' := ne_nil_of_perm_append hperm hne
  have hlength := length_of_perm_append hperm
  obtain ⟨v, hv, hval⟩ := valueAtTargetRank_val T hrep hne r
  obtain ⟨v', hv', hval'⟩ := valueAtTargetRank_val T hR'.represents hne' r'
  refine ⟨v, v', hv, hv', fun hr ↦ ?_, fun hr ↦ ?_⟩
  · rw [UInt64.le_iff_toNat_le] at hr
    refine ⟨fun hrl ↦ ?_, fun hhigh ↦ ?_⟩
    · rw [bucketIndex_eq, bucketIndex_eq, hval, hval', bucketOf_rankValue hne hrl,
        bucketOf_rankValue hne' (by omega)]
      exact (rankBucket_mono hr hne' (by omega)).trans (rankBucket_perm_append_le hperm hne hrl)
    · rw [hrep.max_eq hne] at hhigh
      rw [UInt64.le_iff_toNat_le, hval, hval']
      exact (rankValue_mono hne' hr).trans (rankValue_perm_append_le hperm hne hhigh _)
  · refine ⟨fun hpos ↦ ?_, fun hlow ↦ ?_⟩
    · rw [bucketIndex_eq, bucketIndex_eq, hval, hval']
      exact (bucketOf_le_rankValue_perm_append hperm hne hpos).trans
        (bucketOf_mono (rankValue_mono hne' hr))
    · rw [hrep.min_eq hne] at hlow
      rw [UInt64.le_iff_toNat_le, hval, hval']
      exact (le_rankValue_perm_append hperm hne hlow _).trans (rankValue_mono hne' hr)

def laterSample : Session .standard :=
  run .gccX64 (zeroed .standard) [.push .ns 1, .push .us 1, .push .ns 1000, .push .ns 600]

theorem laterSample_records : Records .gccX64 laterSample.histogram laterSample.recorded :=
  ⟨_, _, rfl, rfl, by decide⟩

theorem ranks_interlace_sample :
    ∃ v v', valueAtTargetRank .gccX64 sample.histogram 2 = .ok (some v) ∧
      valueAtTargetRank .gccX64 laterSample.histogram 2 = .ok (some v') ∧
      bucketIndex .gccX64 v' ≤ bucketIndex .gccX64 v ∧ v' ≤ v := by
  obtain ⟨v, v', hv, hv', hbelow, -⟩ := ranks_interlace .gccX64 sample_records laterSample_records
    (E := [600]) (.refl _) (by decide) 2 2
  exact ⟨v, v', hv, hv', (hbelow (by decide)).1 (by decide), (hbelow (by decide)).2 (by decide)⟩

/-- An event above the maximum takes off its clamp: the answer to rank 2 goes from 5 to 7. -/
example :
    let h := (run .gccX64 (zeroed .standard) [.push .ns 4, .push .ns 5]).histogram
    valueAtTargetRank .gccX64 h 2 = .ok (some 5) ∧
      valueAtTargetRank .gccX64 (histogramPush .gccX64 .ns h 1000).1 2 = .ok (some 7) :=
  ⟨rfl, rfl⟩

theorem fixedRank_succ (n : ℕ) (k : Fin 10) :
    fixedRank n k ≤ fixedRank (n + 1) k ∧ fixedRank (n + 1) k ≤ fixedRank n k + 1 := by
  have hlt := UInt64.lt_iff_toNat_lt.mp (fixed_fraction k).1
  rw [fixedRank, fixedRank, Nat.succ_mul]
  refine ⟨Nat.div_le_div_right (Nat.le_add_right _ _), ?_⟩
  rw [← Nat.add_div_right _ (Nat.zero_lt_of_lt hlt)]
  exact Nat.div_le_div_right (Nat.add_le_add_left hlt.le _)

theorem Records.push {T : Toolchain} (hR : Records T h R) {u : TimeUnit} {x : UInt64}
    (haccepted : (histogramPush T u h x).2 = true) (hroom : R.length + 1 < 2 ^ 64) :
    Records T (histogramPush T u h x).1 (R ++ [x.toNat * u.inNs]) := by
  obtain ⟨memory, calls, rfl, rfl, -⟩ := hR
  have hrun := run_append T memory calls (.push u x)
  rw [Session.step] at hrun
  refine ⟨memory, calls ++ [.push u x], by rw [hrun], ?_, ?_⟩
  · rw [hrun, Recording.recorded_push, haccepted]
    rfl
  · rwa [List.length_append, List.length_singleton]

/-- A named level goes up with one more event only if its rank advances, and down only if it does
not, as long as the event lies within the extremes. -/
theorem named_levels_step (hR : Records T h R) (hne : R ≠ []) (u : TimeUnit) (x : UInt64)
    (haccepted : (histogramPush T u h x).2 = true) (hroom : R.length + 1 < 2 ^ 64)
    (results results' : Vector UInt64 10) :
    let h' := (histogramPush T u h x).1
    ∃ values values' : Vector UInt64 10,
      histogramValuesAtFixedPercentiles T h results = .ok (true, values) ∧
      histogramValuesAtFixedPercentiles T h' results' = .ok (true, values') ∧
      ∀ k, namedQuery k T h = .ok (some (values.get k)) ∧
        namedQuery k T h' = .ok (some (values'.get k)) ∧
        (fixedRank h'.eventCount.toNat k = fixedRank h.eventCount.toNat k →
          x.toNat * u.inNs ≤ h.maxEventTime.toNat → values'.get k ≤ values.get k) ∧
        (fixedRank h'.eventCount.toNat k ≠ fixedRank h.eventCount.toNat k →
          h.minEventTime.toNat ≤ x.toNat * u.inNs → values.get k ≤ values'.get k) := by
  intro h'
  have hrep := hR.represents
  have hrep' := (hR.push haccepted hroom).represents
  have hperm := List.Perm.refl (R ++ [x.toNat * u.inNs])
  have hne' := ne_nil_of_perm_append hperm hne
  obtain ⟨values, hbatch, hnamed, hval⟩ := fixedPercentiles_val T hrep hne results
  obtain ⟨values', hbatch', hnamed', hval'⟩ := fixedPercentiles_val T hrep' hne' results'
  refine ⟨values, values', hbatch, hbatch', fun k ↦ ⟨hnamed k, hnamed' k, ?_⟩⟩
  obtain ⟨hstay, hadvance⟩ := fixedRank_succ R.length k
  rw [hrep'.count, hrep.count, UInt64.le_iff_toNat_le, UInt64.le_iff_toNat_le, hval, hval',
    hrep.max_eq hne, hrep.min_eq hne, List.length_append, List.length_singleton]
  refine ⟨fun hrank hhigh ↦ ?_, fun hrank hlow ↦ ?_⟩
  · rw [hrank]
    exact rankValue_perm_append_le hperm hne (by simpa using hhigh) _
  · rw [show fixedRank (R.length + 1) k = fixedRank R.length k + 1 by omega]
    exact le_rankValue_perm_append hperm hne (by simpa using hlow) _

theorem named_levels_step_sample :
    ∃ values values' : Vector UInt64 10,
      histogramValuesAtFixedPercentiles .gccX64 sample.histogram (.replicate 10 0) =
        .ok (true, values) ∧
      histogramValuesAtFixedPercentiles .gccX64
        (histogramPush .gccX64 .ns sample.histogram 600).1 (.replicate 10 0) =
          .ok (true, values') ∧
      values.get 0 ≤ values'.get 0 := by
  obtain ⟨values, values', hbatch, hbatch', hlevels⟩ := named_levels_step .gccX64 sample_records
    (by decide) .ns 600 (by decide) (by decide) (.replicate 10 0) (.replicate 10 0)
  exact ⟨values, values', hbatch, hbatch', (hlevels 0).2.2.2 (by decide) (by decide)⟩

end Queries

end P99

import P99.RankRefinement

namespace P99

open Portable Buckets Interpolation OrderStatistics

variable {L : Layout} {R : List ℕ}

section Bucket

variable {i m : ℕ} (hi : i ≠ 0) (heven : ∀ t, bucketOf t = i → R.count t = m)

include hi

theorem countBelow_bucketOf (R : List ℕ) :
    countBelow bucketOf R i = countBelow id R (2 ^ i) := by
  refine List.countP_congr fun t _ ↦ ?_
  rw [decide_eq_true_iff, decide_eq_true_iff, id, bucketOf]
  rcases Nat.eq_zero_or_pos t with rfl | ht
  · exact iff_of_true (by simpa using Nat.pos_of_ne_zero hi) (Nat.two_pow_pos i)
  · exact Nat.log_lt_iff_lt_pow Nat.one_lt_two ht.ne'

include heven

theorem count_of_even (t : ℕ) (hl : 2 ^ i ≤ t) (hu : t < 2 ^ i + 2 ^ i) : R.count t = m := by
  apply heven
  apply bucketOf_eq_of_mem
  · rwa [lowerOf, if_neg hi]
  · rw [lowerOf_add_widthOf, Nat.pow_succ]
    omega

theorem countIn_of_even : countIn bucketOf R i = m * 2 ^ i := by
  have hnext := countBelow_succ bucketOf R i
  rw [countBelow_bucketOf i.succ_ne_zero, countBelow_bucketOf hi, Nat.pow_succ, Nat.mul_two,
    countBelow_of_even (count_of_even hi heven) le_rfl] at hnext
  omega

theorem rankBucket_of_even {k : ℕ} (hk : 1 ≤ k) (hkm : k ≤ m * 2 ^ i) :
    rankBucket R (countBelow bucketOf R i + k) = i ∧
      orderStatistic R (countBelow bucketOf R i + k) = 2 ^ i + (k - 1) / m := by
  have hstatistic := orderStatistic_of_even (count_of_even hi heven) hk hkm
  have hm : 0 < m := Nat.pos_of_mul_pos_right (hk.trans hkm)
  have hq : (k - 1) / m < 2 ^ i := (Nat.div_lt_iff_lt_mul hm).mpr (by
    rw [Nat.mul_comm]
    omega)
  rw [← countBelow_bucketOf hi] at hstatistic
  refine ⟨?_, hstatistic⟩
  rw [rankBucket, max_eq_left (hk.trans (Nat.le_add_left k _)), hstatistic]
  apply bucketOf_eq_of_mem
  · rw [lowerOf, if_neg hi]
    exact Nat.le_add_right _ _
  · rw [lowerOf_add_widthOf, Nat.pow_succ]
    omega

theorem rankValue_of_even {r : ℕ} (hr : countBelow bucketOf R i < r)
    (hr' : r ≤ countBelow bucketOf R i + countIn bucketOf R i) :
    rankValue R r ≤ orderStatistic R r ∧ orderStatistic R r ≤ rankValue R r + 1 ∧
      (m = 1 → rankValue R r = orderStatistic R r) := by
  have hrl : r ≤ R.length := by
    rw [← countBelow_succ] at hr'
    exact hr'.trans (countBelow_le_length _ _ _)
  have hmem := orderStatistic_mem (Nat.zero_lt_of_lt hr) hrl
  have hfirst := orderStatistic_one_le hmem
  have hlast := le_orderStatistic_length hmem
  have hcount := countIn_of_even hi heven
  obtain ⟨k, rfl⟩ := Nat.exists_eq_add_of_le hr.le
  have hk : 1 ≤ k := by omega
  have hkm : k ≤ m * 2 ^ i := by omega
  obtain ⟨hbucket, hstatistic⟩ := rankBucket_of_even hi heven hk hkm
  obtain ⟨w, hw⟩ : ∃ w, 2 ^ i = w + 1 := ⟨2 ^ i - 1, (Nat.succ_pred (Nat.two_pow_pos i).ne').symm⟩
  rw [hw] at hcount hkm hstatistic
  obtain ⟨hle, hge, hone⟩ := @lerp_of_even (w + 1) w k m hk hkm
  rw [rankValue, if_pos hrl, hbucket, hcount, Nat.add_sub_cancel_left, lowerOf, widthOf, if_neg hi,
    if_neg hi, hw, Nat.add_sub_cancel]
  rw [← hstatistic] at hle hge hone
  refine ⟨(min_le_right _ _).trans (max_le hfirst hle), ?_, fun hm ↦ ?_⟩
  · exact (le_min hlast (hge.trans (le_max_right _ _))).trans clamp_add_one_le
  · rw [hone hm, clamp, max_eq_right hfirst, min_eq_right hlast]

end Bucket

section Query

variable {h : Histogram L}

/-- In a bucket whose values were all recorded equally often, the answer to a rank is its event or
one nanosecond less; with distinct values it is the event. -/
theorem even_bucket_ranks (T : Toolchain) (hR : Records T h R) {i m : ℕ} (hi : i ≠ 0)
    (heven : ∀ t, bucketOf t = i → R.count t = m) (r : UInt64)
    (hr : countBelow bucketOf R i < r.toNat)
    (hr' : r.toNat ≤ countBelow bucketOf R i + countIn bucketOf R i) :
    ∃ v, valueAtTargetRank T h r = .ok (some v) ∧ v.toNat ≤ orderStatistic R r.toNat ∧
      orderStatistic R r.toNat ≤ v.toNat + 1 ∧ (m = 1 → v.toNat = orderStatistic R r.toNat) := by
  have hne : R ≠ [] := by
    rintro rfl
    exact not_lt.mpr hr' hr
  obtain ⟨v, hv, hval⟩ := valueAtTargetRank_val T hR.represents hne r
  obtain ⟨hle, hge, hone⟩ := rankValue_of_even hi heven hr hr'
  refine ⟨v, hv, ?_, ?_, fun hm ↦ ?_⟩
  · exact hval.trans_le hle
  · exact hval ▸ hge
  · exact hval.trans (hone hm)

def shuffled : Session .standard :=
  run .gccX64 (zeroed .standard) [.push .ns 3, .push .ns 1, .push .ns 2]

theorem shuffled_records : Records .gccX64 shuffled.histogram shuffled.recorded :=
  ⟨_, _, rfl, rfl, by decide⟩

theorem even_bucket_ranks_sample :
    ∃ v, valueAtTargetRank .gccX64 shuffled.histogram 2 = .ok (some v) ∧
      v.toNat = orderStatistic shuffled.recorded 2 := by
  have heven : ∀ t, bucketOf t = 1 → shuffled.recorded.count t = 1 := by
    intro t ht
    rw [bucketOf, Nat.log_eq_one_iff] at ht
    obtain ⟨hlt, _, hle⟩ := ht
    interval_cases t <;> decide
  obtain ⟨v, hv, -, -, hexact⟩ := even_bucket_ranks .gccX64 shuffled_records one_ne_zero heven 2
    (by decide) (by decide)
  exact ⟨v, hv, hexact rfl⟩

end Query

section Uniform

variable {N : ℕ} (hperm : R.Perm (List.range' 1 N))

include hperm

theorem count_of_perm {t : ℕ} (ht : 1 ≤ t) (htN : t < 1 + N) : R.count t = 1 := by
  rw [hperm.count_eq]
  exact List.count_eq_one_of_mem List.nodup_range' (List.mem_range'_1.mpr ⟨ht, htN⟩)

theorem length_of_perm : R.length = N := by rw [hperm.length_eq, List.length_range']

theorem countBelow_one : countBelow id R 1 = 0 := by
  rw [countBelow, List.countP_eq_zero]
  intro t ht
  have hone := (List.mem_range'_1.mp (hperm.mem_iff.mp ht)).1
  simpa using Nat.one_le_iff_ne_zero.mp hone

theorem orderStatistic_of_perm {r : ℕ} (hr : 1 ≤ r) (hrN : r ≤ N) : orderStatistic R r = r := by
  have heven := orderStatistic_of_even (a := 1) (m := 1) (w := N)
    (fun t ht htN ↦ count_of_perm hperm ht htN) hr (by omega)
  rw [countBelow_one hperm, Nat.zero_add, Nat.div_one] at heven
  omega

theorem ne_nil_of_perm (hN : N ≠ 0) : R ≠ [] := by
  rintro rfl
  exact hN (length_of_perm hperm).symm

theorem rankBucket_of_perm {r : ℕ} (hr : 1 ≤ r) (hrN : r ≤ N) : rankBucket R r = bucketOf r := by
  rw [rankBucket, max_eq_left hr, orderStatistic_of_perm hperm hr hrN]

theorem countBelow_of_perm {i : ℕ} (hi : i ≠ 0) (hiN : 2 ^ i ≤ N) :
    countBelow bucketOf R i = 2 ^ i - 1 := by
  have hpos := Nat.two_pow_pos i
  have heven := countBelow_of_even (a := 1) (m := 1) (w := N) (k := 2 ^ i - 1)
    (fun t ht htN ↦ count_of_perm hperm ht htN) (by omega)
  rw [Nat.add_sub_cancel' hpos, countBelow_one hperm] at heven
  rw [countBelow_bucketOf hi, heven]
  omega

theorem le_rankValue_of_perm {r : ℕ} (hr : 1 ≤ r) (hrN : r ≤ N) (hlast : 2 ^ Nat.log 2 N ≤ r) :
    r ≤ rankValue R r := by
  have hN : N ≠ 0 := by omega
  have hne := ne_nil_of_perm hperm hN
  have hlength := length_of_perm hperm
  have hnext := Nat.lt_pow_succ_log_self Nat.one_lt_two N
  by_cases hi : Nat.log 2 N = 0
  · rw [hi] at hnext
    have hfirst := first_le_rankValue hne r
    rw [orderStatistic_of_perm hperm le_rfl (hr.trans hrN)] at hfirst
    omega
  · have hbucket : rankBucket R r = Nat.log 2 N := by
      rw [rankBucket_of_perm hperm hr hrN, bucketOf]
      exact Nat.log_eq_of_pow_le_of_lt_pow hlast (hrN.trans_lt hnext)
    have hbelow := countBelow_of_perm hperm hi (hlast.trans hrN)
    have hreach := le_count_rankBucket hne (hrN.trans_eq hlength.symm)
    have htotal := countBelow_le_length bucketOf R (Nat.log 2 N + 1)
    rw [countBelow_succ, hbelow, hlength] at htotal
    rw [hbucket, hbelow, max_eq_left hr] at hreach
    rw [rankValue, if_pos (hrN.trans_eq hlength.symm), hbucket, hbelow, hlength,
      orderStatistic_of_perm hperm (hr.trans hrN) le_rfl, lowerOf, widthOf, if_neg hi, if_neg hi]
    refine le_min hrN (le_trans ?_ (le_max_right _ _))
    rw [Nat.pow_succ] at hnext
    generalize 2 ^ Nat.log 2 N = p at *
    generalize countIn bucketOf R (Nat.log 2 N) = c at *
    obtain ⟨k, rfl⟩ := Nat.exists_eq_add_of_le hlast
    have hspread : k ≤ (p - 1) * (p + k - (p - 1)) / c := by
      obtain ⟨w, rfl⟩ : ∃ w, p = w + 1 := ⟨p - 1, by omega⟩
      rw [Nat.add_sub_cancel, show w + 1 + k - w = k + 1 by omega,
        Nat.le_div_iff_mul_le (by omega)]
      have hfew : c ≤ w + 1 := by omega
      have hk : k + 1 ≤ c := by omega
      nlinarith
    exact Nat.add_le_add_left hspread p

theorem rankValue_of_perm {r : ℕ} (hr : 1 ≤ r) (hrN : r ≤ N) :
    r ≤ rankValue R r ∧ rankValue R r ≤ N ∧ (r < 2 ^ Nat.log 2 N → rankValue R r = r) := by
  have hne := ne_nil_of_perm hperm (by omega)
  have hlength := length_of_perm hperm
  have hrl : r ≤ R.length := hrN.trans_eq hlength.symm
  have hmax := rankValue_le_last R r
  rw [hlength, orderStatistic_of_perm hperm (hr.trans hrN) le_rfl] at hmax
  rcases Nat.lt_or_ge r (2 ^ Nat.log 2 N) with hlow | hlast
  · suffices hexact : rankValue R r = r from ⟨hexact.ge, hmax, fun _ ↦ hexact⟩
    have hbucket := rankBucket_of_perm hperm hr hrN
    by_cases hi : bucketOf r = 0
    · -- rank 1, in the bucket of 0 and 1
      have hfirst := first_le_rankValue hne r
      have hvalue := bucketOf_rankValue hne hrl
      rw [orderStatistic_of_perm hperm le_rfl (hr.trans hrN)] at hfirst
      rw [hbucket, hi, bucketOf, Nat.log_eq_zero_iff] at hvalue
      rw [bucketOf, Nat.log_eq_zero_iff] at hi
      omega
    · have hfull : ∀ t, bucketOf t = bucketOf r → R.count t = 1 := by
        intro t ht
        have hpos : t ≠ 0 := by
          rintro rfl
          exact hi ht.symm
        have hbelow : bucketOf r < Nat.log 2 N := Nat.log_lt_of_lt_pow (by omega) hlow
        have htN : t < 2 ^ Nat.log 2 N :=
          (Nat.lt_pow_of_log_lt Nat.one_lt_two (ht.trans_lt hbelow))
        have hN := Nat.pow_log_le_self 2 (x := N) (by omega)
        exact count_of_perm hperm (by omega) (by omega)
      have hbelow := countBelow_rankBucket_lt hne hrl
      have hreach := le_count_rankBucket hne hrl
      rw [hbucket, max_eq_left hr] at hbelow hreach
      rw [(rankValue_of_even hi hfull hbelow hreach).2.2 rfl, orderStatistic_of_perm hperm hr hrN]
  · exact ⟨le_rankValue_of_perm hperm hr hrN hlast, hmax, fun hlt ↦ absurd hlt (not_lt.mpr hlast)⟩

end Uniform

section Run

variable {h : Histogram L} {N : ℕ}

/-- After the events 1 to `N`, in any order, every rank below the largest power of two up to `N` is
answered by itself, and every other by an event from it on. The median is exact. -/
theorem uniform_ranks (T : Toolchain) (hR : Records T h R) (hperm : R.Perm (List.range' 1 N)) :
    (∀ r : UInt64, 1 ≤ r.toNat → r.toNat ≤ N → ∃ v, valueAtTargetRank T h r = .ok (some v) ∧
      r ≤ v ∧ v.toNat ≤ N ∧ (r.toNat < 2 ^ Nat.log 2 N → v = r)) ∧
    (2 ≤ N → ∃ v, namedQuery 0 T h = .ok (some v) ∧ v.toNat = N / 2) := by
  have hrep := hR.represents
  refine ⟨fun r hr hrN ↦ ?_, fun hN ↦ ?_⟩
  · obtain ⟨v, hv, hval⟩ := valueAtTargetRank_val T hrep (ne_nil_of_perm hperm (by omega)) r
    obtain ⟨hge, hle, hexact⟩ := rankValue_of_perm hperm hr hrN
    rw [← hval] at hge hle hexact
    exact ⟨v, hv, UInt64.le_iff_toNat_le.mpr hge, hle, fun hlt ↦ UInt64.toNat_inj.mp (hexact hlt)⟩
  · obtain ⟨v, hv, hval⟩ := namedQuery_val T hrep (ne_nil_of_perm hperm (by omega)) 0
    have hrank : fixedRank R.length 0 = N / 2 := by
      rw [length_of_perm hperm]
      exact congrArg (· / 2) (Nat.mul_one N)
    have hhalf : N / 2 < 2 ^ Nat.log 2 N := by
      have hlt := Nat.lt_pow_succ_log_self Nat.one_lt_two N
      rw [Nat.pow_succ] at hlt
      omega
    rw [hrank] at hval
    exact ⟨v, hv, hval.trans ((rankValue_of_perm hperm (by omega) (by omega)).2.2 hhalf)⟩

theorem uniform_ranks_sample :
    valueAtTargetRank .gccX64 shuffled.histogram 1 = .ok (some 1) ∧
    ∃ v, namedQuery 0 .gccX64 shuffled.histogram = .ok (some v) ∧ v.toNat = 3 / 2 := by
  have hperm : shuffled.recorded.Perm (List.range' 1 3) := by decide
  obtain ⟨hranks, hmedian⟩ := uniform_ranks .gccX64 shuffled_records hperm
  obtain ⟨v, hv, -, -, hexact⟩ := hranks 1 (by decide) (by decide)
  exact ⟨hexact (by decide) ▸ hv, hmedian (by decide)⟩

end Run

end P99

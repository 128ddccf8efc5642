import P99.Buckets
import P99.Library.Interpolation
import P99.Library.OrderStatistics

namespace P99

open Buckets Interpolation OrderStatistics

/-- The bucket that answers rank `r`: that of the `r`-th smallest duration, or of the smallest
one at rank zero. -/
def rankBucket (R : List ℕ) (r : ℕ) : ℕ := bucketOf (orderStatistic R (max r 1))

/-- The answer to a rank, in terms of the recorded durations alone. -/
def rankValue (R : List ℕ) (r : ℕ) : ℕ :=
  if r ≤ R.length then
    clamp (orderStatistic R 1) (orderStatistic R R.length)
      (lerp (lowerOf (rankBucket R r)) (widthOf (rankBucket R r))
        (countIn bucketOf R (rankBucket R r)) (r - countBelow bucketOf R (rankBucket R r)))
  else orderStatistic R R.length

section

variable {R : List ℕ} {r : ℕ}

theorem first_le_last (hne : R ≠ []) : orderStatistic R 1 ≤ orderStatistic R R.length :=
  orderStatistic_one_le (orderStatistic_mem (List.length_pos_of_ne_nil hne) le_rfl)

theorem countBelow_rankBucket_lt (hne : R ≠ []) (hr : r ≤ R.length) :
    countBelow bucketOf R (rankBucket R r) < max r 1 :=
  countBelow_lt bucketOf_mono (Nat.le_max_right _ _)
    (Nat.max_le.mpr ⟨hr, List.length_pos_of_ne_nil hne⟩)

theorem le_count_rankBucket (hne : R ≠ []) (hr : r ≤ R.length) :
    max r 1 ≤ countBelow bucketOf R (rankBucket R r) + countIn bucketOf R (rankBucket R r) :=
  le_countBelow_add_countIn bucketOf_mono (Nat.le_max_right _ _)
    (Nat.max_le.mpr ⟨hr, List.length_pos_of_ne_nil hne⟩)

theorem countIn_rankBucket_pos (hne : R ≠ []) (hr : r ≤ R.length) :
    0 < countIn bucketOf R (rankBucket R r) :=
  countIn_pos (Nat.le_max_right _ _) (Nat.max_le.mpr ⟨hr, List.length_pos_of_ne_nil hne⟩)

/-- The extrema clamp cannot leave a bucket that holds a recorded duration. -/
theorem bucketOf_clamp {i v : ℕ} (hmem : ∃ t ∈ R, bucketOf t = i) (hl : lowerOf i ≤ v)
    (hu : v ≤ lowerOf i + widthOf i) :
    bucketOf (clamp (orderStatistic R 1) (orderStatistic R R.length) v) = i := by
  obtain ⟨t, ht, rfl⟩ := hmem
  have h := clamp_mem_interval hl hu
    ((orderStatistic_one_le ht).trans (le_upperOf_bucketOf t))
    ((lowerOf_bucketOf_le t).trans (le_orderStatistic_length ht))
  exact bucketOf_eq_of_mem h.1 h.2

theorem bucketOf_rankValue (hne : R ≠ []) (hr : r ≤ R.length) :
    bucketOf (rankValue R r) = rankBucket R r := by
  have hle := le_count_rankBucket hne hr
  have hmax := Nat.le_max_left r 1
  rw [rankValue, if_pos hr]
  refine bucketOf_clamp ⟨_, orderStatistic_mem (Nat.le_max_right r 1)
    (Nat.max_le.mpr ⟨hr, List.length_pos_of_ne_nil hne⟩), rfl⟩ le_lerp (lerp_le ?_)
  omega

theorem first_le_rankValue (hne : R ≠ []) (r : ℕ) : orderStatistic R 1 ≤ rankValue R r := by
  rw [rankValue]
  split
  · exact le_clamp (first_le_last hne)
  · exact first_le_last hne

theorem rankValue_le_last (R : List ℕ) (r : ℕ) : rankValue R r ≤ orderStatistic R R.length := by
  rw [rankValue]
  split
  · exact clamp_le
  · exact le_rfl

theorem rankValue_zero (hne : R ≠ []) : rankValue R 0 = orderStatistic R 1 := by
  have hlower : lowerOf (rankBucket R 0) ≤ orderStatistic R 1 := lowerOf_bucketOf_le _
  rw [rankValue, if_pos (Nat.zero_le _)]
  refine clamp_of_le ?_ (first_le_last hne)
  rwa [lerp, Nat.zero_sub, Nat.mul_zero, Nat.zero_div, Nat.add_zero]

theorem rankBucket_mono {r' : ℕ} (h : r ≤ r') (hne : R ≠ []) (hr : r' ≤ R.length) :
    rankBucket R r ≤ rankBucket R r' :=
  bucketOf_mono (orderStatistic_mono (Nat.le_max_right _ _) (max_le_max h le_rfl)
    (Nat.max_le.mpr ⟨hr, List.length_pos_of_ne_nil hne⟩))

theorem lt_of_bucketOf_lt {v v' : ℕ} (h : bucketOf v < bucketOf v') : v < v' :=
  not_le.mp fun hle ↦ not_lt.mpr (bucketOf_mono hle) h

theorem rankValue_mono (hne : R ≠ []) {r' : ℕ} (h : r ≤ r') : rankValue R r ≤ rankValue R r' := by
  by_cases hr' : r' ≤ R.length
  · have hr := h.trans hr'
    rcases (rankBucket_mono h hne hr').lt_or_eq with hlt | heq
    · rw [← bucketOf_rankValue hne hr, ← bucketOf_rankValue hne hr'] at hlt
      exact (lt_of_bucketOf_lt hlt).le
    · rw [rankValue, rankValue, if_pos hr, if_pos hr', heq]
      exact clamp_mono le_rfl le_rfl (lerp_mono (Nat.sub_le_sub_right h _))
  · rw [show rankValue R r' = orderStatistic R R.length from if_neg hr']
    exact rankValue_le_last R r

theorem rankValue_le_of_dominates {R' : List ℕ} (hne : R ≠ []) (hlen : R.length = R'.length)
    (hdom : ∀ q, 1 ≤ q → q ≤ R.length → orderStatistic R q ≤ orderStatistic R' q)
    (hr : r ≤ R.length) : rankValue R r ≤ rankValue R' r := by
  have hpos := List.length_pos_of_ne_nil hne
  have hne' : R' ≠ [] := List.ne_nil_of_length_pos (hlen ▸ hpos)
  have hfirst := hdom 1 le_rfl hpos
  rcases Nat.eq_zero_or_pos r with rfl | hrpos
  · rwa [rankValue_zero hne, rankValue_zero hne']
  · have hr' : r ≤ R'.length := hlen ▸ hr
    have hbucket : rankBucket R r ≤ rankBucket R' r :=
      bucketOf_mono (hdom _ (Nat.le_max_right _ _) (Nat.max_le.mpr ⟨hr, hpos⟩))
    rcases hbucket.lt_or_eq with hlt | heq
    · rw [← bucketOf_rankValue hne hr, ← bucketOf_rankValue hne' hr'] at hlt
      exact (lt_of_bucketOf_lt hlt).le
    · have hlast : orderStatistic R R.length ≤ orderStatistic R' R'.length :=
        hlen ▸ hdom R.length hpos le_rfl
      rw [rankValue, rankValue, if_pos hr, if_pos hr']
      refine clamp_mono hfirst hlast ?_
      have hmax : max r 1 = r := max_eq_left hrpos
      have hbelow := countBelow_rankBucket_lt hne hr
      have hreach := le_count_rankBucket hne' hr'
      rw [hmax] at hbelow hreach
      rw [← heq] at hreach ⊢
      generalize rankBucket R r = i at *
      have hstart := countBelow_antitone_of_dominates bucketOf_mono hlen hdom i
      have hstop := countBelow_antitone_of_dominates bucketOf_mono hlen hdom (i + 1)
      rw [countBelow_succ, countBelow_succ] at hstop
      have hshift : lerp (lowerOf i) (widthOf i) _ _ ≤ lerp (lowerOf i) (widthOf i) _ _ :=
        lerp_shift_le hstart hstop hbelow hreach
      rwa [Nat.add_sub_cancel_left, Nat.add_sub_cancel_left] at hshift

theorem le_two_mul_of_bucketOf_eq {s v : ℕ} (hs : 2 ≤ s) (h : bucketOf v = bucketOf s) :
    v ≤ 2 * s ∧ s ≤ 2 * v := by
  have hv := le_upperOf_bucketOf v
  have hs' := le_upperOf_bucketOf s
  have hlv := lowerOf_bucketOf_le v
  have hls := lowerOf_bucketOf_le s
  have hpos : bucketOf s ≠ 0 := (Nat.log_pos (by decide) hs).ne'
  rw [h] at hv hlv
  rw [lowerOf_add_widthOf, Nat.pow_succ] at hv hs'
  rw [lowerOf, if_neg hpos] at hlv hls
  omega

/-- The events of a bucket weigh at least its width each, so that its widest interpolation
product is no more than the total. -/
theorem width_mul_countIn_le {i : ℕ} (hi : i ≠ 0) (R : List ℕ) :
    widthOf i * countIn bucketOf R i ≤ R.sum := by
  have hweight : countIn bucketOf R i * 2 ^ i ≤ R.sum := countP_mul_le_sum fun t _ ht ↦ by
    have hl := lowerOf_bucketOf_le t
    rwa [ht, lowerOf, if_neg hi] at hl
  rw [widthOf, if_neg hi, Nat.mul_comm]
  exact (Nat.mul_le_mul_left _ (Nat.sub_le _ _)).trans hweight

end

end P99

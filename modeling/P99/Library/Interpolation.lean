import Mathlib.Algebra.Order.Floor.Ring
import Mathlib.Algebra.Order.Field.Basic
import Mathlib.Data.Nat.Cast.Order.Field
import Mathlib.Tactic.Linarith
import Mathlib.Tactic.Positivity
import Mathlib.Tactic.Ring

namespace Interpolation

section Clamp

variable {α : Type*} [LinearOrder α] {lo lo' hi hi' x x' : α}

def clamp (lo hi x : α) : α := min hi (max lo x)

theorem clamp_mono (hlo : lo ≤ lo') (hhi : hi ≤ hi') (hx : x ≤ x') :
    clamp lo hi x ≤ clamp lo' hi' x' :=
  min_le_min hhi (max_le_max hlo hx)

theorem le_clamp (h : lo ≤ hi) : lo ≤ clamp lo hi x := le_min h (le_max_left lo x)

theorem clamp_le : clamp lo hi x ≤ hi := min_le_left _ _

theorem clamp_of_le (hx : x ≤ lo) (h : lo ≤ hi) : clamp lo hi x = lo := by
  rw [clamp, max_eq_left hx, min_eq_right h]

theorem clamp_add_le {lo hi x d : ℕ} : clamp lo hi (x + d) ≤ clamp lo hi x + d := by
  rw [clamp, clamp, ← min_add_add_right]
  apply min_le_min (Nat.le_add_right hi d)
  rw [← max_add_add_right]
  exact max_le_max (Nat.le_add_right lo d) le_rfl

theorem clamp_add_one_le {lo hi x : ℕ} : clamp lo hi (x + 1) ≤ clamp lo hi x + 1 := clamp_add_le

theorem clamp_le_add_one {lo hi x y : ℕ} (h : x ≤ y + 1) : clamp lo hi x ≤ clamp lo hi y + 1 :=
  (clamp_mono le_rfl le_rfl h).trans clamp_add_one_le

theorem clamp_mem_interval {a b : α} (hax : a ≤ x) (hxb : x ≤ b) (hlo : lo ≤ b) (hhi : a ≤ hi) :
    a ≤ clamp lo hi x ∧ clamp lo hi x ≤ b :=
  ⟨le_min hhi (hax.trans (le_max_right _ _)), (min_le_right _ _).trans (max_le hlo hxb)⟩

end Clamp

/-- The floored linear interpolant at the `k`-th of `c` equal parts of a range of width `w`. -/
def lerp (lo w c k : ℕ) : ℕ := lo + w * k / c

section Floor

variable {lo w c k k' : ℕ}

theorem le_lerp : lo ≤ lerp lo w c k := Nat.le_add_right _ _

theorem mul_div_le_width (hk : k ≤ c) : w * k / c ≤ w :=
  Nat.div_le_of_le_mul (Nat.mul_comm c w ▸ Nat.mul_le_mul_left w hk)

theorem lerp_le (hk : k ≤ c) : lerp lo w c k ≤ lo + w :=
  Nat.add_le_add_left (mul_div_le_width hk) lo

theorem lerp_mono (h : k ≤ k') : lerp lo w c k ≤ lerp lo w c k' :=
  Nat.add_le_add_left (Nat.div_le_div_right (Nat.mul_le_mul_left w h)) lo

theorem lerp_succ_le : lerp lo w c (k + 1) ≤ lerp lo w c k + (w / c + 1) := by
  rw [lerp, lerp, Nat.add_assoc]
  refine Nat.add_le_add_left ?_ lo
  rcases Nat.eq_zero_or_pos c with rfl | hc
  · rw [Nat.div_zero]
    exact Nat.zero_le _
  · rw [Nat.mul_succ, Nat.add_div hc, ← Nat.add_assoc]
    refine Nat.add_le_add_left ?_ _
    split
    · exact le_rfl
    · exact Nat.zero_le 1

section Even

variable {m : ℕ}

theorem lerp_of_even (hk : 1 ≤ k) (hkw : k ≤ m * (w + 1)) :
    lerp lo w (m * (w + 1)) k ≤ lo + (k - 1) / m ∧
      lo + (k - 1) / m ≤ lerp lo w (m * (w + 1)) k + 1 ∧
      (m = 1 → lerp lo w (m * (w + 1)) k = lo + (k - 1) / m) := by
  have hm : 0 < m := Nat.pos_of_mul_pos_right (hk.trans hkw)
  have hpos : 0 < m * (w + 1) := Nat.mul_pos hm w.succ_pos
  have hlow := Nat.mul_div_le (k - 1) m
  have hhigh := Nat.lt_mul_div_succ (k - 1) hm
  have hq : (k - 1) / m < w + 1 := (Nat.div_lt_iff_lt_mul hm).mpr (by
    rw [Nat.mul_comm]
    omega)
  generalize (k - 1) / m = q at *
  have hupper : w * k / (m * (w + 1)) ≤ q := by
    refine Nat.le_of_lt_add_one ((Nat.div_lt_iff_lt_mul hpos).mpr ?_)
    have hk' : k ≤ m * (q + 1) := by omega
    nlinarith
  have hlower : q ≤ w * k / (m * (w + 1)) + 1 := by
    rcases Nat.eq_zero_or_pos q with rfl | hqpos
    · exact Nat.zero_le _
    · obtain ⟨p, rfl⟩ : ∃ p, q = p + 1 := ⟨q - 1, by omega⟩
      refine Nat.succ_le_succ ((Nat.le_div_iff_mul_le hpos).mpr ?_)
      have hk' : m * (p + 1) + 1 ≤ k := by omega
      nlinarith
  refine ⟨Nat.add_le_add_left hupper lo, Nat.add_le_add_left hlower lo, ?_⟩
  rintro rfl
  refine congrArg (lo + ·) (hupper.antisymm ((Nat.le_div_iff_mul_le hpos).mpr ?_))
  have hk' : k = q + 1 := by omega
  rw [hk']
  nlinarith

end Even

theorem div_le_div_of_cross {x y c d : ℕ} (hd : 0 < d) (h : x * d ≤ y * c) : x / c ≤ y / d := by
  rcases Nat.eq_zero_or_pos c with rfl | hc
  · simp
  · refine (Nat.le_div_iff_mul_le hd).mpr (Nat.le_of_mul_le_mul_right ?_ hc)
    calc x / c * d * c = x / c * c * d := Nat.mul_right_comm _ _ _
      _ ≤ x * d := Nat.mul_le_mul_right d (Nat.div_mul_le_self x c)
      _ ≤ y * c := h

/-- Moving both ends of the rank interval down moves the interpolant at a fixed rank up. -/
theorem lerp_shift_le {a a' b b' r : ℕ} (ha : a' ≤ a) (hb : b' ≤ b) (har : a < r) (hrb : r ≤ b') :
    lerp lo w (b - a) (r - a) ≤ lerp lo w (b' - a') (r - a') := by
  refine Nat.add_le_add_left (div_le_div_of_cross (by omega) ?_) lo
  obtain ⟨s, rfl⟩ := Nat.exists_eq_add_of_le ha
  obtain ⟨t, rfl⟩ := Nat.exists_eq_add_of_le hb
  obtain ⟨u, rfl⟩ := Nat.exists_eq_add_of_le har.le
  obtain ⟨v, rfl⟩ := Nat.exists_eq_add_of_le hrb
  rw [show a' + s + u - (a' + s) = u by omega, show a' + s + u + v - a' = s + u + v by omega,
    show a' + s + u - a' = s + u by omega, show a' + s + u + v + t - (a' + s) = u + v + t by omega,
    Nat.mul_assoc, Nat.mul_assoc]
  refine Nat.mul_le_mul_left w ?_
  calc u * (s + u + v) ≤ u * (s + u + v) + (s * v + s * t + u * t) := Nat.le_add_right _ _
    _ = (s + u) * (u + v + t) := by ring

end Floor

section Rounding

variable {K : Type*} [Field K] [LinearOrder K] [IsStrictOrderedRing K] [FloorRing K]

/-- The nearest integer, with halves rounded away from zero. -/
def roundHalfAway (x : K) : ℤ := if 0 ≤ x then ⌊x + 1 / 2⌋ else -⌊-x + 1 / 2⌋

omit [IsStrictOrderedRing K] in
theorem roundHalfAway_of_nonneg {x : K} (hx : 0 ≤ x) : roundHalfAway x = ⌊x + 1 / 2⌋ := if_pos hx

theorem le_roundHalfAway {n : ℕ} {x : K} (h : (n : K) ≤ x) : (n : ℤ) ≤ roundHalfAway x := by
  rw [roundHalfAway_of_nonneg (n.cast_nonneg.trans h), Int.le_floor, Int.cast_natCast]
  linarith

theorem roundHalfAway_le {n : ℕ} {x : K} (hx : 0 ≤ x) (h : x ≤ n) :
    roundHalfAway x ≤ (n : ℤ) := by
  rw [roundHalfAway_of_nonneg hx, ← Int.lt_add_one_iff, Int.floor_lt, Int.cast_add,
    Int.cast_natCast, Int.cast_one]
  linarith

omit [IsStrictOrderedRing K] in
theorem le_roundHalfAway_of_le_add_half {n : ℕ} {x : K} (hx : 0 ≤ x) (h : (n : K) ≤ x + 1 / 2) :
    (n : ℤ) ≤ roundHalfAway x := by
  rwa [roundHalfAway_of_nonneg hx, Int.le_floor, Int.cast_natCast]

theorem roundHalfAway_le_of_lt_add_half {n : ℕ} {x : K} (hx : 0 ≤ x) (h : x < n + 1 / 2) :
    roundHalfAway x ≤ (n : ℤ) := by
  rw [roundHalfAway_of_nonneg hx, ← Int.lt_add_one_iff, Int.floor_lt, Int.cast_add,
    Int.cast_natCast, Int.cast_one]
  linarith

theorem exists_roundHalfAway {lo hi : ℕ} {x : K} (hlo : (lo : K) ≤ x) (hhi : x ≤ hi) :
    ∃ v : ℕ, roundHalfAway x = v ∧ lo ≤ v ∧ v ≤ hi := by
  have hlower := le_roundHalfAway hlo
  have hupper := roundHalfAway_le (lo.cast_nonneg.trans hlo) hhi
  obtain ⟨v, hv⟩ := Int.eq_ofNat_of_zero_le ((Int.natCast_nonneg lo).trans hlower)
  rw [hv] at hlower hupper
  exact ⟨v, hv, Int.ofNat_le.mp hlower, Int.ofNat_le.mp hupper⟩

theorem roundHalfAway_mono {x y : K} (hxy : x ≤ y) : roundHalfAway x ≤ roundHalfAway y := by
  rw [roundHalfAway, roundHalfAway]
  split
  · next hx =>
    rw [if_pos (hx.trans hxy)]
    exact Int.floor_le_floor (by linarith)
  · next hx =>
    have hneg : 0 ≤ ⌊-x + 1 / 2⌋ := Int.floor_nonneg.mpr (by linarith)
    split
    · have hpos : 0 ≤ ⌊y + 1 / 2⌋ := Int.floor_nonneg.mpr (by linarith)
      omega
    · have hle : ⌊-y + 1 / 2⌋ ≤ ⌊-x + 1 / 2⌋ := Int.floor_le_floor (by linarith)
      omega

theorem roundHalfAway_le_add_one {x y : K} (hy : 0 ≤ y) (h : x ≤ y + 1) :
    roundHalfAway x ≤ roundHalfAway y + 1 := by
  refine (roundHalfAway_mono h).trans_eq ?_
  rw [roundHalfAway_of_nonneg hy, roundHalfAway_of_nonneg (by linarith), add_right_comm,
    Int.floor_add_one]

theorem fraction_mem_range {lo w t c : K} (hw : 0 ≤ w) (ht : 0 ≤ t) (hc : 0 < c) (htc : t ≤ c) :
    lo ≤ lo + w * (t / c) ∧ lo + w * (t / c) ≤ lo + w := by
  have hone : t / c ≤ 1 := (div_le_one hc).mpr htc
  have hnonneg : 0 ≤ t / c := by positivity
  constructor
  · have := mul_nonneg hw hnonneg
    linarith
  · have := mul_le_mul_of_nonneg_left hone hw
    linarith

omit [FloorRing K] in
theorem fraction_shift_le {a a' b b' t : K} (ha : a' ≤ a) (hb : b' ≤ b) (hat : a ≤ t) (htb : t ≤ b')
    (hab : a < b) (hab' : a' < b') : (t - a) / (b - a) ≤ (t - a') / (b' - a') := by
  rw [div_le_div_iff₀ (sub_pos.mpr hab) (sub_pos.mpr hab')]
  have hcross : (t - a') * (b - a) - (t - a) * (b' - a') =
      (t - a) * (b - b') + (a - a') * (b' - t) + (a - a') * (b - b') := by ring
  have hright := mul_nonneg (sub_nonneg.mpr hat) (sub_nonneg.mpr hb)
  have hleft := mul_nonneg (sub_nonneg.mpr ha) (sub_nonneg.mpr htb)
  have hboth := mul_nonneg (sub_nonneg.mpr ha) (sub_nonneg.mpr hb)
  linarith

section Fraction

variable {lo w c k : ℕ} {t : K}

omit [FloorRing K] in
theorem lerp_le_fraction (hk : k ≤ t) : (lerp lo w c k : K) ≤ lo + w * (t / c) := by
  have hfloor : ((w * k / c : ℕ) : K) ≤ w * k / c := by
    have hle := Nat.cast_div_le (α := K) (m := w * k) (n := c)
    rwa [Nat.cast_mul] at hle
  have hscale : (w : K) * k / c ≤ w * (t / c) := by
    rw [mul_div_assoc]
    gcongr
  rw [lerp, Nat.cast_add]
  linarith

omit [FloorRing K] in
theorem fraction_le_lerp_add_one (hc : 0 < c) (ht : t ≤ k) :
    lo + w * (t / c) ≤ (lerp lo w c k + 1 : ℕ) := by
  have hpos : (0 : K) < c := Nat.cast_pos.mpr hc
  have hfloor : (w : K) * k / c ≤ ((w * k / c : ℕ) : K) + 1 := by
    rw [div_le_iff₀ hpos]
    have hle : w * k ≤ (w * k / c + 1) * c := (Nat.lt_mul_of_div_lt (Nat.lt_succ_self _) hc).le
    exact_mod_cast hle
  have hscale : (w : K) * (t / c) ≤ w * k / c := by
    rw [mul_div_assoc]
    gcongr
  rw [lerp, Nat.cast_add, Nat.cast_add, Nat.cast_one]
  linarith

end Fraction

end Rounding

end Interpolation

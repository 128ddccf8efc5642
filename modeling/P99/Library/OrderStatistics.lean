import Mathlib.Data.List.GetD
import Mathlib.Data.List.Sort
import Mathlib.Order.Bounds.Basic
import Mathlib.Algebra.BigOperators.Fin
import Mathlib.Algebra.BigOperators.Group.List.Basic
import Mathlib.Algebra.GroupWithZero.Nat

namespace OrderStatistics

section Sorted

variable {α : Type*} [LinearOrder α]

/-- In a sorted list the entries satisfying a downward closed property form
an initial segment, whose length is their number. -/
theorem getElem_iff_lt_countP {p : α → Prop} [DecidablePred p]
    (hp : ∀ x y, x ≤ y → p y → p x) {s : List α} (hs : s.Pairwise (· ≤ ·))
    (k : ℕ) (hk : k < s.length) : p s[k] ↔ k < s.countP p := by
  induction s generalizing k with
  | nil => simp at hk
  | cons x s ih =>
    obtain ⟨hx, hs⟩ := List.pairwise_cons.mp hs
    by_cases hpx : p x
    · rw [List.countP_cons_of_pos (by simpa using hpx)]
      cases k with
      | zero => simp [hpx]
      | succ k =>
        rw [List.getElem_cons_succ, ih hs k (by simpa using hk)]
        omega
    · have hnone : ∀ y ∈ x :: s, ¬ p y := by
        intro y hy hpy
        rcases List.mem_cons.mp hy with rfl | hy
        · exact hpx hpy
        · exact hpx (hp x y (hx y hy) hpy)
      have hzero : (x :: s).countP p = 0 := by
        simpa [List.countP_eq_zero] using hnone
      rw [hzero]
      simpa using hnone _ (List.getElem_mem hk)

end Sorted

section Counts

variable {α ι : Type*} [LinearOrder ι]

def countBelow (f : α → ι) (l : List α) (i : ι) : ℕ := l.countP (f · < i)

def countIn (f : α → ι) (l : List α) (i : ι) : ℕ := l.countP (f · = i)

theorem countBelow_le_length (f : α → ι) (l : List α) (i : ι) :
    countBelow f l i ≤ l.length := List.countP_le_length

theorem countIn_le_length (f : α → ι) (l : List α) (i : ι) :
    countIn f l i ≤ l.length := List.countP_le_length

theorem countP_le_eq (f : α → ι) (l : List α) (i : ι) :
    l.countP (f · ≤ i) = countBelow f l i + countIn f l i := by
  induction l with
  | nil => rfl
  | cons x l ih =>
    simp only [countBelow, countIn, List.countP_cons, decide_eq_true_eq] at ih ⊢
    rcases lt_trichotomy (f x) i with hx | hx | hx
    · simp only [hx, hx.le, hx.ne, if_true, if_false]; omega
    · simp only [hx, lt_irrefl, le_refl, if_true, if_false]; omega
    · simp only [hx.not_ge, hx.not_gt, hx.ne', if_false]; omega

theorem countBelow_add_countIn (f : α → ι) (l : List α) {i j : ι} (h : i < j) :
    countBelow f l i + countIn f l i ≤ countBelow f l j := by
  rw [← countP_le_eq]
  refine List.countP_mono_left fun x _ hx ↦ ?_
  simp only [decide_eq_true_eq] at hx ⊢
  exact hx.trans_lt h

theorem countBelow_zero (f : α → ℕ) (l : List α) : countBelow f l 0 = 0 := by
  simp [countBelow]

theorem countBelow_succ (f : α → ℕ) (l : List α) (i : ℕ) :
    countBelow f l (i + 1) = countBelow f l i + countIn f l i := by
  rw [← countP_le_eq]
  exact List.countP_congr fun x _ ↦ by
    rw [decide_eq_true_iff, decide_eq_true_iff, Nat.lt_succ_iff]

end Counts

variable {α : Type*} [LinearOrder α] [Inhabited α]

/-- The `r`-th smallest entry of a list, counted from one. -/
def orderStatistic (l : List α) (r : ℕ) : α := (l.mergeSort (· ≤ ·)).getD (r - 1) default

variable {l : List α} {r : ℕ}

theorem orderStatistic_eq_getElem (hr : 1 ≤ r) (hrl : r ≤ l.length) :
    orderStatistic l r = (l.mergeSort (· ≤ ·)).get
      ⟨r - 1, by rw [List.length_mergeSort]; omega⟩ := by
  rw [orderStatistic, List.getD_eq_getElem _ _ (by rw [List.length_mergeSort]; omega)]
  rfl

theorem orderStatistic_mem (hr : 1 ≤ r) (hrl : r ≤ l.length) : orderStatistic l r ∈ l := by
  rw [orderStatistic_eq_getElem hr hrl]
  exact List.mem_mergeSort.mp (List.get_mem _ _)

theorem orderStatistic_of_sorted (hl : l.Pairwise (· ≤ ·)) (r : ℕ) :
    orderStatistic l r = l.getD (r - 1) default := by
  have hsorted : l.Pairwise fun x y ↦ decide (x ≤ y) = true := by simpa using hl
  rw [orderStatistic, List.mergeSort_of_pairwise hsorted]

theorem orderStatistic_iff_le_countP {p : α → Prop} [DecidablePred p]
    (hp : ∀ x y, x ≤ y → p y → p x) (hr : 1 ≤ r) (hrl : r ≤ l.length) :
    p (orderStatistic l r) ↔ r ≤ l.countP p := by
  have hk : r - 1 < (l.mergeSort (· ≤ ·)).length := by rw [List.length_mergeSort]; omega
  have h := getElem_iff_lt_countP hp (List.pairwise_mergeSort' (· ≤ ·) l) (r - 1) hk
  rw [List.Perm.countP_eq _ (List.mergeSort_perm l _)] at h
  rw [orderStatistic_eq_getElem hr hrl]
  exact h.trans (by omega)

theorem orderStatistic_mono {r' : ℕ} (hr : 1 ≤ r) (hrr : r ≤ r') (hrl : r' ≤ l.length) :
    orderStatistic l r ≤ orderStatistic l r' := by
  have hp : ∀ x y : α, x ≤ y → y ≤ orderStatistic l r' → x ≤ orderStatistic l r' :=
    fun _ _ ↦ le_trans
  have h := (orderStatistic_iff_le_countP hp (hr.trans hrr) hrl).mp le_rfl
  exact (orderStatistic_iff_le_countP hp hr (hrr.trans hrl)).mpr (hrr.trans h)

theorem orderStatistic_one_le {x : α} (hx : x ∈ l) : orderStatistic l 1 ≤ x := by
  have hpos : 0 < l.countP (· ≤ x) := List.countP_pos_iff.mpr ⟨x, hx, by simp⟩
  exact (orderStatistic_iff_le_countP (p := (· ≤ x)) (fun _ _ ↦ le_trans) le_rfl
    (List.length_pos_of_mem hx)).mpr hpos

theorem le_orderStatistic_length {x : α} (hx : x ∈ l) : x ≤ orderStatistic l l.length := by
  have hlen : 1 ≤ l.length := List.length_pos_of_mem hx
  by_contra hlt
  have h := (orderStatistic_iff_le_countP (p := (· < x)) (fun _ _ ↦ lt_of_le_of_lt) hlen
    le_rfl).mp (not_le.mp hlt)
  have hall : l.countP (· < x) = l.length := le_antisymm List.countP_le_length h
  have hself := List.countP_eq_length.mp hall x hx
  simp at hself

theorem isLeast_orderStatistic_one (hl : l ≠ []) : IsLeast {x | x ∈ l} (orderStatistic l 1) :=
  ⟨orderStatistic_mem le_rfl (List.length_pos_of_ne_nil hl), fun _ ↦ orderStatistic_one_le⟩

theorem isGreatest_orderStatistic_length (hl : l ≠ []) :
    IsGreatest {x | x ∈ l} (orderStatistic l l.length) :=
  ⟨orderStatistic_mem (List.length_pos_of_ne_nil hl) le_rfl, fun _ ↦ le_orderStatistic_length⟩

section Interlacing

variable {l' e : List α} (hperm : l'.Perm (l ++ e))

include hperm

omit [LinearOrder α] [Inhabited α] in
theorem countP_of_perm_append (p : α → Prop) [DecidablePred p] :
    l.countP p ≤ l'.countP p ∧ l'.countP p ≤ l.countP p + e.length := by
  have hextra : e.countP p ≤ e.length := List.countP_le_length
  rw [hperm.countP_eq, List.countP_append]
  omega

theorem orderStatistic_le_of_perm_append (hr : 1 ≤ r) (hrl : r ≤ l.length) :
    orderStatistic l' r ≤ orderStatistic l r := by
  have hlength := hperm.length_eq
  rw [List.length_append] at hlength
  have hp : ∀ x y : α, x ≤ y → y ≤ orderStatistic l r → x ≤ orderStatistic l r :=
    fun _ _ ↦ le_trans
  have hcount := (orderStatistic_iff_le_countP hp hr hrl).mp le_rfl
  have hmore := (countP_of_perm_append hperm (· ≤ orderStatistic l r)).1
  exact (orderStatistic_iff_le_countP hp hr (by omega)).mpr (hcount.trans hmore)

theorem le_orderStatistic_of_perm_append (hr : 1 ≤ r) (hrl : r ≤ l.length) :
    orderStatistic l r ≤ orderStatistic l' (r + e.length) := by
  have hlength := hperm.length_eq
  rw [List.length_append] at hlength
  have hp : ∀ x y : α, x ≤ y → y ≤ orderStatistic l' (r + e.length) →
      x ≤ orderStatistic l' (r + e.length) := fun _ _ ↦ le_trans
  have hcount := (orderStatistic_iff_le_countP (l := l') hp (by omega) (by omega)).mp le_rfl
  have hmore := (countP_of_perm_append hperm (· ≤ orderStatistic l' (r + e.length))).2
  exact (orderStatistic_iff_le_countP hp hr hrl).mpr (by omega)

omit [LinearOrder α] [Inhabited α] in
theorem countBelow_of_perm_append {ι : Type*} [LinearOrder ι] (f : α → ι) (i : ι) :
    countBelow f l i ≤ countBelow f l' i ∧ countBelow f l' i ≤ countBelow f l i + e.length :=
  countP_of_perm_append hperm (f · < i)

end Interlacing

section Classes

variable {ι : Type*} [LinearOrder ι] {f : α → ι} {i : ι}

theorem class_lt_iff (hf : Monotone f) (hr : 1 ≤ r) (hrl : r ≤ l.length) :
    f (orderStatistic l r) < i ↔ r ≤ countBelow f l i :=
  orderStatistic_iff_le_countP (p := (f · < i)) (fun _ _ h ↦ (hf h).trans_lt) hr hrl

theorem countBelow_lt (hf : Monotone f) (hr : 1 ≤ r) (hrl : r ≤ l.length) :
    countBelow f l (f (orderStatistic l r)) < r :=
  not_le.mp fun h ↦ lt_irrefl _ ((class_lt_iff hf hr hrl).mpr h)

theorem le_countBelow_add_countIn (hf : Monotone f) (hr : 1 ≤ r) (hrl : r ≤ l.length) :
    r ≤ countBelow f l (f (orderStatistic l r)) + countIn f l (f (orderStatistic l r)) := by
  rw [← countP_le_eq]
  exact (orderStatistic_iff_le_countP (p := (f · ≤ f (orderStatistic l r)))
    (fun _ _ h ↦ (hf h).trans) hr hrl).mp le_rfl

theorem countIn_pos (hr : 1 ≤ r) (hrl : r ≤ l.length) :
    0 < countIn f l (f (orderStatistic l r)) :=
  List.countP_pos_iff.mpr ⟨_, orderStatistic_mem hr hrl, by simp⟩

theorem countBelow_antitone_of_dominates (hf : Monotone f) {l' : List α}
    (hlen : l.length = l'.length)
    (h : ∀ r, 1 ≤ r → r ≤ l.length → orderStatistic l r ≤ orderStatistic l' r) (i : ι) :
    countBelow f l' i ≤ countBelow f l i := by
  rcases Nat.eq_zero_or_pos (countBelow f l' i) with hz | hpos
  · omega
  · have hle : countBelow f l' i ≤ l.length := hlen ▸ countBelow_le_length f l' i
    have hlt := (class_lt_iff hf hpos (hlen ▸ hle)).mpr (le_refl (countBelow f l' i))
    exact (class_lt_iff hf hpos hle).mp ((hf (h _ hpos hle)).trans_lt hlt)

end Classes

section Even

variable {l : List ℕ} {a m w k : ℕ}

theorem countBelow_of_even (heven : ∀ t, a ≤ t → t < a + w → l.count t = m) (hk : k ≤ w) :
    countBelow id l (a + k) = countBelow id l a + m * k := by
  induction k with
  | zero => rfl
  | succ k ih =>
    have hcount : countIn id l (a + k) = m := by
      rw [← heven (a + k) (Nat.le_add_right a k) (Nat.add_lt_add_left hk a), List.count]
      exact List.countP_congr fun x _ ↦ by simp
    rw [← Nat.add_assoc, countBelow_succ, ih (Nat.le_of_succ_le hk), hcount, Nat.mul_succ,
      Nat.add_assoc]

theorem orderStatistic_of_even (heven : ∀ t, a ≤ t → t < a + w → l.count t = m) (hk : 1 ≤ k)
    (hkw : k ≤ m * w) : orderStatistic l (countBelow id l a + k) = a + (k - 1) / m := by
  have hm : 0 < m := Nat.pos_of_mul_pos_right (hk.trans hkw)
  have hq : (k - 1) / m < w := (Nat.div_lt_iff_lt_mul hm).mpr (by
    rw [Nat.mul_comm]
    omega)
  have hlow := Nat.mul_div_le (k - 1) m
  have hhigh := Nat.lt_mul_div_succ (k - 1) hm
  have hr : 1 ≤ countBelow id l a + k := by omega
  have hrl : countBelow id l a + k ≤ l.length := by
    have htotal := countBelow_le_length id l (a + w)
    rw [countBelow_of_even heven le_rfl] at htotal
    omega
  apply le_antisymm
  · have hlt := class_lt_iff monotone_id hr hrl (i := a + ((k - 1) / m + 1))
    rw [countBelow_of_even heven (k := (k - 1) / m + 1) hq] at hlt
    have hle : orderStatistic l (countBelow id l a + k) < a + ((k - 1) / m + 1) :=
      hlt.mpr (by omega)
    omega
  · refine not_lt.mp fun hlt ↦ ?_
    have hle := (class_lt_iff monotone_id hr hrl (i := a + (k - 1) / m)).mp hlt
    rw [countBelow_of_even heven hq.le] at hle
    omega

end Even

theorem countP_mul_le_sum {p : ℕ → Prop} [DecidablePred p] {c : ℕ} {l : List ℕ}
    (h : ∀ x ∈ l, p x → c ≤ x) : l.countP p * c ≤ l.sum := by
  induction l with
  | nil => simp
  | cons x l ih =>
    have ih := ih fun y hy ↦ h y (List.mem_cons_of_mem x hy)
    rw [List.sum_cons, List.countP_cons, Nat.add_mul]
    by_cases hx : p x
    · have hc := h x List.mem_cons_self hx
      simp only [hx, decide_true, if_true, Nat.one_mul]
      omega
    · simp only [hx, decide_false, Bool.false_eq_true, if_false, Nat.zero_mul]
      omega

theorem sum_countIn_mul_le {f c : ℕ → ℕ} {l : List ℕ} (h : ∀ x ∈ l, c (f x) ≤ x) (n : ℕ) :
    ∑ i : Fin n, countIn f l i * c i ≤ l.sum := by
  rw [Fin.sum_univ_eq_sum_range fun i ↦ countIn f l i * c i]
  induction l with
  | nil => simp [countIn]
  | cons x l ih =>
    have hl := ih fun y hy ↦ h y (List.mem_cons_of_mem x hy)
    have hcount : ∀ i, countIn f (x :: l) i * c i =
        countIn f l i * c i + if f x = i then c i else 0 := by
      intro i
      rw [countIn, List.countP_cons, Nat.add_mul, ite_mul, Nat.one_mul, Nat.zero_mul, countIn]
      simp only [decide_eq_true_eq]
    have hx : (∑ i ∈ Finset.range n, if f x = i then c i else 0) ≤ x := by
      rw [Finset.sum_ite_eq]
      split
      · exact h x List.mem_cons_self
      · exact Nat.zero_le x
    simp only [hcount, Finset.sum_add_distrib, List.sum_cons]
    omega

end OrderStatistics

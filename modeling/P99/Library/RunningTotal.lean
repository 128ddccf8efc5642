import Mathlib.Algebra.Group.Defs
import Mathlib.Data.List.FinRange
import Mathlib.Order.Bounds.Basic
import Mathlib.Order.MinMax

namespace RunningTotal

variable {ι : Type*}

section Search

variable {M : Type*} [Add M] [Zero M] [LT M] [DecidableLT M]

/-- The first index, with the total before it, at which the running total of the
positive weights satisfies `hit`. -/
def firstHit (w : ι → M) (hit : M → Prop) [DecidablePred hit] : List ι → M → Option (ι × M)
  | [], _ => none
  | i :: is, acc =>
    if 0 < w i then
      if hit (acc + w i) then some (i, acc) else firstHit w hit is (acc + w i)
    else firstHit w hit is acc

variable {w : ι → M} {hit : M → Prop} [DecidablePred hit]

theorem firstHit_skip {i : ι} {is : List ι} {acc : M} (hw : ¬ 0 < w i) :
    firstHit w hit (i :: is) acc = firstHit w hit is acc := if_neg hw

theorem firstHit_miss {i : ι} {is : List ι} {acc : M} (hw : 0 < w i) (hn : ¬ hit (acc + w i)) :
    firstHit w hit (i :: is) acc = firstHit w hit is (acc + w i) := by
  rw [firstHit, if_pos hw, if_neg hn]

theorem firstHit_found {i : ι} {is : List ι} {acc : M} (hw : 0 < w i) (hh : hit (acc + w i)) :
    firstHit w hit (i :: is) acc = some (i, acc) := by
  rw [firstHit, if_pos hw, if_pos hh]

theorem firstHit_some {i : ι} {is : List ι} {acc prev : M}
    (h : firstHit w hit is acc = some (i, prev)) : 0 < w i ∧ hit (prev + w i) := by
  induction is generalizing acc with
  | nil => cases h
  | cons j is ih =>
    rw [firstHit] at h
    split at h
    · next hw =>
      split at h
      · next hh =>
        cases h
        exact ⟨hw, hh⟩
      · exact ih h
    · exact ih h

theorem firstHit_congr {hit' : M → Prop} [DecidablePred hit'] (hhit : ∀ acc, hit acc ↔ hit' acc)
    (is : List ι) (acc : M) : firstHit w hit is acc = firstHit w hit' is acc := by
  induction is generalizing acc with
  | nil => rfl
  | cons i is ih =>
    rw [firstHit, firstHit]
    simp only [hhit, ih]

section Totals

variable {n : ℕ} {v : Fin n → M} (total : ℕ → M)

theorem finRange_drop (i : Fin n) :
    (List.finRange n).drop i = i :: (List.finRange n).drop (i + 1) := by
  rw [List.drop_eq_getElem_cons (by simp)]
  simp

/-- A walk that starts at index `k` with the total up to `k` stops at `i`, when `i` is the
first index from `k` on that has weight and whose total satisfies `hit`. -/
theorem firstHit_drop (hstep : ∀ j : Fin n, 0 < v j → total (j + 1) = total j + v j)
    (hflat : ∀ j : Fin n, ¬ 0 < v j → total (j + 1) = total j) {i : Fin n} (hv : 0 < v i)
    (hh : hit (total (i + 1))) {k : ℕ} (hk : k ≤ i)
    (hmiss : ∀ j : Fin n, k ≤ j → j < i → 0 < v j → ¬ hit (total (j + 1))) :
    firstHit v hit ((List.finRange n).drop k) (total k) = some (i, total i) := by
  induction hd : (i : ℕ) - k generalizing k with
  | zero =>
    obtain rfl : k = i := by omega
    rw [finRange_drop, firstHit_found hv (hstep i hv ▸ hh)]
  | succ d ih =>
    have hkn : k < n := by omega
    have hki : (⟨k, hkn⟩ : Fin n) < i := by rw [Fin.lt_def]; dsimp only; omega
    have hrest := ih (k := k + 1) (by omega) (fun j hj ↦ hmiss j (by omega)) (by omega)
    rw [finRange_drop ⟨k, hkn⟩]
    by_cases hw : 0 < v ⟨k, hkn⟩
    · rw [firstHit_miss hw (hstep ⟨k, hkn⟩ hw ▸ hmiss ⟨k, hkn⟩ le_rfl hki hw),
        ← hstep ⟨k, hkn⟩ hw]
      exact hrest
    · rw [firstHit_skip hw]
      exact hflat ⟨k, hkn⟩ hw ▸ hrest

theorem firstHit_drop_none (hstep : ∀ j : Fin n, 0 < v j → total (j + 1) = total j + v j)
    (hflat : ∀ j : Fin n, ¬ 0 < v j → total (j + 1) = total j) {k : ℕ} (hk : k ≤ n)
    (hmiss : ∀ j : Fin n, 0 < v j → ¬ hit (total (j + 1))) :
    firstHit v hit ((List.finRange n).drop k) (total k) = none := by
  induction hd : n - k generalizing k with
  | zero =>
    rw [List.drop_eq_nil_of_le (by simp; omega)]
    rfl
  | succ d ih =>
    have hkn : k < n := by omega
    have hrest := ih (k := k + 1) (by omega) (by omega)
    rw [finRange_drop ⟨k, hkn⟩]
    by_cases hw : 0 < v ⟨k, hkn⟩
    · rw [firstHit_miss hw (hstep ⟨k, hkn⟩ hw ▸ hmiss ⟨k, hkn⟩ hw), ← hstep ⟨k, hkn⟩ hw]
      exact hrest
    · rw [firstHit_skip hw]
      exact hflat ⟨k, hkn⟩ hw ▸ hrest

theorem firstHit_finRange (hit : M → Prop) [DecidablePred hit] (total : ℕ → M)
    (hstep : ∀ j : Fin n, 0 < v j → total (j + 1) = total j + v j)
    (hflat : ∀ j : Fin n, ¬ 0 < v j → total (j + 1) = total j) {i : Fin n} (hv : 0 < v i)
    (hh : hit (total (i + 1))) (hmiss : ∀ j : Fin n, j < i → 0 < v j → ¬ hit (total (j + 1))) :
    firstHit v hit (List.finRange n) (total 0) = some (i, total i) :=
  firstHit_drop total hstep hflat hv hh (Nat.zero_le _) fun j _ ↦ hmiss j

theorem firstHit_finRange_none (hit : M → Prop) [DecidablePred hit] (total : ℕ → M)
    (hstep : ∀ j : Fin n, 0 < v j → total (j + 1) = total j + v j)
    (hflat : ∀ j : Fin n, ¬ 0 < v j → total (j + 1) = total j)
    (hmiss : ∀ j : Fin n, 0 < v j → ¬ hit (total (j + 1))) :
    firstHit v hit (List.finRange n) (total 0) = none :=
  firstHit_drop_none total hstep hflat (Nat.zero_le n) hmiss

end Totals

end Search

section Sums

variable {M : Type*} [Add M]

theorem foldl_finRange {n : ℕ} {v : Fin n → M} (total : ℕ → M)
    (hstep : ∀ j : Fin n, total (j + 1) = total j + v j) :
    (List.finRange n).foldl (fun acc j ↦ acc + v j) (total 0) = total n := by
  induction n with
  | zero => rfl
  | succ n ih =>
    rw [List.finRange_succ_last, List.foldl_append, List.foldl_map,
      ih fun j ↦ hstep j.castSucc]
    exact (hstep (Fin.last n)).symm

theorem foldl_flat {v : ι → M} {is : List ι} (hflat : ∀ i ∈ is, ∀ acc, acc + v i = acc)
    (acc : M) :
    is.foldl (fun acc i ↦ acc + v i) acc = acc := by
  induction is generalizing acc with
  | nil => rfl
  | cons i is ih =>
    rw [List.foldl_cons, hflat i List.mem_cons_self]
    exact ih (fun j hj ↦ hflat j (List.mem_cons_of_mem i hj)) acc

end Sums

section Maxima

variable {α : Type*} [LinearOrder α]

/-- The largest entry so far, when `x` follows entries whose largest is `m`. -/
def raise : Option α → α → α
  | none, x => x
  | some m, x => max m x

def runningMax : Option α → List α → List α
  | _, [] => []
  | m, x :: xs => raise m x :: runningMax (some (raise m x)) xs

theorem le_raise (m : Option α) (x : α) : x ≤ raise m x := by
  cases m with
  | none => exact le_rfl
  | some m => exact le_max_right m x

theorem le_raise_of_mem {m : Option α} {x y : α} (hy : y ∈ m) : y ≤ raise m x := by
  cases hy
  exact le_max_left y x

theorem raise_mem (m : Option α) (x : α) : raise m x ∈ m ∨ raise m x = x := by
  cases m with
  | none => exact .inr rfl
  | some m =>
    rcases max_choice m x with hmax | hmax
    · exact .inl (congrArg some hmax.symm)
    · exact .inr hmax

theorem raise_eq {m : Option α} {x : α} (hm : ∀ y ∈ m, y ≤ x) : raise m x = x :=
  (raise_mem m x).elim (fun hmem ↦ (hm _ hmem).antisymm (le_raise m x)) id

theorem isGreatest_runningMax (m : Option α) {xs : List α} {k : ℕ} (hk : k < xs.length) :
    ∃ y, (runningMax m xs)[k]? = some y ∧ IsGreatest {x | x ∈ m ∨ x ∈ xs.take (k + 1)} y := by
  induction xs generalizing m k with
  | nil => cases hk
  | cons x xs ih =>
    cases k with
    | zero =>
      refine ⟨raise m x, rfl, ?_, ?_⟩
      · simpa using raise_mem m x
      · rintro y (hy | hy)
        · exact le_raise_of_mem hy
        · rw [List.take_succ_cons, List.take_zero, List.mem_singleton] at hy
          exact hy ▸ le_raise m x
    | succ k =>
      obtain ⟨y, hget, hmem, hmax⟩ := ih (some (raise m x)) (Nat.lt_of_succ_lt_succ hk)
      refine ⟨y, hget, ?_, ?_⟩
      · rcases hmem with hmem | hmem
        · cases hmem
          rcases raise_mem m x with hx | hx
          · exact .inl hx
          · right
            rw [hx]
            exact List.mem_cons_self
        · exact .inr (List.mem_cons_of_mem x hmem)
      · rintro z (hz | hz)
        · exact (le_raise_of_mem hz).trans (hmax (.inl rfl))
        · rcases List.mem_cons.mp hz with rfl | hz
          · exact (le_raise m z).trans (hmax (.inl rfl))
          · exact hmax (.inr hz)

theorem le_of_mem_runningMax {x y : α} {xs : List α} (hy : y ∈ runningMax (some x) xs) :
    x ≤ y := by
  induction xs generalizing x with
  | nil => cases hy
  | cons z xs ih =>
    have hx : x ≤ raise (some x) z := le_raise_of_mem rfl
    rcases List.mem_cons.mp hy with rfl | hy
    · exact hx
    · exact hx.trans (ih hy)

theorem runningMax_pairwise (m : Option α) (xs : List α) : (runningMax m xs).Pairwise (· ≤ ·) := by
  induction xs generalizing m with
  | nil => exact .nil
  | cons x xs ih => exact .cons (fun _ ↦ le_of_mem_runningMax) (ih _)

theorem runningMax_of_sorted {m : Option α} {xs : List α} (hm : ∀ y ∈ m, ∀ x ∈ xs, y ≤ x)
    (hxs : xs.Pairwise (· ≤ ·)) : runningMax m xs = xs := by
  induction xs generalizing m with
  | nil => rfl
  | cons x xs ih =>
    have hx : raise m x = x := raise_eq fun y hy ↦ hm y hy x List.mem_cons_self
    rw [runningMax, hx, ih ?_ (List.pairwise_cons.mp hxs).2]
    intro y hy z hz
    cases hy
    exact (List.pairwise_cons.mp hxs).1 z hz

end Maxima

end RunningTotal

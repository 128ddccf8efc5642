import Mathlib.Data.Nat.Notation
import Mathlib.Logic.Function.Basic

namespace Objects

/-- A class of values: construction in storage of any content, and methods, which may return
something. -/
structure Machine (σ α β : Type*) where
  construct : σ → σ
  call : σ → α → σ × Option β

inductive Statement (ι α : Type*)
  | construct (x : ι)
  | copy (target source : ι)
  | call (x : ι) (method : α)

def Statement.Allowed {ι α : Type*} (allowed : α → Prop) : Statement ι α → Prop
  | .construct _ => True
  | .copy _ _ => True
  | .call _ a => allowed a

variable {ι σ τ α β : Type*}

namespace Machine

def run (M : Machine σ α β) (s : σ) : List α → σ × List (Option β)
  | [] => (s, [])
  | a :: as =>
    let (s', b) := M.call s a
    let (s'', bs) := M.run s' as
    (s'', b :: bs)

/-- The class of the stores that give each variable a value. A copy shares nothing with its
source. -/
def store [DecidableEq ι] (M : Machine σ α β) : Machine (ι → σ) (Statement ι α) β where
  construct objects x := M.construct (objects x)
  call objects
    | .construct x => (Function.update objects x (M.construct (objects x)), none)
    | .copy x y => (Function.update objects x (objects y), none)
    | .call x a => (Function.update objects x (M.call (objects x) a).1, (M.call (objects x) a).2)

end Machine

theorem forall_update [DecidableEq ι] {P : σ → Prop} {f : ι → σ} (hf : ∀ x, P (f x)) (x : ι) {s : σ}
    (hs : P s) (y : ι) : P (Function.update f x s y) := by
  by_cases hy : y = x
  · subst hy
    rwa [Function.update_self]
  · rw [Function.update_of_ne hy]
    exact hf y

/-- What a value has after so many calls, each of which raises the grade by one. -/
structure Graded (M : Machine σ α β) (P : ℕ → σ → Prop) : Prop where
  construct : ∀ n s, P n (M.construct s)
  mono : ∀ {n s}, P n s → P (n + 1) s
  call : ∀ {n s} a, P n s → P (n + 1) (M.call s a).1

namespace Graded

variable {M N : Machine σ α β} {P : ℕ → σ → Prop} {n : ℕ}

theorem run (h : Graded M P) (as : List α) {s : σ} (hs : P n s) :
    P (n + as.length) (M.run s as).1 := by
  induction as generalizing n s with
  | nil => exact hs
  | cons a as ih =>
    rw [List.length_cons, Nat.add_comm as.length, ← Nat.add_assoc]
    exact ih (h.call a hs)

theorem store [DecidableEq ι] (h : Graded M P) :
    Graded M.store (fun n (f : ι → σ) ↦ ∀ x, P n (f x)) where
  construct n f x := h.construct n (f x)
  mono hf x := h.mono (hf x)
  call {n f} a hf := by
    have hnext : ∀ x, P (n + 1) (f x) := fun x ↦ h.mono (hf x)
    cases a with
    | construct x => exact forall_update hnext x (h.construct _ _)
    | copy x y => exact forall_update hnext x (hnext y)
    | call x a => exact forall_update hnext x (h.call a (hf x))

end Graded

/-- A relation that construction establishes and allowed calls keep, with equal results. -/
structure Simulates (M : Machine σ α β) (N : Machine τ α β) (allowed : α → Prop)
    (rel : σ → τ → Prop) : Prop where
  construct : ∀ s t, rel (M.construct s) (N.construct t)
  state : ∀ {s t a}, rel s t → allowed a → rel (M.call s a).1 (N.call t a).1
  result : ∀ {s t a}, rel s t → allowed a → (M.call s a).2 = (N.call t a).2

namespace Simulates

variable {M : Machine σ α β} {N : Machine τ α β} {allowed : α → Prop} {rel : σ → τ → Prop}

theorem run (h : Simulates M N allowed rel) {as : List α} (has : ∀ a ∈ as, allowed a) {s : σ}
    {t : τ} (hst : rel s t) :
    rel (M.run s as).1 (N.run t as).1 ∧ (M.run s as).2 = (N.run t as).2 := by
  induction as generalizing s t with
  | nil => exact ⟨hst, rfl⟩
  | cons a as ih =>
    have ha := has a List.mem_cons_self
    obtain ⟨hrel, hresults⟩ := ih (fun b hb ↦ has b (List.mem_cons_of_mem a hb)) (h.state hst ha)
    exact ⟨hrel, congrArg₂ List.cons (h.result hst ha) hresults⟩

theorem update [DecidableEq ι] {f : ι → σ} {g : ι → τ} (hfg : ∀ x, rel (f x) (g x)) (x : ι)
    {s : σ} {t : τ} (hst : rel s t) (y : ι) :
    rel (Function.update f x s y) (Function.update g x t y) := by
  by_cases hy : y = x
  · subst hy
    rwa [Function.update_self, Function.update_self]
  · rw [Function.update_of_ne hy, Function.update_of_ne hy]
    exact hfg y

theorem store [DecidableEq ι] (h : Simulates M N allowed rel) :
    Simulates M.store N.store (Statement.Allowed allowed)
      (fun (f : ι → σ) (g : ι → τ) ↦ ∀ x, rel (f x) (g x)) where
  construct f g x := h.construct (f x) (g x)
  state {f g a} hfg ha := by
    cases a with
    | construct x => exact update hfg x (h.construct _ _)
    | copy x y => exact update hfg x (hfg y)
    | call x a => exact update hfg x (h.state (hfg x) ha)
  result {f g a} hfg ha := by
    cases a with
    | construct x => rfl
    | copy x y => rfl
    | call x a => exact h.result (hfg x) ha

end Simulates

end Objects

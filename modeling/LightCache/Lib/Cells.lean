import Mathlib.Data.List.Basic
import Mathlib.Logic.Function.Basic

/-!
# Actions on single cells

A memory `f : κ → β`, and actions each of which reads one cell of it, writes it and returns a
result.

Main results: what a list of actions does depends only on the cells that the actions touch
(`applyAll_eq`, `outs_eq`), and it leaves the other cells alone (`applyAll_of_untouched`). So a cell
that it does not touch may be written before it or after it (`applyAll_update`, `outs_update`), by
an action too (`apply_applyAll`, `outs_apply`).
-/

namespace Cells

variable {κ α β ρ : Type*} [DecidableEq κ] (cell : α → κ) (act : α → β → ρ × β)

/-- The memory after an action. -/
def apply (f : κ → β) (a : α) : κ → β := Function.update f (cell a) (act a (f (cell a))).2

/-- The result of an action. -/
def out (f : κ → β) (a : α) : ρ := (act a (f (cell a))).1

/-- The memory after a list of actions. -/
def applyAll : (κ → β) → List α → κ → β
  | f, [] => f
  | f, a :: as => applyAll (apply cell act f a) as

/-- The results of a list of actions. -/
def outs : (κ → β) → List α → List ρ
  | _, [] => []
  | f, a :: as => out cell act f a :: outs (apply cell act f a) as

variable {cell act} {f g : κ → β} {a : α} {as bs : List α} {k : κ} {S : κ → Prop}

theorem applyAll_append :
    applyAll cell act f (as ++ bs) = applyAll cell act (applyAll cell act f as) bs := by
  induction as generalizing f with
  | nil => rfl
  | cons a as ih => exact ih

theorem outs_append :
    outs cell act f (as ++ bs) =
      outs cell act f as ++ outs cell act (applyAll cell act f as) bs := by
  induction as generalizing f with
  | nil => rfl
  | cons a as ih => exact congrArg _ ih

theorem applyAll_of_untouched (h : ∀ a ∈ as, cell a ≠ k) : applyAll cell act f as k = f k := by
  induction as generalizing f with
  | nil => rfl
  | cons a as ih =>
    rw [applyAll, ih fun b hb => h b (List.mem_cons_of_mem _ hb), apply,
      Function.update_of_ne (h a List.mem_cons_self).symm]

/-- Memories that agree on the cells `S` still do after an action on one of them. -/
theorem apply_eq (h : ∀ k, S k → f k = g k) (ha : S (cell a)) (k : κ) (hk : S k) :
    apply cell act f a k = apply cell act g a k := by
  rw [apply, apply, h _ ha]
  rcases eq_or_ne k (cell a) with rfl | hne
  · rw [Function.update_self, Function.update_self]
  · rw [Function.update_of_ne hne, Function.update_of_ne hne, h k hk]

theorem applyAll_eq (h : ∀ k, S k → f k = g k) (has : ∀ a ∈ as, S (cell a)) (k : κ) (hk : S k) :
    applyAll cell act f as k = applyAll cell act g as k := by
  induction as generalizing f g with
  | nil => exact h k hk
  | cons a as ih =>
    exact ih (apply_eq h (has a List.mem_cons_self)) fun b hb => has b (List.mem_cons_of_mem _ hb)

theorem outs_eq (h : ∀ k, S k → f k = g k) (has : ∀ a ∈ as, S (cell a)) :
    outs cell act f as = outs cell act g as := by
  induction as generalizing f g with
  | nil => rfl
  | cons a as ih =>
    have ha := has a List.mem_cons_self
    rw [outs, outs, out, out, h _ ha,
      ih (apply_eq h ha) fun b hb => has b (List.mem_cons_of_mem _ hb)]

theorem applyAll_update {b : β} (h : ∀ a ∈ as, cell a ≠ k) :
    applyAll cell act (Function.update f k b) as =
      Function.update (applyAll cell act f as) k b := by
  funext j
  rcases eq_or_ne j k with rfl | hj
  · rw [applyAll_of_untouched h, Function.update_self, Function.update_self]
  · rw [Function.update_of_ne hj]
    exact applyAll_eq (S := (· ≠ k)) (fun i hi => Function.update_of_ne hi ..) h j hj

theorem outs_update {b : β} (h : ∀ a ∈ as, cell a ≠ k) :
    outs cell act (Function.update f k b) as = outs cell act f as :=
  outs_eq (S := (· ≠ k)) (fun _ hi => Function.update_of_ne hi ..) h

theorem apply_applyAll (h : ∀ b ∈ as, cell b ≠ cell a) :
    apply cell act (applyAll cell act f as) a = applyAll cell act (apply cell act f a) as := by
  rw [apply, applyAll_of_untouched h]
  exact (applyAll_update h).symm

theorem out_applyAll (h : ∀ b ∈ as, cell b ≠ cell a) :
    out cell act (applyAll cell act f as) a = out cell act f a := by
  rw [out, out, applyAll_of_untouched h]

theorem outs_apply (h : ∀ b ∈ as, cell b ≠ cell a) :
    outs cell act (apply cell act f a) as = outs cell act f as :=
  outs_update h

end Cells

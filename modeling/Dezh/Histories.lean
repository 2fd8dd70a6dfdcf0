import Mathlib.Data.List.Basic

/-!
# What has happened since

Gates are often a summary of a history: something has happened, and nothing that
cancels it has happened after it. A component that keeps such a summary updates it
event by event; `since_concat` is what it has to agree with.
-/
namespace Dezh.Histories
variable {E : Type}

def Since (p q : E → Prop) : List E → Prop
  | [] => False
  | e :: h => Since p q h ∨ p e ∧ ∀ x ∈ h, ¬ q x

instance decidableSince (p q : E → Prop) [DecidablePred p] [DecidablePred q] :
    (h : List E) → Decidable (Since p q h)
  | [] => inferInstanceAs (Decidable False)
  | e :: h =>
    have := decidableSince p q h
    inferInstanceAs (Decidable (Since p q h ∨ p e ∧ ∀ x ∈ h, ¬ q x))

variable {p q : E → Prop}

@[simp]
theorem not_since_nil : ¬ Since p q [] := fun h => h

theorem since_concat (h : List E) (e : E) : Since p q (h ++ [e]) ↔ p e ∨ Since p q h ∧ ¬ q e := by
  induction h with
  | nil => simp [Since]
  | cons a h ih =>
    simp only [List.cons_append, Since, ih, List.forall_mem_append, List.forall_mem_singleton]
    tauto

end Dezh.Histories

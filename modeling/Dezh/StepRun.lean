import Mathlib.Data.Nat.Basic

/-!
# Runs of a step function

A loop whose body either goes on in a new state or leaves with a result. A run is
the iteration of the body; a state is reached when some number of iterations ends
in it without leaving. Everything about whole runs follows from facts about one
iteration: invariants by induction on reached states, results by looking at the
last iteration, and the comparison of two loops by looking at the first iteration
in which they differ. The body itself is often a computation that can fail;
`Ends` is its pre- and postcondition form.
-/
namespace Dezh.StepRun

section
variable {ε α β : Type}

def Ends (Q : α → Prop) (E : ε → Prop) : Except ε α → Prop
  | .ok a => Q a
  | .error e => E e

@[simp]
theorem ends_ok {Q : α → Prop} {E : ε → Prop} {a : α} : Ends Q E (.ok a) ↔ Q a := Iff.rfl

@[simp]
theorem ends_error {Q : α → Prop} {E : ε → Prop} {e : ε} : Ends Q E (.error e) ↔ E e := Iff.rfl

theorem Ends.bind {Q : α → Prop} {R : β → Prop} {E : ε → Prop} {x : Except ε α}
    {k : α → Except ε β} (hx : Ends Q E x) (hk : ∀ a, Q a → Ends R E (k a)) :
    Ends R E (x >>= k) := by
  cases x with
  | error e => exact hx
  | ok a => exact hk a hx

theorem Ends.mono {Q Q' : α → Prop} {E E' : ε → Prop} {x : Except ε α} (h : Ends Q E x)
    (hQ : ∀ a, Q a → Q' a) (hE : ∀ e, E e → E' e) : Ends Q' E' x := by
  cases x with
  | error e => exact hE e h
  | ok a => exact hQ a h

end

/-- One iteration: go on, or leave the loop. -/
inductive Outcome (σ ρ : Type) where
  | next (s : σ)
  | stop (r : ρ)

variable {σ ρ : Type}

namespace Outcome

def Post (Q : σ → Prop) (E : ρ → Prop) : Outcome σ ρ → Prop
  | next s => Q s
  | stop r => E r

theorem Post.mono {Q Q' : σ → Prop} {E E' : ρ → Prop} {o : Outcome σ ρ} (h : o.Post Q E)
    (hQ : ∀ s, Q s → Q' s) (hE : ∀ r, E r → E' r) : o.Post Q' E' := by
  cases o with
  | next s => exact hQ s h
  | stop r => exact hE r h

end Outcome

open Outcome

variable (step : σ → Outcome σ ρ)

def runFor : ℕ → σ → Outcome σ ρ
  | 0, s => next s
  | n + 1, s =>
    match step s with
    | next t => runFor n t
    | stop r => stop r

/-- `t` is the state after some number of iterations from `s`. -/
def Reaches (s t : σ) : Prop := ∃ n, runFor step n s = next t

variable {step}

theorem runFor_succ (n : ℕ) (s : σ) :
    runFor step (n + 1) s =
      match runFor step n s with
      | next t => step t
      | stop r => stop r := by
  induction n generalizing s with
  | zero =>
    simp only [runFor]
    cases step s <;> rfl
  | succ n ih =>
    rw [runFor]
    cases h : step s with
    | next t => simp only [runFor, h, ← ih]
    | stop r => simp only [runFor, h]

theorem Reaches.refl (s : σ) : Reaches step s s := ⟨0, rfl⟩

theorem Reaches.invariant {P : σ → Prop} {s t : σ} (h : Reaches step s t) (start : P s)
    (keep : ∀ a b, P a → step a = next b → P b) : P t := by
  obtain ⟨n, hn⟩ := h
  induction n generalizing t with
  | zero =>
    cases hn
    exact start
  | succ n ih =>
    rw [runFor_succ] at hn
    cases h : runFor step n s with
    | next a =>
      rw [h] at hn
      exact keep a t (ih h) hn
    | stop r =>
      rw [h] at hn
      cases hn

theorem exists_last {n : ℕ} {s : σ} {r : ρ} (h : runFor step n s = stop r) :
    ∃ t, Reaches step s t ∧ step t = stop r := by
  induction n with
  | zero => cases h
  | succ n ih =>
    rw [runFor_succ] at h
    cases hn : runFor step n s with
    | next t =>
      rw [hn] at h
      exact ⟨t, ⟨n, hn⟩, h⟩
    | stop q =>
      rw [hn] at h
      cases h
      exact ih hn

theorem runFor_eq_or_diverge {f g : σ → Outcome σ ρ} {D : σ → Prop}
    (agree : ∀ a, f a = g a ∨ D a) (n : ℕ) (s : σ) :
    runFor f n s = runFor g n s ∨
      ∃ k < n, ∃ a, runFor f k s = next a ∧ runFor g k s = next a ∧ D a := by
  induction n with
  | zero => exact Or.inl rfl
  | succ n ih =>
    cases ih with
    | inr h =>
      obtain ⟨k, hk, a, h⟩ := h
      exact Or.inr ⟨k, Nat.lt_succ_of_lt hk, a, h⟩
    | inl h =>
      cases hf : runFor f n s with
      | stop r =>
        left
        rw [runFor_succ, runFor_succ, ← h, hf]
      | next a =>
        cases agree a with
        | inr hD => exact Or.inr ⟨n, Nat.lt_succ_self n, a, hf, h ▸ hf, hD⟩
        | inl ha =>
          left
          rw [runFor_succ, runFor_succ, ← h, hf]
          exact ha

theorem runFor_stop_mono {n m : ℕ} {s : σ} {r : ρ} (h : runFor step n s = stop r) (hm : n ≤ m) :
    runFor step m s = stop r := by
  induction hm with
  | refl => exact h
  | step _ ih => rw [runFor_succ, ih]

end Dezh.StepRun

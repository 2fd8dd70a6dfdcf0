import Dezh.ProgramEffects

/-!
# Counting and comparing accesses

Properties of a program as a tree of accesses, over whatever the device answers.
`Takes p n` bounds the number of accesses on every path, and `Stays` says besides
which sectors are read and what is written. `Alike P R p q` says that `p` and `q` make
the same accesses with the same blocks and end in results related by `R`, on every
path whose reads deliver blocks with `P`.
-/
namespace Dezh.BlockProgram.Program
variable {A B C D E : Type}

def Takes : Program B A → ℕ → Prop
  | .done _, _ => True
  | .read _ next, n => 0 < n ∧ ∀ r, (next r).Takes (n - 1)
  | .write _ _ next, n => 0 < n ∧ ∀ r, (next r).Takes (n - 1)

/-- At most `n` accesses on every path. They read sectors with `Q` and write blocks with
`P`. -/
def Stays (Q : ℕ → Prop) (P : ℕ → B → Prop) : Program B A → ℕ → Prop
  | .done _, _ => True
  | .read s next, n => 0 < n ∧ Q s ∧ ∀ r, (next r).Stays Q P (n - 1)
  | .write s b next, n => 0 < n ∧ P s b ∧ ∀ r, (next r).Stays Q P (n - 1)

section
variable {Q Q' : ℕ → Prop} {P P' : ℕ → B → Prop} {p : Program B A} {n m : ℕ}

theorem Stays.imp (h : p.Stays Q P n) (hnm : n ≤ m) (hQ : ∀ s, Q s → Q' s)
    (hP : ∀ s b, P s b → P' s b) : p.Stays Q' P' m := by
  induction p generalizing n m with
  | done a => trivial
  | read s next ih =>
    exact ⟨h.1.trans_le hnm, hQ s h.2.1, fun r => ih r (h.2.2 r) (Nat.sub_le_sub_right hnm 1)⟩
  | write s b next ih =>
    exact ⟨h.1.trans_le hnm, hP s b h.2.1, fun r => ih r (h.2.2 r) (Nat.sub_le_sub_right hnm 1)⟩

theorem Stays.mono (h : p.Stays Q P n) (hnm : n ≤ m) : p.Stays Q P m :=
  h.imp hnm (fun _ hs => hs) fun _ _ hs => hs

theorem Stays.bind {k : A → Program B C} (h : p.Stays Q P n) (hk : ∀ a, (k a).Stays Q P m) :
    (p >>= k).Stays Q P (n + m) := by
  induction p generalizing n with
  | done a => exact (hk a).mono (Nat.le_add_left m n)
  | read s next ih | write s b next ih =>
    refine ⟨Nat.add_pos_left h.1 m, h.2.1, fun r => ?_⟩
    rw [Nat.sub_add_comm h.1]
    exact ih r (h.2.2 r)

theorem Stays.andThen {k : A → Program B C} (h : p.Stays Q P n) (hn : n ≤ m)
    (hk : ∀ a, (k a).Stays Q P (m - n)) : (p >>= k).Stays Q P m := by
  have hbind := h.bind hk
  rwa [Nat.add_sub_cancel' hn] at hbind

theorem stays_ite {c : Prop} [Decidable c] {q : Program B A} (hp : c → p.Stays Q P n)
    (hq : ¬ c → q.Stays Q P n) : (if c then p else q).Stays Q P n := by
  split_ifs with hc
  · exact hp hc
  · exact hq hc

theorem Stays.takes (h : p.Stays Q P n) : p.Takes n := by
  induction p generalizing n with
  | done a => trivial
  | read s next ih | write s b next ih => exact ⟨h.1, fun r => ih r (h.2.2 r)⟩

theorem Stays.emits {K : Faults} (h : p.Stays Q P n) (d : Disk B) : p.Emits K P d := by
  induction p generalizing n d with
  | done a => trivial
  | read s next ih => exact ⟨ih _ (h.2.2 _) d, fun _ => ih _ (h.2.2 _) d⟩
  | write s b next ih =>
    exact ⟨h.2.1, ih _ (h.2.2 _) _, fun _ => ih _ (h.2.2 _) _, fun _ => ih _ (h.2.2 _) _⟩

theorem Stays.confined {R W : Set ℕ} (h : p.Stays (· ∈ R) (fun s _ => s ∈ W) n) (d : Disk B) :
    p.Confined R W d := by
  induction p generalizing n d with
  | done a => trivial
  | read s next ih => exact ⟨h.2.1, ih _ (h.2.2 _) d, ih _ (h.2.2 _) d⟩
  | write s b next ih => exact ⟨h.2.1, ih _ (h.2.2 _) _, ih _ (h.2.2 _) _, ih _ (h.2.2 _) _⟩

end

/-- The same accesses and related results, as long as the reads deliver blocks
with `P`. -/
def Alike (P : ℕ → B → Prop) (R : A → C → Prop) : Program B A → Program B C → Prop
  | .done a, .done c => R a c
  | .read s next, .read s' next' =>
    s = s' ∧ ∀ r : Option B, (∀ b ∈ r, P s b) → Alike P R (next r) (next' r)
  | .write s b next, .write s' b' next' =>
    s = s' ∧ b = b' ∧ ∀ r, Alike P R (next r) (next' r)
  | _, _ => False

section
variable {P : ℕ → B → Prop} {R : A → C → Prop} {S : D → E → Prop}

theorem Alike.bind {p : Program B A} {q : Program B C} {k : A → Program B D} {m : C → Program B E}
    (h : Alike P R p q) (hk : ∀ a c, R a c → Alike P S (k a) (m c)) :
    Alike P S (p >>= k) (q >>= m) := by
  induction p generalizing q with
  | done a =>
    cases q with
    | done c => exact hk a c h
    | _ => exact h.elim
  | read s next ih =>
    cases q with
    | read s' next' => exact ⟨h.1, fun r hr => ih r (h.2 r hr)⟩
    | _ => exact h.elim
  | write s b next ih =>
    cases q with
    | write s' b' next' => exact ⟨h.1, h.2.1, fun r => ih r (h.2.2 r)⟩
    | _ => exact h.elim

theorem Alike.imp {R' : A → C → Prop} {p : Program B A} {q : Program B C} (h : Alike P R p q)
    (hR : ∀ a c, R a c → R' a c) : Alike P R' p q := by
  induction p generalizing q with
  | done a =>
    cases q with
    | done c => exact hR a c h
    | _ => exact h.elim
  | read s next ih =>
    cases q with
    | read s' next' => exact ⟨h.1, fun r hr => ih r (h.2 r hr)⟩
    | _ => exact h.elim
  | write s b next ih =>
    cases q with
    | write s' b' next' => exact ⟨h.1, h.2.1, fun r => ih r (h.2.2 r)⟩
    | _ => exact h.elim

theorem Alike.pure {a : A} {c : C} (h : R a c) :
    Alike P R (Pure.pure a : Program B A) (Pure.pure c) := h

theorem Alike.ite {c : Prop} [Decidable c] {p p' : Program B A} {q q' : Program B C}
    (h : c → Alike P R p q) (h' : ¬ c → Alike P R p' q') :
    Alike P R (if c then p else p') (if c then q else q') := by
  by_cases hc : c
  · rw [if_pos hc, if_pos hc]
    exact h hc
  · rw [if_neg hc, if_neg hc]
    exact h' hc

end

end Dezh.BlockProgram.Program

import Mathlib.Data.List.Basic
import Mathlib.Tactic.Common

/-!
# Chains of records linked by parent slots

Records lie in numbered slots and each names the slot of its parent. A reader
follows the links from a head slot until a stop value, an invalid record or a
step bound. A well-formed chain descends strictly, ends at the stop value, and
every record on it is good for its slot and its depth, counted from the end.
-/
namespace Dezh.ParentChain

variable {slot : ℕ}

/-- How a reader sees one record. -/
structure Links (R : Type) where
  parent : R → ℕ
  valid : R → Bool
  stop : ℕ

variable {R : Type} (F : Links R)

def follow (rec : ℕ → R) : ℕ → ℕ → List ℕ
  | 0, _ => []
  | n + 1, cur =>
    if cur = F.stop then []
    else if F.valid (rec cur) then cur :: follow rec n (F.parent (rec cur))
    else []

inductive Chain (good : ℕ → ℕ → R → Prop) (rec : ℕ → R) : ℕ → List ℕ → Prop
  | nil : Chain good rec F.stop []
  | cons {slot : ℕ} {rest : List ℕ} :
      good slot (rest.length + 1) (rec slot) →
      (∀ s ∈ rest, s < slot) →
      Chain good rec (F.parent (rec slot)) rest →
      Chain good rec slot (slot :: rest)

variable {F} {good : ℕ → ℕ → R → Prop} {rec rec' : ℕ → R} {cur m n : ℕ} {l : List ℕ}

namespace Chain
variable (h : Chain F good rec cur l)
include h

theorem cur_eq : cur = l.headD F.stop := by
  cases h <;> rfl

theorem map (hp : ∀ s ∈ l, F.parent (rec' s) = F.parent (rec s))
    (hg : ∀ s ∈ l, ∀ k, good s k (rec s) → good s k (rec' s)) : Chain F good rec' cur l := by
  induction h with
  | nil => exact .nil
  | @cons slot rest hgood hd hc ih =>
    refine .cons (hg slot List.mem_cons_self _ hgood) hd ?_
    rw [hp slot List.mem_cons_self]
    exact ih (fun s h => hp s (List.mem_cons_of_mem slot h))
      fun s h => hg s (List.mem_cons_of_mem slot h)

theorem congr (hl : ∀ s ∈ l, rec' s = rec s) : Chain F good rec' cur l :=
  h.map (fun s hs => by rw [hl s hs]) fun s hs k hg => by rwa [hl s hs]

theorem length_le (hl : ∀ s ∈ l, s < m) : l.length ≤ m := by
  induction h generalizing m with
  | nil => exact Nat.zero_le m
  | @cons slot rest hg hd hc ih =>
    have h1 : rest.length ≤ slot := ih hd
    have h2 : slot < m := hl slot List.mem_cons_self
    rw [List.length_cons]
    omega

theorem follow_eq (hv : ∀ s k r, good s k r → F.valid r = true)
    (hn : l.length ≤ n) (hl : ∀ s ∈ l, s < F.stop) : follow F rec n cur = l := by
  induction h generalizing n with
  | nil => cases n <;> simp [follow]
  | @cons slot rest hg hd hc ih =>
    obtain ⟨n, rfl⟩ : ∃ k, n = k + 1 := ⟨n - 1, by rw [List.length_cons] at hn; omega⟩
    have hs : slot ≠ F.stop := Nat.ne_of_lt (hl slot List.mem_cons_self)
    rw [follow, if_neg hs, if_pos (hv _ _ _ hg),
      ih (by simpa using hn) fun s h => hl s (List.mem_cons_of_mem slot h)]

theorem drop (k : ℕ) :
    Chain F good rec ((l.drop k).headD F.stop) (l.drop k) := by
  induction h generalizing k with
  | nil => simpa using Chain.nil
  | @cons slot rest hg hd hc ih =>
    cases k with
    | zero => exact .cons hg hd hc
    | succ k => exact ih k

theorem pairwise : l.Pairwise (· > ·) := by
  induction h with
  | nil => exact .nil
  | cons hg hd hc ih => exact .cons hd ih

theorem nodup : l.Nodup :=
  h.pairwise.imp fun hab => Nat.ne_of_gt hab

theorem good_of_split {pre post : List ℕ} (hl : l = pre ++ slot :: post) : good slot (post.length + 1) (rec slot) := by
  induction h generalizing pre with
  | nil => simp at hl
  | @cons first rest hg hd hc ih =>
    cases pre with
    | nil =>
      obtain ⟨rfl, rfl⟩ := List.cons_eq_cons.mp hl
      exact hg
    | cons x pre => exact ih (List.cons_eq_cons.mp hl).2

theorem parent_mem (hs : slot ∈ l) :
    F.parent (rec slot) = F.stop ∨ F.parent (rec slot) ∈ l ∧ F.parent (rec slot) < slot := by
  induction h with
  | nil => cases hs
  | @cons first rest hg hd hc ih =>
    rcases List.mem_cons.mp hs with rfl | hs
    · have hcur := hc.cur_eq
      cases rest with
      | nil => exact .inl hcur
      | cons next rest =>
        rw [List.headD_cons] at hcur
        rw [hcur]
        exact .inr ⟨List.mem_cons_of_mem _ List.mem_cons_self, hd next List.mem_cons_self⟩
    · exact (ih hs).imp_right fun h => ⟨List.mem_cons_of_mem _ h.1, h.2⟩

theorem exists_good (hs : slot ∈ l) : ∃ k, good slot k (rec slot) := by
  obtain ⟨pre, post, hl⟩ := List.append_of_mem hs
  exact ⟨_, h.good_of_split hl⟩

end Chain

theorem follow_congr (hp : ∀ s, F.parent (rec' s) = F.parent (rec s))
    (hv : ∀ s, F.valid (rec' s) = F.valid (rec s)) :
    follow F rec' n cur = follow F rec n cur := by
  induction n generalizing cur with
  | zero => rfl
  | succ n ih => simp only [follow, hp, hv, ih]

end Dezh.ParentChain

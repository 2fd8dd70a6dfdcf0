import Mathlib.Data.List.Basic
import Mathlib.Data.Nat.ModEq
import Mathlib.Logic.Function.Basic
import Mathlib.Tactic.Common

/-!
# A bounded queue in a ring of slots

A queue of at most `n` values in `n` slots, with a head, a tail and a count. Values
are put at the tail and taken from the head; both indices wrap. The ring stands for
the list of its values, oldest first, and its two operations are the operations of a
queue on that list.
-/
namespace Dezh.RingBuffer
open Function

theorem slot_inj {n a i j : ℕ} (hi : i < n) (hj : j < n) (h : (a + i) % n = (a + j) % n) :
    i = j := by
  have hmod := Nat.ModEq.add_left_cancel' a h
  rwa [Nat.ModEq, Nat.mod_eq_of_lt hi, Nat.mod_eq_of_lt hj] at hmod

section
variable {α : Type} {slots : ℕ → α} {n start : ℕ} {l : List α} {a : α}

/-- The values of a list stand in a ring of slots, from an index on. -/
def Slots (slots : ℕ → α) (n start : ℕ) (l : List α) : Prop :=
  ∀ i (h : i < l.length), slots ((start + i) % n) = l[i]

/-- The slot behind the values is free. -/
theorem Slots.update (h : Slots slots n start l) (hroom : l.length < n) :
    Slots (update slots ((start + l.length) % n) a) n start l := by
  intro i hi
  rw [update_of_ne fun heq => absurd (slot_inj (hi.trans hroom) hroom heq) hi.ne]
  exact h i hi

theorem Slots.push (h : Slots slots n start l) (hlast : slots ((start + l.length) % n) = a) :
    Slots slots n start (l ++ [a]) := by
  intro i hi
  by_cases hlt : i < l.length
  · rw [List.getElem_append_left hlt]
    exact h i hlt
  · rw [List.length_append, List.length_singleton] at hi
    obtain rfl : i = l.length := by omega
    rw [List.getElem_concat_length rfl]
    exact hlast

theorem Slots.pop (h : Slots slots n start (a :: l)) :
    slots (start % n) = a ∧ Slots slots n (start + 1) l := by
  refine ⟨h 0 (Nat.succ_pos _), fun i hi => ?_⟩
  rw [Nat.add_assoc, Nat.add_comm 1 i]
  exact h (i + 1) (Nat.succ_lt_succ hi)

end

structure Ring (α : Type) (n : ℕ) where
  head : ℕ
  tail : ℕ
  count : ℕ
  slots : ℕ → α
  head_lt : head < n
  count_le : count ≤ n
  tail_eq : tail = (head + count) % n

namespace Ring
variable {α : Type} {n : ℕ}

def empty (blank : α) (hn : 0 < n) : Ring α n where
  head := 0
  tail := 0
  count := 0
  slots := fun _ => blank
  head_lt := hn
  count_le := Nat.zero_le n
  tail_eq := (Nat.zero_mod n).symm

def toList (r : Ring α n) : List α :=
  (List.range r.count).map fun i => r.slots ((r.head + i) % n)

def push (r : Ring α n) (a : α) (h : r.count < n) : Ring α n where
  head := r.head
  tail := (r.tail + 1) % n
  count := r.count + 1
  slots := update r.slots r.tail a
  head_lt := r.head_lt
  count_le := h
  tail_eq := by rw [r.tail_eq, Nat.mod_add_mod, Nat.add_assoc]

def front (r : Ring α n) : α := r.slots r.head

def pop (r : Ring α n) (blank : α) (h : 0 < r.count) : Ring α n where
  head := (r.head + 1) % n
  tail := r.tail
  count := r.count - 1
  slots := update r.slots r.head blank
  head_lt := Nat.mod_lt _ (Nat.zero_lt_of_lt r.head_lt)
  count_le := (Nat.sub_le _ _).trans r.count_le
  tail_eq := by
    rw [r.tail_eq, Nat.mod_add_mod, Nat.add_assoc, Nat.add_sub_cancel' h]

@[simp]
theorem length_toList (r : Ring α n) : r.toList.length = r.count := by
  rw [toList, List.length_map, List.length_range]

theorem toList_of_empty {r : Ring α n} (h : r.count = 0) : r.toList = [] :=
  List.length_eq_zero_iff.mp (r.length_toList.trans h)

theorem toList_push (r : Ring α n) (a : α) (h : r.count < n) :
    (r.push a h).toList = r.toList ++ [a] := by
  rw [toList, toList]
  change (List.range (r.count + 1)).map _ = _
  rw [List.range_succ, List.map_append]
  congr 1
  · apply List.map_congr_left
    intro i hi
    have hi := List.mem_range.mp hi
    refine update_of_ne ?_ _ _
    rw [r.tail_eq]
    exact fun heq => absurd (slot_inj (hi.trans h) h heq) (Nat.ne_of_lt hi)
  · change [update r.slots r.tail a ((r.head + r.count) % n)] = [a]
    rw [← r.tail_eq, update_self]

theorem toList_pop (r : Ring α n) (blank : α) (h : 0 < r.count) :
    r.toList = r.front :: (r.pop blank h).toList := by
  obtain ⟨c, hc⟩ := Nat.exists_eq_add_of_lt h
  rw [Nat.zero_add] at hc
  have hle := r.count_le
  rw [toList, toList, hc, List.range_succ_eq_map, List.map_cons, List.map_map]
  congr 1
  · rw [Nat.add_zero, Nat.mod_eq_of_lt r.head_lt]
    rfl
  · change _ = (List.range (r.count - 1)).map _
    rw [hc, Nat.add_sub_cancel]
    apply List.map_congr_left
    intro i hi
    have hi := List.mem_range.mp hi
    change r.slots ((r.head + (i + 1)) % n) =
      update r.slots r.head blank (((r.head + 1) % n + i) % n)
    rw [Nat.mod_add_mod, Nat.add_assoc, Nat.add_comm 1 i]
    refine (update_of_ne ?_ _ _).symm
    intro heq
    have hzero : (r.head + (i + 1)) % n = (r.head + 0) % n := by
      rw [heq, Nat.add_zero, Nat.mod_eq_of_lt r.head_lt]
    have := slot_inj (by omega) (by omega) hzero
    omega

end Ring

end Dezh.RingBuffer

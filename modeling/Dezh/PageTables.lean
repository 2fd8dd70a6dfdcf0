import Mathlib.Data.Nat.Bitwise
import Mathlib.Tactic.Common

/-!
# Three-level page tables

A memory of pages of 512 words, and page tables in it: an entry is a word with a page
number above ten flag bits, an entry with no access flag points to the table below, and
one with an access flag is a leaf that maps its page.
-/
namespace Dezh.PageTables
open Function

abbrev Memory := ℕ → ℕ → ℕ

def setWord (mem : Memory) (page idx value : ℕ) : Memory :=
  update mem page (update (mem page) idx value)

def zeroPage (mem : Memory) (page : ℕ) : Memory := update mem page fun _ => 0

def pteV : ℕ := 1 <<< 0

def pteR : ℕ := 1 <<< 1

def pteW : ℕ := 1 <<< 2

def pteX : ℕ := 1 <<< 3

def pteU : ℕ := 1 <<< 4

def pteA : ℕ := 1 <<< 6

def pteD : ℕ := 1 <<< 7

def entry (page flags : ℕ) : ℕ := page <<< 10 ||| flags

def pageOf (e : ℕ) : ℕ := (e >>> 10) % 2 ^ 52

def Valid (e : ℕ) : Prop := e &&& pteV ≠ 0

def IsLeaf (e : ℕ) : Prop := e &&& (pteR ||| pteW ||| pteX) ≠ 0

def IsUser (e : ℕ) : Prop := e &&& pteU ≠ 0

instance (e : ℕ) : Decidable (Valid e) := inferInstanceAs (Decidable (_ ≠ _))

instance (e : ℕ) : Decidable (IsLeaf e) := inferInstanceAs (Decidable (_ ≠ _))

instance (e : ℕ) : Decidable (IsUser e) := inferInstanceAs (Decidable (_ ≠ _))

/-- An entry of the table in `page` that points to a table below. -/
inductive Points (mem : Memory) (page : ℕ) : ℕ → Prop
  | entry (i : ℕ) (hi : i < 512) (hv : Valid (mem page i)) (hp : ¬ IsLeaf (mem page i)) :
      Points mem page (pageOf (mem page i))

/-- A leaf entry of the table in `page`. -/
inductive LeafIn (mem : Memory) (page : ℕ) : ℕ → Prop
  | entry (i : ℕ) (hi : i < 512) (hv : Valid (mem page i)) (hl : IsLeaf (mem page i)) :
      LeafIn mem page (mem page i)

/-- The leaves that a walk from `root` finds, at each of its three levels. -/
inductive Leaf (mem : Memory) (root : ℕ) : ℕ → Prop
  | giga {e : ℕ} (h : LeafIn mem root e) : Leaf mem root e
  | mega {upper e : ℕ} (hp : Points mem root upper) (h : LeafIn mem upper e) : Leaf mem root e
  | page {upper lower e : ℕ} (hp : Points mem root upper) (hq : Points mem upper lower)
      (h : LeafIn mem lower e) : Leaf mem root e

section
variable {mem : Memory} {page page' idx idx' value flags mask : ℕ}

theorem setWord_other (h : page' ≠ page) : setWord mem page idx value page' = mem page' :=
  update_of_ne h ..

theorem setWord_apply :
    setWord mem page idx value page idx' = if idx' = idx then value else mem page idx' := by
  rw [setWord, update_self, update_apply]

theorem zeroPage_self : zeroPage mem page page = fun _ => 0 := update_self ..

theorem zeroPage_other (h : page' ≠ page) : zeroPage mem page page' = mem page' :=
  update_of_ne h ..

theorem or_and_ne_zero {a b mask : ℕ} (h : a &&& mask ≠ 0) : (a ||| b) &&& mask ≠ 0 := by
  intro hzero
  rw [Nat.and_or_distrib_right] at hzero
  exact h (Nat.or_eq_zero_iff.mp hzero).1

theorem pageOf_entry (hp : page < 2 ^ 52) (hf : flags < 2 ^ 10) :
    pageOf (entry page flags) = page := by
  rw [pageOf, entry, Nat.shiftLeft_eq, Nat.mul_comm, ← Nat.two_pow_add_eq_or_of_lt hf,
    Nat.shiftRight_eq_div_pow, Nat.mul_add_div (by decide), Nat.div_eq_of_lt hf, Nat.add_zero,
    Nat.mod_eq_of_lt hp]

theorem shiftLeft_and_eq_zero (hm : mask < 2 ^ 10) : page <<< 10 &&& mask = 0 := by
  apply Nat.eq_of_testBit_eq
  intro i
  rw [Nat.testBit_and, Nat.testBit_shiftLeft, Nat.zero_testBit]
  by_cases hi : 10 ≤ i
  · have hbit : mask.testBit i = false :=
      Nat.testBit_lt_two_pow (hm.trans_le (Nat.pow_le_pow_right (by decide) hi))
    rw [hbit, Bool.and_false]
  · rw [decide_eq_false hi, Bool.false_and, Bool.false_and]

theorem entry_and (hm : mask < 2 ^ 10) : entry page flags &&& mask = flags &&& mask := by
  rw [entry, Nat.and_or_distrib_right, shiftLeft_and_eq_zero hm, Nat.zero_or]

theorem isUser_entry : IsUser (entry page flags) ↔ IsUser flags := by
  rw [IsUser, IsUser, entry_and (by decide)]

theorem isLeaf_entry : IsLeaf (entry page flags) ↔ IsLeaf flags := by
  rw [IsLeaf, IsLeaf, entry_and (by decide)]

theorem valid_entry : Valid (entry page flags) ↔ Valid flags := by
  rw [Valid, Valid, entry_and (by decide)]

theorem not_valid_zero : ¬ Valid 0 := by decide

end

end Dezh.PageTables

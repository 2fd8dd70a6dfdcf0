import Mathlib.Data.Nat.Bitwise
import Mathlib.Order.CompletePartialOrder
import Mathlib.Order.Interval.Set.Disjoint

/-!
# The kernel heap

`BumpHeap`: one index into an arena, moved by a compare-and-swap loop and never moved back.
A thread reads the index, computes its block from it, and swaps the index for the end of the
block if it still is what was read. The reads and the swaps of all threads interleave. The
words are checked: an overflow stops the kernel.
-/
namespace Dezh.BumpHeap
open Function

def heapSize : ℕ := 1 <<< 20

/-- The end of the memory that holds the kernel and its arena. -/
def ramEnd : ℕ := 0x88000000

/-- What `Layout::from_size_align` accepts. -/
structure Layout where
  size : ℕ
  align : ℕ
  pow : ∃ k, align = 2 ^ k
  fits : size + align ≤ 2 ^ 63

structure Block where
  addr : ℕ
  layout : Layout

def Block.bytes (b : Block) : Set ℕ := Set.Ico b.addr (b.addr + b.layout.size)

/-- Where a thread stands between two accesses to the index. -/
inductive Phase where
  | idle
  | loading (layout : Layout)
  | swapping (layout : Layout) (cur aligned newNext : ℕ)
  | overflowed

inductive Step (T : Type) where
  | alloc (t : T) (layout : Layout)
  | load (t : T)
  | swap (t : T)

structure Heap (T : Type) where
  next : ℕ
  thread : T → Phase
  /-- The blocks that were returned. -/
  blocks : List Block

/-- `aligned` and `new_next`, unless a word overflows. -/
def plan (base cur : ℕ) (layout : Layout) : Option (ℕ × ℕ) :=
  let aligned := (base + cur + layout.align - 1) &&& (2 ^ 64 - 1 - (layout.align - 1))
  if 2 ^ 64 ≤ base + cur + layout.align ∨ aligned < base ∨ 2 ^ 64 ≤ aligned - base + layout.size then
    none
  else some (aligned, aligned - base + layout.size)

section
variable {T : Type}

def start : Heap T := ⟨0, fun _ => .idle, []⟩

variable [DecidableEq T]

def Heap.setPhase (s : Heap T) (t : T) (p : Phase) : Heap T :=
  { s with thread := update s.thread t p }

def step (base : ℕ) (s : Heap T) : Step T → Heap T
  | .alloc t layout =>
    match s.thread t with
    | .idle => s.setPhase t (.loading layout)
    | _ => s
  | .load t =>
    match s.thread t with
    | .loading layout =>
      match plan base s.next layout with
      | none => s.setPhase t .overflowed
      | some (aligned, newNext) =>
        if newNext > heapSize then s.setPhase t .idle
        else s.setPhase t (.swapping layout s.next aligned newNext)
    | _ => s
  | .swap t =>
    match s.thread t with
    | .swapping layout cur aligned newNext =>
      if s.next = cur then
        { s.setPhase t .idle with next := newNext, blocks := s.blocks ++ [⟨aligned, layout⟩] }
      else s.setPhase t (.loading layout)
    | _ => s

def run (base : ℕ) (steps : List (Step T)) : Heap T := steps.foldl (step base) start

end

/-! ### One computation -/

theorem and_not_mask {x k : ℕ} (hx : x < 2 ^ 64) (hk : k ≤ 64) :
    x &&& (2 ^ 64 - 1 - (2 ^ k - 1)) = x / 2 ^ k * 2 ^ k := by
  have hpos := Nat.two_pow_pos k
  have hle : 2 ^ k ≤ 2 ^ 64 := Nat.pow_le_pow_right (by decide) hk
  rw [show 2 ^ 64 - 1 - (2 ^ k - 1) = 2 ^ 64 - (2 ^ k - 1 + 1) by omega]
  refine Nat.eq_of_testBit_eq fun i => ?_
  rw [Nat.testBit_and, Nat.testBit_two_pow_sub_succ (by omega), Nat.testBit_two_pow_sub_one,
    Nat.testBit_mul_two_pow, Nat.testBit_div_two_pow]
  by_cases hi : k ≤ i
  · rw [Nat.sub_add_cancel hi]
    by_cases h64 : i < 64
    · simp [hi, h64]
    · have hbit : x.testBit i = false :=
        Nat.testBit_lt_two_pow (hx.trans_le (Nat.pow_le_pow_right (by decide) (by omega)))
      simp [hbit]
  · have hlow : i < k := Nat.lt_of_not_le hi
    simp [hi, hlow]

/-- Next to the arena no word overflows. The block starts at the next aligned address. -/
theorem plan_spec {base cur : ℕ} (hbase : base + heapSize ≤ ramEnd) (hcur : cur ≤ heapSize)
    (layout : Layout) : ∃ aligned, layout.align ∣ aligned ∧ base + cur ≤ aligned ∧
      plan base cur layout = some (aligned, aligned - base + layout.size) := by
  obtain ⟨k, hk⟩ := layout.pow
  have hfits := layout.fits
  have hpos : 0 < layout.align := hk ▸ Nat.two_pow_pos k
  have hram : ramEnd < 2 ^ 63 := by decide
  have hexp : k ≤ 64 := by
    by_contra hlarge
    have := Nat.pow_lt_pow_right (show 1 < 2 by decide) (Nat.lt_of_not_le hlarge)
    omega
  unfold plan
  generalize hx : base + cur + layout.align - 1 = x
  have hmask : x &&& (2 ^ 64 - 1 - (layout.align - 1)) = x / layout.align * layout.align := by
    rw [hk]
    exact and_not_mask (by omega) hexp
  have hdvd : layout.align ∣ x / layout.align * layout.align := Nat.dvd_mul_left _ _
  have hle := Nat.div_mul_le_self x layout.align
  have hlt := Nat.lt_div_mul_add (a := x) hpos
  rw [hmask]
  generalize x / layout.align * layout.align = aligned at hdvd hle hlt
  exact ⟨aligned, hdvd, by omega, if_neg (by omega)⟩

/-! ### All interleavings -/

section
variable {T : Type} {base : ℕ} {s : Heap T} {t : T}

/-- A swap was planned from an index of the arena, and the blocks end below the index. -/
structure Inv (base : ℕ) (s : Heap T) : Prop where
  next_le : s.next ≤ heapSize
  planned : ∀ t layout cur aligned newNext, s.thread t = .swapping layout cur aligned newNext →
    layout.align ∣ aligned ∧ base + cur ≤ aligned ∧ newNext = aligned - base + layout.size ∧
      newNext ≤ heapSize
  sound : ∀ t, s.thread t ≠ .overflowed
  block : ∀ b ∈ s.blocks, b.layout.align ∣ b.addr ∧ base ≤ b.addr ∧
    b.addr + b.layout.size ≤ base + s.next
  apart : s.blocks.Pairwise fun b c => b.addr + b.layout.size ≤ c.addr

theorem inv_start : Inv base (start : Heap T) :=
  ⟨Nat.zero_le _, nofun, nofun, fun _ hb => absurd hb List.not_mem_nil, .nil⟩

variable [DecidableEq T]

/-- A thread moves on, and nothing else does. -/
theorem Inv.setPhase (h : Inv base s) {p : Phase} (hp : p ≠ .overflowed)
    (hplan : ∀ layout cur aligned newNext, p = .swapping layout cur aligned newNext →
      layout.align ∣ aligned ∧ base + cur ≤ aligned ∧ newNext = aligned - base + layout.size ∧
        newNext ≤ heapSize) : Inv base (s.setPhase t p) := by
  refine { h with planned := fun u => ?_, sound := fun u => ?_ }
  all_goals
    unfold Heap.setPhase
    dsimp only
    by_cases hu : u = t
  · rw [hu, update_self]
    exact hplan
  · rw [update_of_ne hu]
    exact h.planned u
  · rw [hu, update_self]
    exact hp
  · rw [update_of_ne hu]
    exact h.sound u

theorem Inv.load (hbase : base + heapSize ≤ ramEnd) (h : Inv base s) (t : T) :
    Inv base (step base s (.load t)) := by
  cases ht : s.thread t with
  | loading layout =>
    obtain ⟨aligned, hdvd, hle, hplan⟩ := plan_spec hbase h.next_le layout
    simp only [BumpHeap.step, ht, hplan]
    split_ifs with hfull
    · exact h.setPhase nofun nofun
    · refine h.setPhase nofun fun l c a n heq => ?_
      cases heq
      exact ⟨hdvd, hle, rfl, Nat.le_of_not_lt hfull⟩
  | _ => simpa only [BumpHeap.step, ht] using h

theorem Inv.swap (h : Inv base s) (t : T) : Inv base (step base s (.swap t)) := by
  cases ht : s.thread t with
  | swapping layout cur aligned newNext =>
    obtain ⟨hdvd, hle, hnew, hroom⟩ := h.planned t _ _ _ _ ht
    simp only [BumpHeap.step, ht]
    split_ifs with hcur
    · subst hcur
      have hmoved : Inv base (s.setPhase t .idle) := h.setPhase nofun nofun
      have hgrown : base + s.next ≤ base + newNext := by omega
      refine { hmoved with next_le := hroom, block := fun b hb => ?_, apart := ?_ }
      · rcases List.mem_append.mp hb with hold | hlast
        · obtain ⟨hb1, hb2, hb3⟩ := h.block b hold
          exact ⟨hb1, hb2, hb3.trans hgrown⟩
        · rw [List.mem_singleton.mp hlast]
          dsimp only
          exact ⟨hdvd, by omega, by omega⟩
      · refine List.pairwise_append.mpr ⟨h.apart, List.pairwise_singleton _ _, fun b hb c hc => ?_⟩
        rw [List.mem_singleton.mp hc]
        exact (h.block b hb).2.2.trans hle
    · exact h.setPhase nofun nofun
  | _ => simpa only [BumpHeap.step, ht] using h

theorem Inv.step (hbase : base + heapSize ≤ ramEnd) (h : Inv base s) (a : Step T) :
    Inv base (step base s a) := by
  cases a with
  | alloc t layout =>
    cases ht : s.thread t with
    | idle =>
      simp only [BumpHeap.step, ht]
      exact h.setPhase nofun nofun
    | _ => simpa only [BumpHeap.step, ht] using h
  | load t => exact h.load hbase t
  | swap t => exact h.swap t

theorem inv_run (hbase : base + heapSize ≤ ramEnd) (steps : List (Step T)) :
    Inv base (run base steps) :=
  List.foldlRecOn steps _ inv_start fun _ hs a _ => hs.step hbase a

end

/-- Whatever threads allocate in whatever order of their accesses, the blocks they get are
aligned, lie in the arena and are pairwise disjoint, and no word overflows. -/
theorem heap_blocks {T : Type} [DecidableEq T] (base : ℕ) (hbase : base + heapSize ≤ ramEnd)
    (steps : List (Step T)) :
    (∀ b ∈ (run base steps).blocks, b.layout.align ∣ b.addr ∧
      b.bytes ⊆ Set.Ico base (base + heapSize)) ∧
      ((run base steps).blocks.Pairwise fun b c => Disjoint b.bytes c.bytes) ∧
      ∀ t, (run base steps).thread t ≠ .overflowed := by
  have h := inv_run hbase steps
  refine ⟨fun b hb => ?_, h.apart.imp fun hle => ?_, h.sound⟩
  · obtain ⟨halign, hlow, hhigh⟩ := h.block b hb
    exact ⟨halign, Set.Ico_subset_Ico hlow (hhigh.trans (Nat.add_le_add_left h.next_le base))⟩
  · rw [Block.bytes, Block.bytes, Set.Ico_disjoint_Ico]
    omega

/-- Two threads read the index. The second one to swap reads it again. -/
theorem heap_blocks_two :
    let word : Layout := ⟨8, 8, ⟨3, rfl⟩, by decide⟩
    let s := run 0x80300001 [.alloc true word, .alloc false word, .load true, .load false,
      .swap true, .swap false, .load false, .swap false]
    s.blocks.map Block.addr = [0x80300008, 0x80300010] ∧
      s.blocks.Pairwise fun b c => Disjoint b.bytes c.bytes :=
  ⟨by decide +kernel, (heap_blocks 0x80300001 (by decide) _).2.1⟩

end Dezh.BumpHeap

import Mathlib.Data.Fin.Tuple.Basic
import Dezh.PackageTasks

/-!
# The table of open intents

An intent (an Ahd) is a declared ceiling of capabilities with a lease. The table
of open intents and the counter of their ids live in memory only: both start
over at every boot. A slot of the table is never given back, so at most
`maxAhd` intents can be opened between two boots, under the ids from 1 on.
-/
namespace Dezh.IntentTable
open Function PackageTasks

variable {lease : UInt32}

def maxAhd : ℕ := 16

def ahdUnlimited : UInt32 := 0xffffffff

inductive AhdKind where
  | compute | reader | writer | ipc | full
  deriving DecidableEq, Repr

namespace AhdKind

def all : List AhdKind := [compute, reader, writer, ipc, full]

def name : AhdKind → String
  | compute => "compute"
  | reader => "reader"
  | writer => "writer"
  | ipc => "ipc"
  | full => "full"

def ceiling : AhdKind → ℕ
  | compute => mcapPrint
  | reader => mcapPrint ||| mcapCairnRead
  | writer => mcapPrint ||| mcapCairnRead ||| mcapCairnWrite
  | ipc => mcapPrint ||| mcapIpc
  | full => mcapPrint ||| mcapIpc ||| mcapUptime ||| mcapCairnRead ||| mcapCairnWrite

end AhdKind

def ahdKind (kind : String) : Option AhdKind := AhdKind.all.find? (·.name == kind)

structure AhdSlot where
  used : Bool
  id : UInt16
  kind : String
  ceiling : ℕ
  lease : UInt32
  revoked : Bool

def emptyAhd : AhdSlot where
  used := false
  id := 0
  kind := ""
  ceiling := 0
  lease := ahdUnlimited
  revoked := false

structure Ahds where
  slots : Fin maxAhd → AhdSlot
  nextId : UInt16

namespace Ahds

def boot : Ahds := ⟨fun _ => emptyAhd, 1⟩

def freeSlot (a : Ahds) : Option (Fin maxAhd) :=
  Fin.find? fun i => !(a.slots i).used

def openAhd (a : Ahds) (kind : String) (lease : UInt32) : Option ((UInt16 × AhdKind) × Ahds) := do
  let k ← ahdKind kind
  let i ← a.freeSlot
  let slot := AhdSlot.mk true a.nextId k.name k.ceiling lease false
  pure ((a.nextId, k), ⟨update a.slots i slot, a.nextId + 1⟩)

def ahdSlotIndex (a : Ahds) (id : UInt16) : Option (Fin maxAhd) :=
  Fin.find? fun i => (a.slots i).used && (a.slots i).id == id

def setLease (a : Ahds) (i : Fin maxAhd) (lease : UInt32) (revoked : Bool) : Ahds :=
  { a with slots := update a.slots i { a.slots i with lease, revoked } }

def intentRevoke (a : Ahds) (id : UInt16) : Ahds :=
  match a.ahdSlotIndex id with
  | none => a
  | some i => if (a.slots i).revoked then a else a.setLease i 0 true

end Ahds

inductive LeaseUse where
  | authorized (left : UInt32)
  | deniedRevoked
  | deniedExhausted
  deriving DecidableEq, Repr

def Ahds.leaseUse (a : Ahds) (id : UInt16) : Option (LeaseUse × Ahds) := do
  let i ← a.ahdSlotIndex id
  let slot := a.slots i
  if slot.revoked then pure (.deniedRevoked, a)
  else if slot.lease = 0 then pure (.deniedExhausted, a)
  else if slot.lease = ahdUnlimited then pure (.authorized ahdUnlimited, a)
  else
    let left := slot.lease - 1
    pure (.authorized left, a.setLease i left (left = 0))

namespace Ahds

def opened (a : Ahds) (kind : String) (lease : UInt32) : Ahds :=
  ((a.openAhd kind lease).map Prod.snd).getD a

def leased (a : Ahds) (id : UInt16) : Ahds := ((a.leaseUse id).map Prod.snd).getD a

variable {a a' : Ahds} {id j : UInt16}

/-- The intent `id` was opened since the last boot. -/
def IsOpen (a : Ahds) (id : UInt16) : Prop := ∃ i, (a.slots i).used = true ∧ (a.slots i).id = id

instance (a : Ahds) (id : UInt16) : Decidable (a.IsOpen id) := inferInstanceAs (Decidable (∃ _, _))

theorem ahdSlotIndex_isSome : (a.ahdSlotIndex id).isSome = true ↔ a.IsOpen id := by
  simp [ahdSlotIndex, IsOpen]

/-- The slots fill up from the first on, and the ids of the used ones have been
handed out. -/
structure Valid (a : Ahds) : Prop where
  next_pos : 1 ≤ a.nextId.toNat
  next_le : a.nextId.toNat ≤ maxAhd + 1
  used_iff : ∀ i, (a.slots i).used = true ↔ i.val + 1 < a.nextId.toNat
  ids : ∀ i, (a.slots i).used = true →
    0 < (a.slots i).id.toNat ∧ (a.slots i).id.toNat < a.nextId.toNat

theorem valid_boot : boot.Valid where
  next_pos := le_rfl
  next_le := by decide
  used_iff := fun i => by
    constructor
    · intro h
      cases h
    · intro h
      exact absurd h (by simp [boot])
  ids := fun i h => by cases h

theorem not_isOpen_boot : ¬ boot.IsOpen id := by
  rintro ⟨i, h, -⟩
  cases h

theorem Valid.isOpen (h : a.Valid) (ho : a.IsOpen id) :
    0 < id.toNat ∧ id.toNat < a.nextId.toNat := by
  obtain ⟨i, hu, rfl⟩ := ho
  exact h.ids i hu

theorem Valid.freeSlot_eq (h : a.Valid) {i : Fin maxAhd} (hi : a.freeSlot = some i) :
    i.val + 1 = a.nextId.toNat := by
  obtain ⟨hfree, hbefore⟩ := Fin.find?_eq_some_iff.mp hi
  have hge : ¬ i.val + 1 < a.nextId.toNat := by
    rw [← h.used_iff i]
    simpa using hfree
  have hpos := h.next_pos
  by_contra hne
  -- otherwise the slot the counter points at is free as well, and comes first
  have hlt : a.nextId.toNat - 1 < i.val := by omega
  have hused := hbefore ⟨a.nextId.toNat - 1, hlt.trans i.isLt⟩ hlt
  rw [Bool.not_eq_false', h.used_iff] at hused
  change a.nextId.toNat - 1 + 1 < a.nextId.toNat at hused
  omega

section
variable {kind : String} {k : AhdKind}

theorem openAhd_eq (h : a.openAhd kind lease = some ((id, k), a')) :
    id = a.nextId ∧ ∃ i, a.freeSlot = some i ∧ a'.nextId = a.nextId + 1 ∧
      a'.slots = update a.slots i (AhdSlot.mk true a.nextId k.name k.ceiling lease false) := by
  simp only [openAhd, Option.bind_eq_bind, Option.bind_eq_some_iff, Option.pure_def,
    Option.some.injEq, Prod.mk.injEq] at h
  obtain ⟨k', -, i, hi, ⟨hid, rfl⟩, rfl⟩ := h
  exact ⟨hid.symm, i, hi, rfl, rfl⟩

theorem opened_cases (a : Ahds) (kind : String) (lease : UInt32) :
    a.openAhd kind lease = none ∧ a.opened kind lease = a ∨
      ∃ id k, a.openAhd kind lease = some ((id, k), a.opened kind lease) := by
  rw [opened]
  cases h : a.openAhd kind lease with
  | none => exact .inl ⟨rfl, rfl⟩
  | some r => exact .inr ⟨r.1.1, r.1.2, rfl⟩

theorem isOpen_openAhd (h : a.openAhd kind lease = some ((id, k), a')) : a'.IsOpen id := by
  obtain ⟨rfl, i, -, -, hs⟩ := openAhd_eq h
  exact ⟨i, by rw [hs, update_self], by rw [hs, update_self]⟩

theorem isOpen_of_openAhd (h : a.openAhd kind lease = some ((id, k), a')) (ho : a'.IsOpen j) :
    j = id ∨ a.IsOpen j := by
  obtain ⟨rfl, i, -, -, hs⟩ := openAhd_eq h
  obtain ⟨n, hu, rfl⟩ := ho
  rw [hs] at hu ⊢
  by_cases hn : n = i
  · rw [hn, update_self]
    exact .inl rfl
  · rw [update_of_ne hn] at hu ⊢
    exact .inr ⟨n, hu, rfl⟩

theorem Valid.nextId_succ (hv : a.Valid) : (a.nextId + 1).toNat = a.nextId.toNat + 1 := by
  have hle := hv.next_le
  rw [maxAhd] at hle
  rw [UInt16.toNat_add]
  exact Nat.mod_eq_of_lt (by change a.nextId.toNat + 1 < _; omega)

theorem Valid.openAhd (hv : a.Valid) (h : a.openAhd kind lease = some ((id, k), a')) :
    a'.Valid := by
  obtain ⟨-, i, hi, hn, hs⟩ := openAhd_eq h
  have hslot := hv.freeSlot_eq hi
  have hnext : a'.nextId.toNat = a.nextId.toNat + 1 := by rw [hn, hv.nextId_succ]
  constructor
  · omega
  · have := i.isLt
    omega
  · intro n
    rw [hs, hnext]
    by_cases hni : n = i
    · rw [hni, update_self]
      exact ⟨fun _ => by omega, fun _ => rfl⟩
    · have hne : n.val ≠ i.val := fun h => hni (Fin.ext h)
      rw [update_of_ne hni, hv.used_iff]
      omega
  · intro n hu
    rw [hs] at hu ⊢
    rw [hnext]
    by_cases hni : n = i
    · rw [hni, update_self]
      exact ⟨hv.next_pos, Nat.lt_succ_self _⟩
    · rw [update_of_ne hni] at hu ⊢
      have := hv.ids n hu
      omega

theorem Valid.opened (hv : a.Valid) (kind : String) (lease : UInt32) :
    (a.opened kind lease).Valid := by
  rcases opened_cases a kind lease with ⟨-, h⟩ | ⟨id, k, h⟩
  · rw [h]
    exact hv
  · exact hv.openAhd h

end

section
variable {i : Fin maxAhd} {revoked : Bool}

/-- The same intents are open. -/
structure SameIds (a a' : Ahds) : Prop where
  next : a'.nextId = a.nextId
  slot : ∀ n, (a'.slots n).used = (a.slots n).used ∧ (a'.slots n).id = (a.slots n).id

theorem SameIds.refl (a : Ahds) : SameIds a a := ⟨rfl, fun _ => ⟨rfl, rfl⟩⟩

theorem SameIds.valid (h : SameIds a a') (hv : a.Valid) : a'.Valid where
  next_pos := h.next ▸ hv.next_pos
  next_le := h.next ▸ hv.next_le
  used_iff := fun n => by
    rw [(h.slot n).1, h.next]
    exact hv.used_iff n
  ids := fun n => by
    rw [(h.slot n).1, (h.slot n).2, h.next]
    exact hv.ids n

theorem SameIds.isOpen (h : SameIds a a') : a'.IsOpen id ↔ a.IsOpen id :=
  exists_congr fun n => by rw [(h.slot n).1, (h.slot n).2]

theorem sameIds_setLease : SameIds a (a.setLease i lease revoked) where
  next := rfl
  slot := fun n => by
    by_cases hn : n = i
    · subst hn
      simp [setLease]
    · simp [setLease, update_of_ne hn]

theorem sameIds_intentRevoke (a : Ahds) (id : UInt16) : SameIds a (a.intentRevoke id) := by
  unfold intentRevoke
  cases a.ahdSlotIndex id with
  | none => exact .refl a
  | some i =>
    by_cases hr : (a.slots i).revoked
    · simp only [hr, if_true]
      exact .refl a
    · simp only [hr, if_false, Bool.false_eq_true]
      exact sameIds_setLease

theorem sameIds_leaseUse {u : LeaseUse} (h : a.leaseUse id = some (u, a')) : SameIds a a' := by
  simp only [leaseUse, Option.bind_eq_bind, Option.bind_eq_some_iff] at h
  obtain ⟨i, -, h⟩ := h
  split_ifs at h
  all_goals
    rw [Option.pure_def, Option.some.injEq, Prod.mk.injEq] at h
    rw [← h.2]
  · exact .refl a
  · exact .refl a
  · exact .refl a
  · exact sameIds_setLease

theorem sameIds_leased (a : Ahds) (id : UInt16) : SameIds a (a.leased id) := by
  rw [leased]
  cases h : a.leaseUse id with
  | none => exact .refl a
  | some r => exact sameIds_leaseUse (u := r.1) h

end

end Ahds

end Dezh.IntentTable

import Mathlib.Algebra.Group.Nat.Defs
import Mathlib.Logic.Function.Basic
import Mathlib.Data.List.Basic

/-!
# Object capabilities

A capability is a plain value: an object, the rights it carries and the generation
of the object at the time it was minted. Revoking an object adds one to its
generation in the table, so every copy of a handle goes stale at once.
-/
namespace Dezh.Capabilities

variable {n : ℕ} {want : UInt8}

def rRead : UInt8 := 0x01
def rWrite : UInt8 := 0x02
def rDelegate : UInt8 := 0x08

def genNever : UInt32 := 0

structure Cap where
  object : ℕ
  rights : UInt8
  generation : UInt32
  deriving DecidableEq, Repr

inductive CapCheck where
  | ok | revoked | denied | noSuchObject
  deriving DecidableEq, Repr

structure CapTable (n : ℕ) where
  generation : Fin n → UInt32

/-- The rights contain what is wanted. -/
def Covers (rights want : UInt8) : Prop := rights &&& want = want

instance (rights want : UInt8) : Decidable (Covers rights want) :=
  inferInstanceAs (Decidable (_ = _))

/-- A capability for less. The parent has to carry the right to delegate, and its
generation is inherited. -/
def Cap.derive (parent : Cap) (mask : UInt8) : Option Cap :=
  if parent.rights &&& rDelegate = 0 then none
  else some { parent with rights := parent.rights &&& mask }

namespace CapTable
def new : CapTable n := ⟨fun _ => 1⟩

def mint (t : CapTable n) (object : ℕ) (rights : UInt8) : Option Cap :=
  if h : object < n then some ⟨object, rights, t.generation ⟨object, h⟩⟩ else none

def check (t : CapTable n) (cap : Cap) (want : UInt8) : CapCheck :=
  if h : cap.object < n then
    if cap.generation = genNever ∨ cap.generation ≠ t.generation ⟨cap.object, h⟩ then .revoked
    else if Covers cap.rights want then .ok
    else .denied
  else .noSuchObject

def revoke (t : CapTable n) (object : ℕ) : CapTable n :=
  if h : object < n then
    ⟨Function.update t.generation ⟨object, h⟩ (t.generation ⟨object, h⟩ + 1)⟩
  else t

theorem check_eq_ok {t : CapTable n} {cap : Cap} :
    t.check cap want = .ok ↔ cap.generation ≠ genNever ∧ Covers cap.rights want ∧
      ∃ h : cap.object < n, t.generation ⟨cap.object, h⟩ = cap.generation := by
  unfold check
  split_ifs with h hg hc
  · simp only [false_iff, not_and, not_exists]
    rintro hne - -
    exact fun heq => hg.elim hne fun h' => h' heq.symm
  · simp only [not_or, ne_eq, not_not] at hg
    exact ⟨fun _ => ⟨hg.1, hc, h, hg.2.symm⟩, fun _ => rfl⟩
  · simp [hc]
  · simp [h]

theorem check_ne_revoked {t : CapTable n} {cap : Cap} (want : UInt8)
    (hne : cap.generation ≠ genNever) {h : cap.object < n}
    (hlive : t.generation ⟨cap.object, h⟩ = cap.generation) : t.check cap want ≠ .revoked := by
  rw [check, dif_pos h, hlive, if_neg (by simp [hne])]
  split_ifs
  all_goals simp

@[simp]
theorem generation_revoke (t : CapTable n) (object : ℕ) (i : Fin n) :
    (t.revoke object).generation i =
      if i.val = object then t.generation i + 1 else t.generation i := by
  by_cases h : object < n
  · rw [revoke, dif_pos h]
    by_cases hi : i.val = object
    · subst hi
      simp
    · have : i ≠ ⟨object, h⟩ := fun he => hi (congrArg Fin.val he)
      simp [hi, this]
  · have : i.val ≠ object := fun he => h (he ▸ i.isLt)
    simp [revoke, h, this]

end CapTable

theorem covers_and {a b : UInt8} : Covers (a &&& b) want ↔ Covers a want ∧ Covers b want := by
  unfold Covers
  constructor
  · intro h
    have ha : a &&& (a &&& b &&& want) = a &&& b &&& want := by
      rw [← UInt8.and_assoc, ← UInt8.and_assoc, UInt8.and_self]
    have hb : b &&& (a &&& b &&& want) = a &&& b &&& want := by
      rw [UInt8.and_comm a b, ← UInt8.and_assoc, ← UInt8.and_assoc, UInt8.and_self]
    rw [h] at ha hb
    exact ⟨ha, hb⟩
  · rintro ⟨ha, hb⟩
    rw [UInt8.and_assoc, hb, ha]

theorem covers_foldl (masks : List UInt8) (root : UInt8) :
    Covers (masks.foldl (· &&& ·) root) want ↔
      Covers root want ∧ ∀ mask ∈ masks, Covers mask want := by
  induction masks generalizing root with
  | nil => simp
  | cons mask masks ih => simp [ih, covers_and, and_assoc]

/-! ### Histories -/

/-- An operation of the holders of a table. A derivation starts from any handle
given out so far. -/
inductive Op where
  | mint (object : ℕ) (rights : UInt8)
  | derive (parent : ℕ) (mask : UInt8)
  | revoke (object : ℕ)
  deriving DecidableEq, Repr

/-- A capability given out, with the rights of its root mint, the masks on the
path from there and the operations since the root mint. -/
structure Handle where
  cap : Cap
  root : UInt8
  masks : List UInt8
  later : List Op
  deriving DecidableEq, Repr

namespace Handle

def revocations (h : Handle) : ℕ := h.later.count (.revoke h.cap.object)

def after (h : Handle) (ops : List Op) : Handle := { h with later := h.later ++ ops }

def derive (h : Handle) (mask : UInt8) : Option Handle :=
  (h.cap.derive mask).map fun c => { h with cap := c, masks := h.masks ++ [mask] }

end Handle

structure State (n : ℕ) where
  table : CapTable n
  handles : List Handle

namespace State
def start : State n := ⟨.new, []⟩

def issued (s : State n) : Op → Option Handle
  | .mint object rights => (s.table.mint object rights).map (⟨·, rights, [], []⟩)
  | .derive parent mask =>
    s.handles[parent]?.bind fun h => (h.derive mask).map (·.after [.derive parent mask])
  | .revoke _ => none

def step (s : State n) (op : Op) : State n where
  table := match op with
    | .revoke object => s.table.revoke object
    | _ => s.table
  handles := s.handles.map (·.after [op]) ++ (s.issued op).toList

def run (s : State n) (ops : List Op) : State n := ops.foldl step s

end State

/-- The handle names an object of the table, its rights are what the path from
the root has left, and its object's generation has advanced by the revocations
since the root mint. -/
structure Handle.Tracks {n : ℕ} (h : Handle) (t : CapTable n) : Prop where
  lt : h.cap.object < n
  rights : h.cap.rights = h.masks.foldl (· &&& ·) h.root
  generation : t.generation ⟨h.cap.object, lt⟩ = h.cap.generation + .ofNat h.revocations

section
variable {h : Handle} {t : CapTable n}

theorem Handle.Tracks.derive {h' : Handle} {mask : UInt8} (ht : h.Tracks t)
    (hd : h.derive mask = some h') : h'.Tracks t := by
  simp only [Handle.derive, Cap.derive, Option.map_eq_some_iff] at hd
  obtain ⟨c, hc, rfl⟩ := hd
  split_ifs at hc
  obtain rfl := Option.some.inj hc
  exact ⟨ht.lt, by simp [ht.rights], ht.generation⟩

theorem Handle.Tracks.after {s : State n} (ht : h.Tracks s.table) (op : Op) :
    (h.after [op]).Tracks (s.step op).table := by
  refine ⟨ht.lt, ht.rights, ?_⟩
  have hg := ht.generation
  unfold Handle.revocations at hg
  cases op with
  | revoke object =>
    by_cases ho : h.cap.object = object
    · subst ho
      simp [State.step, Handle.after, Handle.revocations, hg, UInt32.add_assoc]
    · simp [State.step, Handle.after, Handle.revocations, ho, Ne.symm ho, hg]
  | _ => simp [State.step, Handle.after, Handle.revocations, hg]

theorem Handle.tracks_mint {object : ℕ} {rights : UInt8} {c : Cap}
    (hc : t.mint object rights = some c) : (Handle.mk c rights [] []).Tracks t := by
  unfold CapTable.mint at hc
  split_ifs at hc with ho
  obtain rfl := Option.some.inj hc
  exact ⟨ho, rfl, by simp [Handle.revocations]⟩

theorem tracks_step {s : State n} (hs : ∀ h ∈ s.handles, h.Tracks s.table) (op : Op) :
    ∀ h ∈ (s.step op).handles, h.Tracks (s.step op).table := by
  intro h hh
  simp only [State.step, List.mem_append, List.mem_map, Option.mem_toList] at hh
  rcases hh with ⟨h0, h0mem, rfl⟩ | hnew
  · exact (hs h0 h0mem).after op
  · cases op with
    | mint object rights =>
      obtain ⟨c, hc, rfl⟩ := Option.map_eq_some_iff.mp hnew
      exact Handle.tracks_mint hc
    | derive parent mask =>
      obtain ⟨p, hp, hd⟩ := Option.bind_eq_some_iff.mp hnew
      obtain ⟨h', hd', rfl⟩ := Option.map_eq_some_iff.mp hd
      exact ((hs p (List.mem_of_getElem? hp)).derive hd').after _
    | revoke object => cases hnew

theorem tracks_run (ops : List Op) {s : State n} (hs : ∀ h ∈ s.handles, h.Tracks s.table) :
    ∀ h ∈ (s.run ops).handles, h.Tracks (s.run ops).table := by
  induction ops generalizing s with
  | nil => exact hs
  | cons op ops ih => exact ih (tracks_step hs op)

theorem mem_run (ops : List Op) {s : State n} (hh : h ∈ s.handles) :
    h.after ops ∈ (s.run ops).handles := by
  induction ops generalizing s h with
  | nil => simpa [State.run, Handle.after] using hh
  | cons op ops ih =>
    have hmem : h.after [op] ∈ (s.step op).handles :=
      List.mem_append_left _ (List.mem_map_of_mem hh)
    simpa [Handle.after, State.run] using ih hmem

theorem Handle.Tracks.check_eq_ok (ht : h.Tracks t) (want : UInt8) :
    t.check h.cap want = .ok ↔ h.cap.generation ≠ genNever ∧ Covers h.root want ∧
      (∀ mask ∈ h.masks, Covers mask want) ∧ 2 ^ 32 ∣ h.revocations := by
  have hzero : UInt32.ofNat h.revocations = 0 ↔ 2 ^ 32 ∣ h.revocations := by
    rw [← UInt32.toNat_inj, UInt32.toNat_ofNat', Nat.dvd_iff_mod_eq_zero]
    rfl
  rw [CapTable.check_eq_ok, ht.rights, covers_foldl, and_assoc, ← hzero]
  simp [ht.lt, ht.generation]

end

theorem State.run_append {n : ℕ} (s : State n) (ops later : List Op) :
    s.run (ops ++ later) = (s.run ops).run later := List.foldl_append

theorem tracks_of_mem {n : ℕ} {ops : List Op} {h : Handle}
    (hh : h ∈ ((State.start : State n).run ops).handles) :
    h.Tracks ((State.start : State n).run ops).table :=
  tracks_run ops (by simp [State.start]) h hh

/-- A handle was given out in the operations `ops`, and `later` has happened since.
If its object was revoked fewer than `2 ^ 32` times since the root mint, a check
that answers ok only grants what the root mint and every derivation on the path
have granted, of an object that was not revoked since the root mint. So a revoked
handle is never live again. -/
theorem check_sound {n : ℕ} (ops later : List Op) (h : Handle)
    (hh : h ∈ ((State.start : State n).run ops).handles)
    (hfew : (h.after later).revocations < 2 ^ 32) :
    (∀ want, ((State.start : State n).run (ops ++ later)).table.check h.cap want = .ok →
      Covers h.root want ∧ (∀ mask ∈ h.masks, Covers mask want) ∧
        Op.revoke h.cap.object ∉ h.later ++ later) ∧
    (∀ want, ((State.start : State n).run ops).table.check h.cap want = .revoked →
      ∀ want', ((State.start : State n).run (ops ++ later)).table.check h.cap want' ≠ .ok) := by
  have hnow := tracks_of_mem hh
  have hmem : h.after later ∈ ((State.start : State n).run (ops ++ later)).handles := by
    rw [State.run_append]
    exact mem_run later hh
  have hlater := tracks_of_mem hmem
  have hzero : ∀ want, ((State.start : State n).run (ops ++ later)).table.check h.cap want = .ok →
      (h.after later).revocations = 0 := fun want hok =>
    Nat.eq_zero_of_dvd_of_lt ((hlater.check_eq_ok _).mp hok).2.2.2 hfew
  constructor
  · intro want hok
    obtain ⟨-, hroot, hmasks, -⟩ := (hlater.check_eq_ok _).mp hok
    exact ⟨hroot, hmasks, List.count_eq_zero.mp (hzero want hok)⟩
  · intro want hrev want' hok
    -- no revocation up to the end, so none up to the first check
    have hnone : h.revocations = 0 := by
      have hall := hzero want' hok
      simp only [Handle.revocations, Handle.after, List.count_append] at hall
      exact Nat.eq_zero_of_add_eq_zero_right hall
    have hne : h.cap.generation ≠ genNever := ((hlater.check_eq_ok _).mp hok).1
    have hlive := hnow.generation
    rw [hnone] at hlive
    exact CapTable.check_ne_revoked want hne (hlive.trans (by simp)) hrev

def delegated : List Op := [.mint 0 (rRead ||| rDelegate), .derive 0 rRead]

theorem check_sound_delegated :
    ((State.start : State 2).run (delegated ++ [.revoke 1])).table.check ⟨0, rRead, 1⟩ rRead = .ok ∧
      Op.revoke 0 ∉ [Op.derive 0 rRead] ++ [.revoke 1] :=
  have hok : ((State.start : State 2).run (delegated ++ [.revoke 1])).table.check
      ⟨0, rRead, 1⟩ rRead = .ok := by decide
  ⟨hok, ((check_sound (n := 2) delegated [.revoke 1]
    ⟨⟨0, rRead, 1⟩, rRead ||| rDelegate, [rRead], [.derive 0 rRead]⟩ (by decide) (by decide)).1
      rRead hok).2.2⟩

/-! ### The counter wraps -/

def mintRevoke (k : ℕ) : List Op := .mint 0 rRead :: List.replicate k (.revoke 0)

def minted : Cap := ⟨0, rRead, 1⟩

theorem minted_mem (k : ℕ) : Handle.mk minted rRead [] (List.replicate k (.revoke 0)) ∈
    ((State.start : State 1).run (mintRevoke k)).handles := by
  have hmem : Handle.mk minted rRead [] [] ∈
      ((State.start : State 1).step (.mint 0 rRead)).handles := by decide
  exact mem_run (List.replicate k (.revoke 0)) hmem

theorem check_mintRevoke (k : ℕ) :
    ((State.start : State 1).run (mintRevoke k)).table.check minted rRead = .ok ↔ 2 ^ 32 ∣ k := by
  have hcheck := (tracks_of_mem (minted_mem k)).check_eq_ok rRead
  have hcovers : Covers rRead rRead := by decide
  have hgen : ¬ (1 : UInt32) = genNever := by decide
  simpa [hcovers, hgen, Handle.revocations, minted] using hcheck

/-- After `2 ^ 32` revocations the generation is back at its first value, and the
handle of the first mint is live again. -/
theorem revived_by_wrapping :
    Handle.mk minted rRead [] (List.replicate (2 ^ 32) (.revoke 0)) ∈
        ((State.start : State 1).run (mintRevoke (2 ^ 32))).handles ∧
      Op.revoke minted.object ∈ List.replicate (2 ^ 32) (Op.revoke 0) ∧
      ((State.start : State 1).run (mintRevoke 1)).table.check minted rRead = .revoked ∧
      ((State.start : State 1).run (mintRevoke (2 ^ 32))).table.check minted rRead = .ok :=
  ⟨minted_mem _, List.mem_replicate.mpr ⟨by simp, rfl⟩, by decide,
    (check_mintRevoke _).mpr (Nat.dvd_refl _)⟩

end Dezh.Capabilities

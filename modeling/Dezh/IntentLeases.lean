import Dezh.IntentTable
import Dezh.StorePhases

/-!
# Leases of intents

There are two gates in front of an intent. A run of a package under an intent
looks up the intent, refuses it if it is revoked or has no lease left, loads the
store, finds the package and launches it with its capabilities cut down to the
ceiling of the intent; one use of the lease is taken off after the run. A plain
use of a lease does the same without a package.
-/
namespace Dezh.IntentLeases
open Function BlockProgram CairnFormat PackageFormat PackageStore PackageCommands StorePhases IntentTable

variable {a : Ahds} {id j : UInt16} {x : AhdSlot}

/-! ### The gate of a run -/

inductive IntentRun where
  | notOpen | deniedRevoked | deniedExhausted | storeUnavailable | notInstalled
  | launched (entry : PkgEntry) (derived : ℕ)

/-- The table after a run that found `lease` in its slot. The package itself has
no way to change the table. -/
def consumed (a : Ahds) (i : Fin maxAhd) (lease : UInt32) : Ahds :=
  if lease = ahdUnlimited then a
  else
    let left := lease - 1
    a.setLease i left ((a.slots i).revoked || left = 0)

/-- Run a package under an intent: what happens, the table and the state of the
package module. -/
def intentRun (a : Ahds) (k : Kernel) (id : UInt16) (name : Text) :
    Program Sector ((IntentRun × Ahds) × Kernel) :=
  match a.ahdSlotIndex id with
  | none => pure ((.notOpen, a), k)
  | some i =>
    let slot := a.slots i
    if slot.revoked then pure ((.deniedRevoked, a), k)
    else if slot.lease = 0 then pure ((.deniedExhausted, a), k)
    else withStore k (.storeUnavailable, a) fun k =>
      match findRuntimePkg k name with
      | none => pure ((.notInstalled, a), k)
      | some e => pure ((.launched e (e.mcaps &&& slot.ceiling), consumed a i slot.lease), k)

/-! ### Sessions -/

structure Session where
  ahds : Ahds
  kernel : Kernel
  disk : Disk Sector

/-- What is entered in a session. A run comes with the failures of the device and
the disk its package leaves behind; any other command only shows in the package
module and on the disk. -/
inductive AhdCommand where
  | openAhd (kind : String) (lease : UInt32)
  | revoke (id : UInt16)
  | run (id : UInt16) (name : Text) (f : Schedule) (left : Disk Sector)
  | use (id : UInt16)
  | other (k : Kernel) (d : Disk Sector)

inductive Reply where
  | silent
  | opened (id : UInt16)
  | ran (id : UInt16) (r : IntentRun)
  | used (id : UInt16) (u : Option LeaseUse)

def Reply.accepts (id : UInt16) : Reply → Bool
  | .ran j (.launched _ _) => j == id
  | .used j (some (.authorized _)) => j == id
  | _ => false

namespace Session

def boot (k : Kernel) (d : Disk Sector) : Session := ⟨.boot, k, d⟩

def runUnder (s : Session) (id : UInt16) (name : Text) (f : Schedule) (left : Disk Sector) :
    Session × Reply :=
  let x := (intentRun s.ahds s.kernel id name).run f s.disk
  let disk := match x.1.1.1 with
    | .launched _ _ => left
    | _ => x.2
  (⟨x.1.1.2, x.1.2, disk⟩, .ran id x.1.1.1)

def step (s : Session) : AhdCommand → Session × Reply
  | .openAhd kind lease =>
    match s.ahds.openAhd kind lease with
    | none => (s, .silent)
    | some ((id, _), a) => ({ s with ahds := a }, .opened id)
  | .revoke id => ({ s with ahds := s.ahds.intentRevoke id }, .silent)
  | .run id name f left => s.runUnder id name f left
  | .use id => ({ s with ahds := s.ahds.leased id }, .used id ((s.ahds.leaseUse id).map Prod.fst))
  | .other k d => (⟨s.ahds, k, d⟩, .silent)

def run (s : Session) : List AhdCommand → Session × List Reply
  | [] => (s, [])
  | c :: cs =>
    let x := s.step c
    let y := x.1.run cs
    (y.1, x.2 :: y.2)

end Session

/-! ### The slot of an intent -/

namespace Ahds
open IntentTable.Ahds
variable {a' : Ahds} {i : Fin maxAhd}

def find (a : Ahds) (id : UInt16) : Option AhdSlot := (a.ahdSlotIndex id).map a.slots

theorem ahdSlotIndex_sameIds (h : SameIds a a') : a'.ahdSlotIndex id = a.ahdSlotIndex id := by
  unfold ahdSlotIndex
  congr 1
  funext n
  rw [(h.slot n).1, (h.slot n).2]

section
variable (h : a.ahdSlotIndex id = some i)
include h

theorem id_of_ahdSlotIndex : (a.slots i).id = id := by
  have hi := (Fin.find?_eq_some_iff.mp h).1
  rw [Bool.and_eq_true, beq_iff_eq] at hi
  exact hi.2

theorem find_setLease_self {lease : UInt32} {revoked : Bool} :
    find (a.setLease i lease revoked) id = some { a.slots i with lease, revoked } := by
  rw [find, ahdSlotIndex_sameIds sameIds_setLease, h, Option.map_some]
  exact congrArg some (update_self ..)

theorem find_setLease_other {lease : UInt32} {revoked : Bool}
    (hj : j ≠ id) : find (a.setLease i lease revoked) j = find a j := by
  rw [find, find, ahdSlotIndex_sameIds sameIds_setLease]
  cases hn : a.ahdSlotIndex j with
  | none => rfl
  | some n =>
    have hne : n ≠ i := by
      rintro rfl
      exact hj ((id_of_ahdSlotIndex hn).symm.trans (id_of_ahdSlotIndex h))
    rw [Option.map_some, Option.map_some]
    exact congrArg some (update_of_ne hne ..)

end

section
variable {kind : String} {lease : UInt32} {k : AhdKind}

theorem find_openAhd_self (hv : a.Valid) (h : a.openAhd kind lease = some ((id, k), a')) :
    find a' id = some (AhdSlot.mk true id k.name k.ceiling lease false) := by
  obtain ⟨rfl, i, -, -, hs⟩ := openAhd_eq h
  have hi : a'.ahdSlotIndex a.nextId = some i := by
    refine Fin.find?_eq_some_iff.mpr ⟨by simp [hs], fun n hn => ?_⟩
    -- every other used slot has an older id
    rw [hs, update_of_ne (Fin.ne_of_lt hn)]
    cases hu : (a.slots n).used with
    | false => rfl
    | true =>
      have hid := (hv.ids n hu).2
      rw [Bool.true_and, beq_eq_false_iff_ne]
      rintro heq
      rw [heq] at hid
      exact Nat.lt_irrefl _ hid
  rw [find, hi, Option.map_some, hs, update_self]

theorem find_openAhd_other (hv : a.Valid) (h : a.openAhd kind lease = some ((id, k), a'))
    {x : AhdSlot} (hx : find a j = some x) : find a' j = some x := by
  obtain ⟨rfl, i, hfree, -, hs⟩ := openAhd_eq h
  obtain ⟨n, hn, rfl⟩ := Option.map_eq_some_iff.mp hx
  obtain ⟨hused, hbefore⟩ := Fin.find?_eq_some_iff.mp hn
  have hfree' := (Fin.find?_eq_some_iff.mp hfree).1
  have hopen : (a.slots n).used = true ∧ (a.slots n).id = j := by
    rw [Bool.and_eq_true, beq_iff_eq] at hused
    exact hused
  have hold := (hv.isOpen ⟨n, hopen⟩).2
  have hne : n ≠ i := by
    rintro rfl
    rw [hopen.1] at hfree'
    cases hfree'
  have hindex : a'.ahdSlotIndex j = some n := by
    refine Fin.find?_eq_some_iff.mpr ⟨?_, fun m hm => ?_⟩
    · rw [hs, update_of_ne hne]
      exact hused
    · rw [hs]
      by_cases hmi : m = i
      · rw [hmi, update_self, Bool.true_and, beq_eq_false_iff_ne]
        rintro rfl
        exact Nat.lt_irrefl _ hold
      · rw [update_of_ne hmi]
        exact hbefore m hm
  rw [find, hindex, Option.map_some, hs, update_of_ne hne]

end

end Ahds

/-! ### What one command does to a slot -/

def taken (x : AhdSlot) : AhdSlot :=
  if x.lease = ahdUnlimited then x
  else { x with lease := x.lease - 1, revoked := decide (x.lease - 1 = 0) }

def withdrawn (x : AhdSlot) : AhdSlot := { x with lease := 0, revoked := true }

/-- What a command can do to a slot, and whether it has authorized something. -/
inductive Moves (x : AhdSlot) : Bool → AhdSlot → Prop
  | taken : x.revoked = false → x.lease ≠ 0 → Moves x true (taken x)
  | withdrawn : Moves x false (withdrawn x)
  | kept : Moves x false x

section
open IntentTable.Ahds Ahds
theorem moves_setLease {i : Fin maxAhd} {b : Bool} {lease : UInt32} {revoked : Bool}
    (hi : a.ahdSlotIndex id = some i) (hx : find a j = some x)
    (hm : Moves (a.slots i) b { a.slots i with lease, revoked }) :
    ∃ y, find (a.setLease i lease revoked) j = some y ∧ Moves x (b && id == j) y := by
  by_cases hj : j = id
  · subst hj
    rw [find, hi, Option.map_some, Option.some.injEq] at hx
    subst hx
    exact ⟨_, find_setLease_self hi, by rwa [beq_self_eq_true, Bool.and_true]⟩
  · refine ⟨x, (find_setLease_other hi hj).trans hx, ?_⟩
    rw [beq_eq_false_iff_ne.mpr (Ne.symm hj), Bool.and_false]
    exact .kept

theorem moves_intentRevoke (id : UInt16) (hx : find a j = some x) :
    ∃ y, find (a.intentRevoke id) j = some y ∧ Moves x false y := by
  unfold intentRevoke
  cases hi : a.ahdSlotIndex id with
  | none => exact ⟨x, hx, .kept⟩
  | some i =>
    dsimp only
    split
    · exact ⟨x, hx, .kept⟩
    · exact moves_setLease (b := false) hi hx .withdrawn

theorem revoked_intentRevoke (hx : find a id = some x) :
    ∃ y, find (a.intentRevoke id) id = some y ∧ y.revoked = true := by
  obtain ⟨i, hi, rfl⟩ := Option.map_eq_some_iff.mp hx
  unfold intentRevoke
  rewrite [hi]
  dsimp only
  split
  · next hr => exact ⟨_, hx, hr⟩
  · exact ⟨_, find_setLease_self hi, rfl⟩

theorem moves_consumed {i : Fin maxAhd} (hi : a.ahdSlotIndex id = some i)
    (hr : (a.slots i).revoked = false) (hl : (a.slots i).lease ≠ 0) (hx : find a j = some x) :
    ∃ y, find (consumed a i (a.slots i).lease) j = some y ∧ Moves x (id == j) y := by
  have htaken := Moves.taken hr hl
  unfold consumed
  unfold taken at htaken
  split
  · next hlim =>
      rw [if_pos hlim] at htaken
      by_cases hj : j = id
      · subst hj
        rw [find, hi, Option.map_some, Option.some.injEq] at hx
        subst hx
        exact ⟨_, by rw [find, hi, Option.map_some], by rwa [beq_self_eq_true]⟩
      · exact ⟨x, hx, by rw [beq_eq_false_iff_ne.mpr (Ne.symm hj)]; exact .kept⟩
  · next hlim =>
      rw [if_neg hlim] at htaken
      dsimp only
      rw [hr, Bool.false_or]
      exact moves_setLease hi hx htaken

theorem leaseUse_cases {i : Fin maxAhd} (h : a.ahdSlotIndex id = some i) :
    a.leaseUse id = some (.deniedRevoked, a) ∧ (a.slots i).revoked = true ∨
      a.leaseUse id = some (.deniedExhausted, a) ∧ (a.slots i).revoked = false ∧
        (a.slots i).lease = 0 ∨
      (∃ left, a.leaseUse id = some (.authorized left, consumed a i (a.slots i).lease)) ∧
        (a.slots i).revoked = false ∧ (a.slots i).lease ≠ 0 := by
  simp only [leaseUse, h, Option.bind_eq_bind, Option.bind_some, Option.pure_def, consumed]
  cases hr : (a.slots i).revoked with
  | true => exact .inl ⟨rfl, rfl⟩
  | false =>
    by_cases hl : (a.slots i).lease = 0
    · refine .inr (.inl ⟨?_, rfl, hl⟩)
      rw [if_neg Bool.false_ne_true, if_pos hl]
    · refine .inr (.inr ⟨?_, rfl, hl⟩)
      rw [if_neg Bool.false_ne_true, if_neg hl]
      split
      · exact ⟨_, rfl⟩
      · rw [Bool.false_or]
        exact ⟨_, rfl⟩

end

theorem run_intentRun (a : Ahds) (k : Kernel) (id : UInt16) (name : Text) (f : Schedule)
    (d : Disk Sector) :
    (∀ j, (Reply.ran id ((intentRun a k id name).run f d).1.1.1).accepts j = false) ∧
        ((intentRun a k id name).run f d).1.1.2 = a ∨
      ∃ i e k', a.ahdSlotIndex id = some i ∧ (a.slots i).revoked = false ∧
        (a.slots i).lease ≠ 0 ∧ findRuntimePkg k' name = some e ∧
        ((intentRun a k id name).run f d).1 =
          ((.launched e (e.mcaps &&& (a.slots i).ceiling), consumed a i (a.slots i).lease), k') := by
  unfold intentRun
  cases hi : a.ahdSlotIndex id with
  | none => exact .inl ⟨fun _ => rfl, rfl⟩
  | some i =>
    dsimp only
    split
    · exact .inl ⟨fun _ => rfl, rfl⟩
    · next hr =>
        split
        · exact .inl ⟨fun _ => rfl, rfl⟩
        · next hl =>
            rw [withStore, Program.run_bind]
            generalize ((ensureLoaded k).run f d).1 = r
            obtain ⟨ok, k'⟩ := r
            cases ok with
            | false => exact .inl ⟨fun _ => rfl, rfl⟩
            | true =>
              dsimp only
              rw [if_pos rfl]
              cases hp : findRuntimePkg k' name with
              | none => exact .inl ⟨fun _ => rfl, rfl⟩
              | some e => exact .inr ⟨i, e, k', rfl, Bool.eq_false_iff.mpr hr, hl, hp, rfl⟩

/-- Several commands, one after the other, that authorize `n` times in all. -/
inductive Path : AhdSlot → ℕ → AhdSlot → Prop
  | done (x : AhdSlot) : Path x 0 x
  | step {x y z : AhdSlot} {b : Bool} {n : ℕ} :
      Moves x b y → Path y n z → Path x (n + if b then 1 else 0) z

def remaining (x : AhdSlot) : ℕ := if x.revoked then 0 else x.lease.toNat

/-- Revoked or exhausted. -/
def Spent (x : AhdSlot) : Prop := x.revoked = true ∨ x.lease = 0

section
variable {y z : AhdSlot} {b : Bool} {n : ℕ}

theorem toNat_sub_one {v : UInt32} (h : v ≠ 0) : (v - 1).toNat + 1 = v.toNat := by
  have hpos : 1 ≤ v.toNat := Nat.pos_of_ne_zero fun h0 => h (UInt32.toNat_inj.mp h0)
  have hle : (1 : UInt32) ≤ v := UInt32.le_iff_toNat_le.mpr hpos
  rw [UInt32.toNat_sub_of_le _ _ hle]
  exact Nat.sub_add_cancel hpos

theorem Moves.remaining_le (h : Moves x b y) (hx : x.lease ≠ ahdUnlimited) :
    (if b then 1 else 0) + remaining y ≤ remaining x ∧ y.lease ≠ ahdUnlimited := by
  cases h with
  | taken hr hl =>
    have hsub := toNat_sub_one hl
    have hlt := x.lease.toNat_lt
    unfold remaining IntentLeases.taken
    rw [if_neg hx, if_pos rfl, hr, if_neg Bool.false_ne_true]
    constructor
    · dsimp only
      split
      all_goals omega
    · intro hlim
      have hmax := congrArg UInt32.toNat hlim
      have hnum : ahdUnlimited.toNat = 2 ^ 32 - 1 := by decide
      dsimp only at hmax
      omega
  | withdrawn =>
    unfold remaining IntentLeases.withdrawn
    exact ⟨by simp, (by decide : (0 : UInt32) ≠ ahdUnlimited)⟩
  | kept => exact ⟨by simp, hx⟩

theorem Moves.spent (h : Moves x b y) (hx : Spent x) : b = false ∧ Spent y := by
  cases h with
  | taken hr hl =>
    rcases hx with hx | hx
    · rw [hr] at hx
      cases hx
    · exact absurd hx hl
  | withdrawn => exact ⟨rfl, .inl rfl⟩
  | kept => exact ⟨rfl, hx⟩

theorem Moves.revoked (h : Moves x b y) (hx : x.revoked = true) : y.revoked = true := by
  cases h with
  | taken hr hl =>
    rw [hr] at hx
    cases hx
  | withdrawn => rfl
  | kept => exact hx

theorem Moves.ceiling_eq (h : Moves x b y) : y.ceiling = x.ceiling := by
  cases h with
  | taken hr hl =>
    unfold IntentLeases.taken
    split
    all_goals rfl
  | withdrawn | kept => rfl

theorem Path.remaining_le (h : Path x n z) (hx : x.lease ≠ ahdUnlimited) :
    n + remaining z ≤ remaining x := by
  induction h with
  | done x => exact (Nat.zero_add _).le
  | step hm _ ih =>
    obtain ⟨hle, hy⟩ := hm.remaining_le hx
    have hrest := ih hy
    omega

theorem Path.spent (h : Path x n z) (hx : Spent x) : n = 0 := by
  induction h with
  | done x => rfl
  | step hm _ ih =>
    obtain ⟨rfl, hy⟩ := hm.spent hx
    exact ih hy

theorem Path.revoked (h : Path x n z) (hx : x.revoked = true) : z.revoked = true := by
  induction h with
  | done x => exact hx
  | step hm _ ih => exact ih (hm.revoked hx)

theorem Path.ceiling_eq (h : Path x n z) : z.ceiling = x.ceiling := by
  induction h with
  | done x => rfl
  | step hm _ ih => exact ih.trans hm.ceiling_eq

end

/-! ### What a session does to an intent -/

namespace Session
open Ahds
variable {s : Session}

theorem step_use {j : UInt16} {u : LeaseUse} {a : Ahds} (h : s.ahds.leaseUse j = some (u, a)) :
    s.step (.use j) = ({ s with ahds := a }, .used j (some u)) := by
  simp only [step, IntentTable.Ahds.leased, h, Option.map_some, Option.getD_some]

theorem step_moves (hv : s.ahds.Valid) (hx : find s.ahds id = some x) (c : AhdCommand) :
    ∃ y, find (s.step c).1.ahds id = some y ∧ Moves x ((s.step c).2.accepts id) y := by
  cases c with
  | openAhd kind lease =>
    cases h : s.ahds.openAhd kind lease with
    | none =>
      simp only [step, h]
      exact ⟨x, hx, .kept⟩
    | some r =>
      obtain ⟨⟨new, k⟩, a⟩ := r
      simp only [step, h]
      exact ⟨x, find_openAhd_other hv h hx, .kept⟩
  | revoke j => exact moves_intentRevoke j hx
  | run j name f left =>
    rcases run_intentRun s.ahds s.kernel j name f s.disk with
      ⟨hnone, htable⟩ | ⟨i, e, k', hi, hr, hl, -, hrun⟩
    · refine ⟨x, ?_, ?_⟩
      · simp only [step, runUnder, htable, hx]
      · simp only [step, runUnder, hnone]
        exact .kept
    · simp only [step, runUnder, hrun]
      exact moves_consumed hi hr hl hx
  | use j =>
    cases hi : s.ahds.ahdSlotIndex j with
    | none =>
      have hnone : s.ahds.leaseUse j = none := by
        rw [IntentTable.Ahds.leaseUse, hi]
        rfl
      refine ⟨x, ?_, ?_⟩
      · simp only [step, IntentTable.Ahds.leased, hnone, Option.map_none, Option.getD_none, hx]
      · simp only [step, hnone]
        exact .kept
    | some i =>
      rcases leaseUse_cases hi with ⟨h, -⟩ | ⟨h, -⟩ | ⟨⟨left, h⟩, hr, hl⟩
      · rw [step_use h]
        exact ⟨x, hx, .kept⟩
      · rw [step_use h]
        exact ⟨x, hx, .kept⟩
      · rw [step_use h]
        exact moves_consumed hi hr hl hx
  | other k d => exact ⟨x, hx, .kept⟩

theorem sameIds_consumed (a : Ahds) (i : Fin maxAhd) (lease : UInt32) :
    IntentTable.Ahds.SameIds a (consumed a i lease) := by
  unfold consumed
  split
  · exact .refl a
  · exact IntentTable.Ahds.sameIds_setLease

theorem valid_step (hv : s.ahds.Valid) (c : AhdCommand) : (s.step c).1.ahds.Valid := by
  cases c with
  | openAhd kind lease =>
    cases h : s.ahds.openAhd kind lease with
    | none =>
      simp only [step, h]
      exact hv
    | some r =>
      obtain ⟨⟨new, k⟩, a⟩ := r
      simp only [step, h]
      exact hv.openAhd h
  | revoke j => exact (IntentTable.Ahds.sameIds_intentRevoke _ j).valid hv
  | run j name f left =>
    rcases run_intentRun s.ahds s.kernel j name f s.disk with
      ⟨-, htable⟩ | ⟨i, e, k', -, -, -, -, hrun⟩
    · simp only [step, runUnder, htable]
      exact hv
    · simp only [step, runUnder, hrun]
      exact (sameIds_consumed _ _ _).valid hv
  | use j => exact (IntentTable.Ahds.sameIds_leased _ j).valid hv
  | other k d => exact hv

theorem valid_run (hv : s.ahds.Valid) (cs : List AhdCommand) : (s.run cs).1.ahds.Valid := by
  induction cs generalizing s with
  | nil => exact hv
  | cons c cs ih => exact ih (valid_step hv c)

theorem run_path (hv : s.ahds.Valid) (hx : find s.ahds id = some x) (cs : List AhdCommand) :
    ∃ y, find (s.run cs).1.ahds id = some y ∧ Path x ((s.run cs).2.countP (·.accepts id)) y := by
  induction cs generalizing s x with
  | nil => exact ⟨x, hx, .done x⟩
  | cons c cs ih =>
    obtain ⟨y, hy, hmove⟩ := step_moves hv hx c
    obtain ⟨z, hz, hpath⟩ := ih (valid_step hv c) hy
    refine ⟨z, hz, ?_⟩
    rw [run, List.countP_cons]
    exact .step hmove hpath

/-! ### Exchanging the gates -/

theorem intentRun_loaded {k : Kernel} (hk : (k.loaded && !k.degraded) = true) (a : Ahds)
    (id : UInt16) (name : Text) : ∃ r, intentRun a k id name = pure (r, k) := by
  unfold intentRun
  cases a.ahdSlotIndex id with
  | none => exact ⟨_, rfl⟩
  | some i =>
    dsimp only
    split
    · exact ⟨_, rfl⟩
    · split
      · exact ⟨_, rfl⟩
      · rw [withStore_of_loaded hk]
        cases findRuntimePkg k name with
        | none | some e => exact ⟨_, rfl⟩

/-- Sessions that differ at most in the disk under a loaded store. -/
structure Agrees (s t : Session) : Prop where
  ahds : s.ahds = t.ahds
  kernel : s.kernel = t.kernel
  disk : s.disk = t.disk ∨ (s.kernel.loaded && !s.kernel.degraded) = true

theorem Agrees.step {t : Session} (h : Agrees s t) (c : AhdCommand) :
    (s.step c).2 = (t.step c).2 ∧ Agrees (s.step c).1 (t.step c).1 := by
  obtain ⟨a, k, d⟩ := s
  obtain ⟨a', k', d'⟩ := t
  obtain ⟨rfl, rfl, hdisk⟩ := h
  cases c with
  | openAhd kind lease =>
    cases h : a.openAhd kind lease with
    | none | some r =>
      simp only [Session.step, h]
      exact ⟨trivial, rfl, rfl, hdisk⟩
  | revoke j | use j => exact ⟨rfl, rfl, rfl, hdisk⟩
  | run j name f left =>
    rcases hdisk with rfl | hk
    · exact ⟨rfl, rfl, rfl, .inl rfl⟩
    · obtain ⟨r, hr⟩ := intentRun_loaded hk a j name
      simp only [Session.step, runUnder, hr]
      exact ⟨rfl, rfl, rfl, .inr hk⟩
  | other k d => exact ⟨rfl, rfl, rfl, .inl rfl⟩

theorem Agrees.run {t : Session} (h : Agrees s t) (cs : List AhdCommand) :
    (s.run cs).2 = (t.run cs).2 ∧ Agrees (s.run cs).1 (t.run cs).1 := by
  induction cs generalizing s t with
  | nil => exact ⟨rfl, h⟩
  | cons c cs ih =>
    obtain ⟨hreply, hnext⟩ := h.step c
    obtain ⟨hreplies, hlast⟩ := ih hnext
    exact ⟨congrArg₂ List.cons hreply hreplies, hlast⟩

theorem agrees_run_use (hx : find s.ahds id = some x)
    (hk : (s.kernel.loaded && !s.kernel.degraded) = true) {name : Text} {e : PkgEntry}
    (he : findRuntimePkg s.kernel name = some e) (f : Schedule) (left : Disk Sector) :
    (∀ j, (s.step (.run id name f left)).2.accepts j = (s.step (.use id)).2.accepts j) ∧
      Agrees (s.step (.run id name f left)).1 (s.step (.use id)).1 := by
  obtain ⟨i, hi, rfl⟩ := Option.map_eq_some_iff.mp hx
  have hrun : intentRun s.ahds s.kernel id name =
      if (s.ahds.slots i).revoked then pure ((.deniedRevoked, s.ahds), s.kernel)
      else if (s.ahds.slots i).lease = 0 then pure ((.deniedExhausted, s.ahds), s.kernel)
      else pure ((.launched e (e.mcaps &&& (s.ahds.slots i).ceiling),
        consumed s.ahds i (s.ahds.slots i).lease), s.kernel) := by
    unfold intentRun
    rewrite [hi]
    dsimp only
    rewrite [withStore_of_loaded hk]
    rw [he]
  rcases leaseUse_cases hi with ⟨huse, hr⟩ | ⟨huse, hr, hl⟩ | ⟨⟨n, huse⟩, hr, hl⟩
  · rw [if_pos hr] at hrun
    rw [step_use huse]
    simp only [step, runUnder, hrun]
    exact ⟨fun _ => rfl, rfl, rfl, .inr hk⟩
  · rw [if_neg (by rw [hr]; decide), if_pos hl] at hrun
    rw [step_use huse]
    simp only [step, runUnder, hrun]
    exact ⟨fun _ => rfl, rfl, rfl, .inr hk⟩
  · rw [if_neg (by rw [hr]; decide), if_neg hl] at hrun
    rw [step_use huse]
    simp only [step, runUnder, hrun]
    exact ⟨fun _ => rfl, rfl, rfl, .inr hk⟩

theorem launched_derived (hx : find s.ahds id = some x) {name : Text} {f : Schedule}
    {left : Disk Sector} {e : PkgEntry} {derived : ℕ}
    (h : (s.step (.run id name f left)).2 = .ran id (.launched e derived)) :
    findRuntimePkg (s.step (.run id name f left)).1.kernel name = some e ∧
      derived = e.mcaps &&& x.ceiling := by
  obtain ⟨i, hi, rfl⟩ := Option.map_eq_some_iff.mp hx
  rcases run_intentRun s.ahds s.kernel id name f s.disk with
    ⟨hnone, -⟩ | ⟨i', e', k', hi', -, -, he', hrun⟩
  · have haccept := hnone id
    simp only [step, runUnder] at h
    rw [h] at haccept
    simp [Reply.accepts] at haccept
  · obtain rfl : i = i' := Option.some.inj (hi.symm.trans hi')
    simp only [step, runUnder, hrun, Reply.ran.injEq, IntentRun.launched.injEq, true_and] at h ⊢
    obtain ⟨rfl, rfl⟩ := h
    exact ⟨he', rfl⟩

/-- The intent is revoked. -/
def Revoked (s : Session) (id : UInt16) : Prop := ∃ x, find s.ahds id = some x ∧ x.revoked = true

/-- The intent is revoked or exhausted. -/
def Exhausted (s : Session) (id : UInt16) : Prop := ∃ x, find s.ahds id = some x ∧ Spent x

theorem revoked_revoke (hx : find s.ahds id = some x) : (s.step (.revoke id)).1.Revoked id :=
  revoked_intentRevoke hx

end Session

open Session in
/-- In every session: an intent opened with a finite lease authorizes no more runs
and uses than its lease says, and none once it is revoked or exhausted. Revoking it
works, and for good. A run under it launches a package of the table with exactly
those of its installed capabilities that the intent admits. For a loaded package,
a run under it can be exchanged for a plain use without a change in any later
reply or in the table. -/
theorem intent_bounds_authority (k : Kernel) (d : Disk Sector) (before : List AhdCommand)
    (kind : String) (lease : UInt32) (id : UInt16) (kd : AhdKind) (a : Ahds)
    (hopen : ((boot k d).run before).1.ahds.openAhd kind lease = some ((id, kd), a))
    (after : List AhdCommand) (t : Session) (replies : List Reply)
    (ht : (((boot k d).run before).1.step (.openAhd kind lease)).1.run after = (t, replies)) :
    (lease ≠ ahdUnlimited → replies.countP (·.accepts id) ≤ lease.toNat) ∧
      (t.Exhausted id → ∀ later, (t.run later).2.countP (·.accepts id) = 0) ∧
      (t.step (.revoke id)).1.Revoked id ∧
      (t.Revoked id → ∀ later, (t.run later).1.Revoked id) ∧
      (∀ name f left e derived, (t.step (.run id name f left)).2 = .ran id (.launched e derived) →
        findRuntimePkg (t.step (.run id name f left)).1.kernel name = some e ∧
          derived = e.mcaps &&& kd.ceiling) ∧
      ∀ name f left e, (t.kernel.loaded && !t.kernel.degraded) = true →
        findRuntimePkg t.kernel name = some e →
        (t.step (.run id name f left)).2.accepts id = (t.step (.use id)).2.accepts id ∧
          ∀ later, ((t.step (.run id name f left)).1.run later).2 =
              ((t.step (.use id)).1.run later).2 ∧
            ((t.step (.run id name f left)).1.run later).1.ahds =
              ((t.step (.use id)).1.run later).1.ahds := by
  have hv₀ : ((boot k d).run before).1.ahds.Valid := valid_run Ahds.valid_boot before
  have hstep : (((boot k d).run before).1.step (.openAhd kind lease)).1 =
      { ((boot k d).run before).1 with ahds := a } := by
    simp only [step, hopen]
  have hstart : Ahds.find a id = some (AhdSlot.mk true id kd.name kd.ceiling lease false) :=
    Ahds.find_openAhd_self hv₀ hopen
  have hv₁ : a.Valid := hv₀.openAhd hopen
  rw [hstep] at ht
  obtain ⟨x, hx, hpath⟩ := run_path (s := { ((boot k d).run before).1 with ahds := a }) hv₁ hstart
    after
  have hv : t.ahds.Valid := by
    have hrun := valid_run (s := { ((boot k d).run before).1 with ahds := a }) hv₁ after
    rwa [ht] at hrun
  rw [ht] at hx hpath
  refine ⟨fun hfin => ?_, fun hspent later => ?_, revoked_revoke hx, fun hrev later => ?_,
    fun name f left e derived h => ?_, fun name f left e hk he => ?_⟩
  · have hle := hpath.remaining_le hfin
    exact (Nat.le_add_right _ _).trans hle
  · obtain ⟨y, hy, hs⟩ := hspent
    obtain ⟨z, -, hlater⟩ := run_path hv hy later
    exact hlater.spent hs
  · obtain ⟨y, hy, hr⟩ := hrev
    obtain ⟨z, hz, hlater⟩ := run_path hv hy later
    exact ⟨z, hz, hlater.revoked hr⟩
  · have hceiling : x.ceiling = kd.ceiling := hpath.ceiling_eq
    rw [← hceiling]
    exact launched_derived hx h
  · obtain ⟨haccepts, hagrees⟩ := agrees_run_use hx hk he f left
    refine ⟨haccepts id, fun later => ?_⟩
    obtain ⟨hreplies, hlast⟩ := hagrees.run later
    exact ⟨hreplies, hlast.ahds⟩

theorem openAhd_boot : ∃ a, Ahds.boot.openAhd "compute" 1 = some ((1, .compute), a) := by
  have hkind : ahdKind "compute" = some .compute := by decide
  have hfree : Ahds.boot.freeSlot = some ⟨0, by decide⟩ := by decide
  unfold IntentTable.Ahds.openAhd
  rw [hkind, hfree]
  exact ⟨_, rfl⟩

theorem intent_bounds_authority_once :
    ((((Session.boot .boot fun _ _ => 0).run []).1.step (.openAhd "compute" 1)).1.run
      [.use 1, .use 1]).2.countP (·.accepts 1) ≤ 1 := by
  obtain ⟨a, ha⟩ := openAhd_boot
  exact (intent_bounds_authority .boot (fun _ _ => 0) [] "compute" 1 1 .compute a ha
    [.use 1, .use 1] _ _ rfl).1 (by decide)

end Dezh.IntentLeases

import Dezh.AccessTrees
import Dezh.BlockDaemon

/-!
# The accesses of the daemon's operations

Each operation of the daemon is walked once, over whatever the device answers: how many
accesses it makes, which sectors it reads and what it can write. The bound on a store
request, the confinement of the plain operations and what a request can do to the package
store are read off these walks.
-/
namespace Dezh.DaemonWalks
open BlockProgram Program ByteLayout CairnFormat CairnService SfarService BlockDaemon

/-- The sectors of the install marker, the single-value store and the built-in
applications. -/
def legacySectors : Set ℕ := {s | s ≤ 10 ∨ 16 ≤ s ∧ s ≤ 19}

def namesSector : Op → Bool
  | .bwrite | .pkgStoreInit | .pkgWrite _ => true
  | _ => false

def appends : Op → Bool
  | .cairnCommit | .sfarRollback => true
  | _ => false

def plain : Op → Bool
  | .bwrite | .bread | .cairnInit | .cairnCommit | .cairnGet | .cairnLog | .cairnRollback
  | .cairnVerify | .cairnStatus | .sandLog | .sandInfo | .sfarPlan | .sfarRollback | .tbar
  | .nsRevoke | .nsGrant => false
  | _ => true

def isStoreOp : Op → Bool
  | .cairnInit | .cairnCommit | .cairnGet | .cairnLog | .cairnRollback | .cairnVerify
  | .cairnStatus | .sandLog | .sandInfo | .sfarPlan | .sfarRollback | .tbar | .nsRevoke
  | .nsGrant => true
  | _ => false

def scanBound : ℕ := nsMax * commitSlots

def accessBound : ℕ := 17 * commitSlots

variable {Q : ℕ → Prop} {P : ℕ → Sector → Prop} {w : Bytes}

section
variable {sector n : ℕ}

theorem stays_rw_read (h : Q sector) : (rw w sector false).Stays Q P 1 := by
  refine ⟨Nat.one_pos, h, fun r => ?_⟩
  cases r
  all_goals trivial

theorem stays_rw_write (h : P sector (take sectorSize w)) : (rw w sector true).Stays Q P 1 :=
  ⟨Nat.one_pos, h, fun _ => trivial⟩

theorem stays_access_read (h : Q sector) : (access w sector false).Stays Q P 1 :=
  (stays_rw_read h).andThen le_rfl fun _ => trivial

theorem stays_access_write (h : P sector (take sectorSize w)) :
    (access w sector true).Stays Q P 1 :=
  (stays_rw_write h).andThen le_rfl fun _ => trivial

theorem stays_answered {p : Program Sector (Answer Status)} (h : p.Stays Q P n) :
    (answered p).Stays Q P n :=
  h.andThen le_rfl fun _ => trivial

theorem stays_statusOnly {A : Type} {status : A → Status} {p : Program Sector (Answer A)}
    (h : p.Stays Q P n) : (statusOnly status p).Stays Q P n :=
  h.andThen le_rfl fun _ => trivial

end

/-! ### The plain operations -/

theorem registrySector_legacy (app : App) : app.registrySector ∈ legacySectors := by
  cases app <;> exact Or.inl (by decide)

theorem rootSector_legacy (app : App) : app.rootSector ∈ legacySectors := by
  cases app <;> exact Or.inr (by decide)

theorem current_legacy : cairnCurrentSector ∈ legacySectors := Or.inl (by decide)

theorem previous_legacy : cairnPreviousSector ∈ legacySectors := Or.inl (by decide)

theorem marker_legacy : installMarkerSector ∈ legacySectors := Or.inl (by decide)

theorem metadata_legacy : rootMetadataSector ∈ legacySectors := Or.inl (by decide)

theorem registryPrevious_legacy : appRegistryPreviousSector ∈ legacySectors := Or.inl (by decide)

section
variable (hQ : ∀ s ∈ legacySectors, Q s)
include hQ

theorem stays_registryIs (app : App) (state : AppState) : (registryIs app state w).Stays Q P 1 :=
  (stays_rw_read (hQ _ (registrySector_legacy app))).andThen le_rfl fun _ => trivial

theorem stays_registryShown (app : App) : (registryShown app w).Stays Q P 2 := by
  refine (stays_registryIs hQ app _).andThen (by omega) fun a => ?_
  split
  · trivial
  · exact stays_registryIs hQ app _

theorem stays_appInstalled : (appInstalled w).Stays Q P 8 := by
  refine (stays_registryShown hQ _).andThen (by omega) fun _ => ?_
  refine (stays_registryShown hQ _).andThen (by omega) fun _ => ?_
  refine (stays_registryShown hQ _).andThen (by omega) fun _ => ?_
  exact (stays_registryShown hQ _).andThen (by omega) fun _ => trivial

theorem stays_appInfo : (appInfo w).Stays Q P 8 := by
  refine (stays_registryShown hQ _).andThen (by omega) fun _ => ?_
  refine (stays_registryShown hQ _).andThen (by omega) fun _ => ?_
  refine (stays_registryShown hQ _).andThen (by omega) fun _ => ?_
  exact (stays_registryShown hQ _).andThen (by omega) fun _ => trivial

theorem stays_appRequire (app : App) : (appRequire app w).Stays Q P 2 := by
  refine (stays_registryIs hQ app _).andThen (by omega) fun a => ?_
  split
  · trivial
  · exact (stays_registryIs hQ app _).andThen (by omega) fun _ => trivial

theorem stays_appGet (app : App) : (appGet app w).Stays Q P 2 := by
  refine (stays_registryIs hQ app _).andThen (by omega) fun a => ?_
  split
  · exact stays_access_read (hQ _ (rootSector_legacy app))
  · trivial

variable (hP : ∀ s b, s ∈ legacySectors → P s b)
include hP

theorem stays_pset (input : Bytes) (len : ℕ) : (pset input w len).Stays Q P 3 := by
  refine (stays_rw_read (hQ _ current_legacy)).andThen (by omega) fun _ => ?_
  refine (stays_rw_write (hP _ _ previous_legacy)).andThen (by omega) fun _ => ?_
  exact stays_access_write (hP _ _ current_legacy)

theorem stays_prollback : (prollback w).Stays Q P 2 := by
  refine (stays_rw_read (hQ _ previous_legacy)).andThen (by omega) fun _ => ?_
  exact stays_access_write (hP _ _ current_legacy)

omit hQ in
theorem stays_installInit : (installInit w).Stays Q P 2 := by
  refine (stays_rw_write (hP _ _ marker_legacy)).andThen (by omega) fun _ => ?_
  exact (stays_rw_write (hP _ _ metadata_legacy)).andThen (by omega) fun _ => trivial

theorem stays_appInstall (app : App) : (appInstall app w).Stays Q P 6 := by
  have hreg := registrySector_legacy app
  refine (stays_registryIs hQ app _).andThen (by omega) fun a => ?_
  split
  · trivial
  · refine (stays_rw_read (hQ _ hreg)).andThen (by omega) fun _ => ?_
    refine (stays_rw_write (hP _ _ registryPrevious_legacy)).andThen (by omega) fun _ => ?_
    refine (stays_rw_write (hP _ _ hreg)).andThen (by omega) fun _ => ?_
    refine (stays_rw_write (hP _ _ hreg)).andThen (by omega) fun _ => ?_
    exact (stays_registryIs hQ app _).andThen (by omega) fun _ => trivial

theorem stays_appRemove (app : App) : (appRemove app w).Stays Q P 5 := by
  have hreg := registrySector_legacy app
  refine (stays_registryShown hQ app).andThen (by omega) fun a => ?_
  split
  · refine (stays_rw_read (hQ _ hreg)).andThen (by omega) fun _ => ?_
    refine (stays_rw_write (hP _ _ registryPrevious_legacy)).andThen (by omega) fun _ => ?_
    exact stays_access_write (hP _ _ hreg)
  · trivial

theorem stays_appSet (app : App) (input : Bytes) (len : ℕ) :
    (appSet app input w len).Stays Q P 2 := by
  refine (stays_registryIs hQ app _).andThen (by omega) fun a => ?_
  split
  · exact stays_access_write (hP _ _ (rootSector_legacy app))
  · trivial

end

theorem legacy_below {s : ℕ} (h : s ∈ legacySectors) : s < superSector := by
  have hsuper : superSector = 1600 := rfl
  rcases h with h | h
  all_goals omega

theorem area_below {area : PkgArea} {sector : ℕ}
    (h : ¬ (sector < area.first ∨ area.last < sector)) : sector < superSector := by
  rw [not_or, not_lt, not_lt] at h
  exact h.2.trans_lt (by cases area <;> decide)

/-- The plain operations stay below the Cairn region. Outside the legacy sectors they write
only what the request names. -/
theorem stays_plain {op : Op} (hop : plain op = true) (hB : ∀ s < superSector, Q s)
    (hP : ∀ s b, s ∈ legacySectors → P s b)
    (hN : namesSector op = true → ∀ s b, s < superSector → P s b) (fuel : ℕ) (r : Request) :
    (dispatch fuel op r w).Stays Q P 8 := by
  have hQ : ∀ s ∈ legacySectors, Q s := fun s hs => hB s (legacy_below hs)
  cases op with
  | probe | stop | appAvailable | faultDemo => trivial
  | pget => exact stays_answered ((stays_access_read (hQ _ current_legacy)).mono (by omega))
  | rootStatus =>
    exact stays_answered ((stays_access_read (hQ _ metadata_legacy)).mono (by omega))
  | pset => exact stays_answered ((stays_pset hQ hP _ _).mono (by omega))
  | prollback => exact stays_answered ((stays_prollback hQ hP).mono (by omega))
  | installCheck =>
    refine stays_answered ((stays_rw_read (hQ _ marker_legacy)).andThen (by omega) fun _ => ?_)
    trivial
  | installInit => exact stays_answered ((stays_installInit hP).mono (by omega))
  | appInstalled => exact stays_answered (stays_appInstalled hQ)
  | appInfo => exact stays_answered (stays_appInfo hQ)
  | appInstall app => exact stays_answered ((stays_appInstall hQ hP app).mono (by omega))
  | appRequire app => exact stays_answered ((stays_appRequire hQ app).mono (by omega))
  | appRemove app => exact stays_answered ((stays_appRemove hQ hP app).mono (by omega))
  | appSet app => exact stays_answered ((stays_appSet hQ hP app _ _).mono (by omega))
  | appGet app => exact stays_answered ((stays_appGet hQ app).mono (by omega))
  | pkgStoreInit =>
    have hmark : pkgStoreMarkerSector < superSector := by decide
    exact stays_answered ((stays_access_write (hN rfl _ _ hmark)).mono (by omega))
  | pkgRead area =>
    refine stays_answered (stays_ite (fun _ => trivial) fun h => ?_)
    exact (stays_access_read (hB _ (area_below h))).mono (by omega)
  | pkgWrite area =>
    refine stays_answered (stays_ite (fun _ => trivial) fun h => ?_)
    exact (stays_access_write (hN rfl _ _ (area_below h))).mono (by omega)
  | _ => cases hop

/-! ### The store operations -/

section
variable {ns : ℕ} (hC : ∀ b, P superSector b)

theorem stays_cairnLoadSuper (hQ : Q superSector) (hC : ∀ b, P superSector b) :
    (cairnLoadSuper w).Stays Q P 3 := by
  refine (stays_rw_read hQ).andThen (by omega) fun r => ?_
  split
  · split
    · trivial
    · refine (stays_rw_write (hC _)).andThen (by omega) fun s => ?_
      split
      · exact stays_rw_read hQ
      · trivial
  · trivial

theorem stays_cairnNsSetRevoked {revoked : Bool} (hQ : Q superSector) (hC : ∀ b, P superSector b) :
    (cairnNsSetRevoked w ns revoked).Stays Q P 4 := by
  unfold cairnNsSetRevoked
  split
  · trivial
  · refine (stays_cairnLoadSuper hQ hC).andThen (by omega) fun r => ?_
    split
    · exact (stays_rw_write (hC _)).andThen (by omega) fun _ => trivial
    · trivial

variable (hR : ∀ s, Q s)
include hR

theorem stays_ledgerWalk (limit cur : ℕ) (w : Bytes) :
    (ledgerWalk limit cur w).Stays Q P limit := by
  induction limit generalizing cur w with
  | zero => trivial
  | succ limit ih =>
    unfold ledgerWalk
    split
    · trivial
    · refine (stays_rw_read (hR _)).andThen (by omega) fun r => ?_
      split
      · exact (ih _ _).andThen le_rfl fun _ => trivial
      · trivial

theorem stays_rollbackWalk (steps cur walked : ℕ) (w : Bytes) :
    (rollbackWalk steps cur walked w).Stays Q P steps := by
  induction steps generalizing cur walked w with
  | zero => trivial
  | succ steps ih =>
    unfold rollbackWalk
    split
    · trivial
    · refine (stays_rw_read (hR _)).andThen (by omega) fun r => ?_
      split
      · exact ih _ _ _
      · trivial

theorem stays_scanChain {A : Type} {note : ℕ → Bytes → A → A} (guard cur : ℕ) (acc : A)
    (w : Bytes) : (scanChain note guard cur acc w).Stays Q P guard := by
  induction guard generalizing cur acc w with
  | zero => trivial
  | succ guard ih =>
    unfold scanChain
    split
    · trivial
    · refine (stays_rw_read (hR _)).andThen (by omega) fun r => ?_
      split
      · exact ih _ _ _
      · trivial

theorem stays_scanFrom {A : Type} {note : ℕ → ℕ → Bytes → A → A} {head : ℕ → ℕ} (n ns : ℕ)
    (acc : A) (w : Bytes) :
    (scanFrom note head n ns acc w).Stays Q P (n * commitSlots) := by
  induction n generalizing ns acc w with
  | zero => trivial
  | succ n ih =>
    rw [Nat.succ_mul, Nat.add_comm (n * _)]
    exact (stays_scanChain hR commitSlots _ _ _).bind fun r => ih _ _ _

include hC

theorem stays_gated {n caps : ℕ} {k : Bytes → Program Sector (Answer Status)}
    (hk : ∀ w, (k w).Stays Q P n) : (gated ns caps w k).Stays Q P (3 + n) := by
  have hflag : (cairnNsRevoked w ns).Stays Q P 3 :=
    (stays_cairnLoadSuper (hR _) hC).andThen (by omega) fun _ => trivial
  refine hflag.bind fun f => ?_
  split
  · trivial
  · split
    · exact hk _
    · trivial

theorem stays_ledgerView : (ledgerView w ns).Stays Q P 11 := by
  refine (stays_cairnLoadSuper (hR _) hC).andThen (by omega) fun r => ?_
  split
  · exact stays_ledgerWalk hR 8 _ _
  · trivial

theorem stays_withHead {A : Type} {failed : Status → A} {k : ℕ → Bytes → Answer A} :
    (withHead w ns failed k).Stays Q P 4 := by
  have hload : (cairnLoadHead w ns).Stays Q P 4 := by
    refine (stays_cairnLoadSuper (hR _) hC).andThen (by omega) fun r => ?_
    split
    · dsimp only
      split
      · trivial
      · refine (stays_rw_read (hR _)).andThen (by omega) fun s => ?_
        split
        all_goals trivial
    · trivial
  refine hload.andThen le_rfl fun r => ?_
  split
  · trivial
  · split
    all_goals trivial

theorem stays_cairnRollback (steps : ℕ) :
    (cairnRollback w ns steps).Stays Q P (3 + (steps + 4)) := by
  refine (stays_cairnLoadSuper (hR _) hC).bind fun r => ?_
  split
  · dsimp only
    split
    · trivial
    · refine (stays_rollbackWalk hR steps _ 0 _).bind fun s => ?_
      split
      · trivial
      · refine (stays_cairnLoadSuper (hR _) hC).andThen (by omega) fun t => ?_
        split
        · exact (stays_rw_write (hC _)).andThen (by omega) fun _ => trivial
        · trivial
  · trivial

theorem stays_cairnStatus : (cairnStatus w).Stays Q P 3 := by
  refine (stays_cairnLoadSuper (hR _) hC).andThen le_rfl fun r => ?_
  split
  all_goals trivial

theorem stays_sfarPlan (ahd : UInt32) (caps : ℕ) :
    (sfarPlan ahd caps w).Stays Q P (3 + (scanBound + scanBound)) := by
  unfold sfarPlan
  split
  · trivial
  · refine (stays_cairnLoadSuper (hR _) hC).bind fun r => ?_
    split
    · refine (stays_scanFrom hR nsMax 0 0 _).bind fun t => ?_
      split
      · trivial
      · refine (stays_scanFrom hR nsMax 0 _ _).andThen le_rfl fun p => ?_
        split
        all_goals trivial
    · trivial

theorem stays_tbar (ahd : UInt32) (caps : ℕ) :
    (tbar ahd caps w).Stays Q P (3 + (scanBound + scanBound)) := by
  unfold tbar
  split
  · trivial
  · refine (stays_cairnLoadSuper (hR _) hC).bind fun r => ?_
    split
    · refine (stays_scanFrom hR nsMax 0 0 _).bind fun t => ?_
      split
      · trivial
      · split
        · exact (stays_scanFrom hR nsMax 0 _ _).andThen le_rfl fun _ => trivial
        · trivial
    · trivial

section
variable (hS : ∀ slot b, P (commitFirstSector + slot) b) {ahd : UInt32} {sender : ℕ}
include hS

theorem stays_cairnCommit {input : Bytes} {len : ℕ} {intent derived : UInt32} {revClass : UInt8} :
    (cairnCommit input w ns len sender intent derived revClass).Stays Q P 8 := by
  refine (stays_cairnLoadSuper (hR _) hC).andThen (by omega) fun r => ?_
  split
  · dsimp only
    split
    · refine (stays_rw_write (hS _ _)).andThen (by omega) fun s => ?_
      split
      · refine (stays_cairnLoadSuper (hR _) hC).andThen (by omega) fun t => ?_
        split
        · exact (stays_rw_write (hC _)).andThen (by omega) fun _ => trivial
        · trivial
      · trivial
    · trivial
  · trivial

omit hC in
theorem stays_rollbackChain (fuel cur : ℕ) (s : Staging) (w : Bytes) :
    (rollbackChain ahd sender ns fuel cur s w).Stays Q P (fuel + 1) := by
  have hcomp : ∀ cur s w, (compensateAt ahd sender ns cur s w).Stays Q P 1 := by
    intro cur s w
    unfold compensateAt
    split
    · split
      · refine (stays_rw_write (hS _ _)).andThen le_rfl fun a => ?_
        split
        all_goals trivial
      · trivial
    · trivial
  induction fuel generalizing cur s w with
  | zero => trivial
  | succ fuel ih =>
    unfold rollbackChain
    split
    · trivial
    · refine (stays_rw_read (hR _)).andThen (by omega) fun r => ?_
      split
      · dsimp only
        split
        · split
          · exact (hcomp _ _ _).mono (by omega)
          · exact ih _ _ _
          · trivial
        · trivial
      · trivial

omit hC in
theorem stays_rollbackFrom (fuel n ns : ℕ) (s : Staging) (w : Bytes) :
    (rollbackFrom fuel ahd sender n ns s w).Stays Q P (n * (fuel + 1)) := by
  induction n generalizing ns s w with
  | zero => trivial
  | succ n ih =>
    rw [Nat.succ_mul, Nat.add_comm (n * _)]
    refine (stays_rollbackChain hR hS fuel _ s w).bind fun r => ?_
    split
    · exact ih _ _ _
    · trivial
    · trivial

theorem stays_sfarRollback (fuel caps : ℕ) : (sfarRollback fuel ahd caps sender w).Stays Q P
    (3 + (scanBound + (nsMax * (fuel + 1) + 4))) := by
  unfold sfarRollback
  split
  · trivial
  · refine (stays_cairnLoadSuper (hR _) hC).bind fun r => ?_
    split
    · refine (stays_scanFrom hR nsMax 0 0 _).bind fun t => ?_
      split
      · trivial
      · refine (stays_rollbackFrom hR hS fuel nsMax 0 _ _).bind fun x => ?_
        split
        · trivial
        · trivial
        · refine (stays_cairnLoadSuper (hR _) hC).andThen (by omega) fun u => ?_
          split
          · refine (stays_rw_write (hC _)).andThen (by omega) fun v => ?_
            split
            all_goals trivial
          · trivial
    · trivial

end

theorem stays_store {op : Op} (hop : isStoreOp op = true)
    (hS : appends op = true → ∀ slot b, P (commitFirstSector + slot) b) (fuel : ℕ) (r : Request) :
    (dispatch fuel op r w).Stays Q P (max accessBound (scanBound + nsMax * (fuel + 1) + 7)) := by
  have hbound : accessBound = 4335 := rfl
  have hscan : scanBound = 2040 := rfl
  have haux : r.cairnAux ≤ 4095 := Nat.and_le_right
  cases op with
  | cairnInit =>
    exact stays_answered ((stays_cairnLoadSuper (hR _) hC).andThen (by omega) fun _ => trivial)
  | cairnStatus =>
    exact stays_answered (stays_statusOnly ((stays_cairnStatus hC hR).mono (by omega)))
  | cairnCommit =>
    exact stays_answered ((stays_gated hC hR fun _ =>
      stays_cairnCommit hC hR (hS rfl)).mono (by omega))
  | cairnGet =>
    exact ((stays_gated hC hR fun _ => stays_withHead hC hR).mono (by omega)).andThen le_rfl
      fun _ => trivial
  | cairnVerify =>
    exact stays_answered ((stays_gated hC hR fun _ => stays_withHead hC hR).mono (by omega))
  | sandInfo =>
    exact stays_answered ((stays_gated hC hR fun _ =>
      stays_statusOnly (stays_withHead hC hR)).mono (by omega))
  | cairnLog | sandLog =>
    exact stays_answered ((stays_gated hC hR fun _ =>
      stays_statusOnly (stays_ledgerView hC hR)).mono (by omega))
  | cairnRollback =>
    exact stays_answered ((stays_gated hC hR fun _ =>
      stays_cairnRollback hC hR _).mono (by omega))
  | nsRevoke | nsGrant =>
    refine stays_answered (stays_ite (fun _ => ?_) fun _ => trivial)
    exact (stays_cairnNsSetRevoked (hR _) hC).mono (by omega)
  | sfarPlan =>
    exact stays_answered (stays_statusOnly ((stays_sfarPlan hC hR _ _).mono (by omega)))
  | tbar => exact stays_answered (stays_statusOnly ((stays_tbar hC hR _ _).mono (by omega)))
  | sfarRollback =>
    refine (stays_sfarRollback hC hR (hS rfl) fuel _).andThen (by omega) fun _ => ?_
    trivial
  | _ => cases hop

end

end Dezh.DaemonWalks

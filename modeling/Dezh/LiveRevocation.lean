import Dezh.Authority
import Dezh.MissionIdentity
import Dezh.ValueRoundTrip

/-!
# Revocation at the console

Revoking a namespace at the console does two things: it advances the generation of
the namespace in the kernel's table, and it asks the daemon to persist the revoked
flag. The answer of the daemon is not looked at. The table is gone after a reboot.
-/
namespace Dezh.LiveRevocation
open BlockProgram Program ByteLayout CairnFormat CairnService SfarService CairnStore CairnOutcomes
open MissionScan MissionPublish StoreRuns BlockDaemon DaemonAccess NamespaceSecrets Revocation
open PackageTasks RequestCodec ValueRoundTrip MissionIdentity RollbackRepeat StorageStatus Authority

/-! ### The verbs -/

/-- The reads that look at the kernel's table. -/
inductive View where
  | get | log | verify
  deriving DecidableEq, Repr

/-- The views of the effect ledger. -/
inductive Ledger where
  | log | info
  deriving DecidableEq, Repr

inductive Mission where
  | plan | rollback | tbar
  deriving DecidableEq, Repr

/-- What goes to the storage daemon from the console, or from a package through
the host. Whether a commit may be written as far as labels are concerned is not
decided here. -/
inductive Verb where
  | commit (ns : ℕ) (text : List UInt8) (mayWrite : Bool)
  | view (v : View) (ns : ℕ)
  | rollback (ns steps : ℕ)
  | sand (v : Ledger) (ns : ℕ)
  | sfar (v : Mission) (ahd : UInt16)
  | hostPut (l : Launch) (ns : ℕ) (data : List UInt8)
  | hostGet (ns : ℕ) (input : Bytes)
  | nsRevoke (ns : ℕ)
  | nsGrant (ns : ℕ)

def View.op : View → Op
  | .get => .cairnGet
  | .log => .cairnLog
  | .verify => .cairnVerify

def View.base : View → ℕ
  | .get => reqCairnGet
  | .log => 45
  | .verify => reqCairnVerify

def Ledger.op : Ledger → Op
  | .log => .sandLog
  | .info => .sandInfo

def Ledger.base : Ledger → ℕ
  | .log => 49
  | .info => 50

def Mission.op : Mission → Op
  | .plan => .sfarPlan
  | .rollback => .sfarRollback
  | .tbar => .tbar

def Mission.base : Mission → ℕ
  | .plan => reqSfarPlan
  | .rollback => reqSfarRollback
  | .tbar => reqTbar

namespace Verb

def reqNsRevoke : ℕ := 54

def agentNs : ℕ := 4

def request : Verb → Request
  | .commit ns text _ => clientRequest ns (cairnReq reqCairnCommit ns 0) text
  | .view v ns => clientRequest ns (cairnReq v.base ns 0) []
  | .rollback ns steps => clientRequest ns (cairnReq reqCairnRollback ns (max steps 1)) []
  | .sand v ns => clientRequest ns (cairnReq v.base ns 0) []
  | .sfar v ahd =>
    { word := courierWord 0 (sfarReq v.base agentNs ahd)
      sender := firstForegroundTask
      caps := courierCaps allCairnNsCaps
      input := fun _ => 0 }
  | .hostPut l ns data => l.putRequest ns data
  | .hostGet ns input => Launch.loadRequest ns input
  | .nsRevoke ns => clientRequest ns (cairnReq reqNsRevoke ns 0) []
  | .nsGrant ns => clientRequest ns (cairnReq reqNsGrant ns 0) []

def ns : Verb → Option ℕ
  | .commit ns _ _ | .view _ ns | .rollback ns _ | .sand _ ns | .hostPut _ ns _ | .hostGet ns _
  | .nsRevoke ns | .nsGrant ns => some ns
  | .sfar _ _ => none

def op : Verb → Op
  | .commit _ _ _ | .hostPut _ _ _ => .cairnCommit
  | .view v _ => v.op
  | .rollback _ _ => .cairnRollback
  | .sand v _ => v.op
  | .sfar v _ => v.op
  | .hostGet _ _ => .cairnGet
  | .nsRevoke _ => .nsRevoke
  | .nsGrant _ => .nsGrant

/-- Is a request sent? The namespace has a name, and the verbs that look at the
table find a live handle. -/
def admitted (a : NsHolder) : Verb → Bool
  | .commit ns text mayWrite =>
    decide (ns < nsProfile.names) && !text.isEmpty && a.nsAuthorityOk ns && mayWrite
  | .view _ ns | .hostPut _ ns _ | .hostGet ns _ =>
    decide (ns < nsProfile.names) && a.nsAuthorityOk ns
  | .rollback ns _ | .sand _ ns | .nsRevoke ns | .nsGrant ns => decide (ns < nsProfile.names)
  | .sfar _ ahd => ahd != 0

def table (a : NsHolder) : Verb → NsHolder
  | .nsRevoke ns => a.nsRevoke ns
  | .nsGrant ns => a.nsGrant ns
  | _ => a

end Verb

/-! ### The machine -/

structure Machine where
  ns : NsHolder
  daemon : Daemon

inductive Event where
  | verb (v : Verb) (f : Schedule)
  | reboot

def Event.revokes (ns : ℕ) : Event → Bool
  | .verb (.nsRevoke m) _ => m == ns
  | _ => false

def Event.grants (ns : ℕ) : Event → Bool
  | .verb (.nsGrant m) _ => m == ns
  | _ => false

namespace Machine

def boot (d : CairnDisk) : Machine := ⟨.boot, ⟨d, fun _ => 0, true⟩⟩

def disk (m : Machine) : CairnDisk := m.daemon.disk

/-- One event: the reply of the daemon, if it was asked and has answered, and the
machine afterwards. -/
def step (fuel : ℕ) (m : Machine) : Event → Option Reply × Machine
  | .reboot => (none, ⟨.boot, (m.daemon.step fuel .restart).2⟩)
  | .verb v f =>
    if v.admitted m.ns then
      let x := m.daemon.step fuel (.request v.request f)
      (x.1, ⟨v.table m.ns, x.2⟩)
    else (none, m)

def run (fuel : ℕ) : Machine → List Event → Machine
  | m, [] => m
  | m, ev :: evs => run fuel (m.step fuel ev).2 evs

def Along (fuel : ℕ) (P : Machine → Event → Prop) : Machine → List Event → Prop
  | _, [] => True
  | m, ev :: evs => P m ev ∧ Along fuel P (m.step fuel ev).2 evs

end Machine

/-! ### What the daemon is asked -/

section
variable {a : NsHolder} {v : Verb} {m : ℕ}

theorem lt_names_of_admitted (h : v.admitted a = true) (hv : v.ns = some m) :
    m < nsProfile.names := by
  cases v with
  | sfar v ahd => cases hv
  | commit ns text mayWrite =>
    obtain rfl : ns = m := Option.some.inj hv
    simp only [Verb.admitted, Bool.and_eq_true, decide_eq_true_eq] at h
    exact h.1.1.1
  | view v ns | hostPut l ns data | hostGet ns input =>
    obtain rfl : ns = m := Option.some.inj hv
    simp only [Verb.admitted, Bool.and_eq_true, decide_eq_true_eq] at h
    exact h.1
  | rollback ns steps | sand v ns | nsRevoke ns | nsGrant ns =>
    obtain rfl : ns = m := Option.some.inj hv
    simpa only [Verb.admitted, decide_eq_true_eq] using h

theorem View.ofCode_base (v : View) : v.base < 2 ^ 8 ∧ Op.ofCode v.base = some v.op := by
  cases v
  all_goals decide

theorem Ledger.ofCode_base (v : Ledger) : v.base < 2 ^ 8 ∧ Op.ofCode v.base = some v.op := by
  cases v
  all_goals decide

theorem Mission.ofCode_base (v : Mission) :
    (v.base = reqSfarPlan ∨ v.base = reqSfarRollback ∨ v.base = reqTbar) ∧
      Op.ofCode v.base = some v.op := by
  cases v
  all_goals decide

theorem names_lt (h : m < nsProfile.names) : m < 2 ^ 4 := Nat.lt_trans h (by decide)

theorem fields_client {base steps : ℕ} (hb : base < 2 ^ 8) (hm : m < nsProfile.names)
    (text : List UInt8) {op : Op} (hop : Op.ofCode base = some op) :
    (clientRequest m (cairnReq base m steps) text).wellFormed = true ∧
      (clientRequest m (cairnReq base m steps) text).op = some op ∧
      (clientRequest m (cairnReq base m steps) text).cairnNs = m := by
  obtain ⟨aux, i, hd, -⟩ := decodes_cairn
    (r := clientRequest m (cairnReq base m steps) text) hb (names_lt hm) rfl
  exact ⟨hd.wellFormed, hd.op.trans hop, hd.cairnNs⟩

theorem fields_request (h : v.admitted a = true) :
    v.request.wellFormed = true ∧ v.request.op = some v.op ∧
      ∀ m, v.ns = some m → v.request.cairnNs = m := by
  have key : ∀ m, v.ns = some m → (v.request.wellFormed = true ∧ v.request.op = some v.op ∧
      v.request.cairnNs = m) → v.request.wellFormed = true ∧ v.request.op = some v.op ∧
      ∀ m, v.ns = some m → v.request.cairnNs = m := by
    rintro m hv ⟨hw, hop, hns⟩
    exact ⟨hw, hop, fun m' hm' => hns.trans (Option.some.inj (hv.symm.trans hm'))⟩
  cases v with
  | commit ns text mayWrite =>
    exact key ns rfl (fields_client (by decide) (lt_names_of_admitted h rfl) text rfl)
  | view v ns | sand v ns =>
    exact key ns rfl (fields_client v.ofCode_base.1 (lt_names_of_admitted h rfl) []
      v.ofCode_base.2)
  | rollback ns steps | nsRevoke ns | nsGrant ns =>
    exact key ns rfl (fields_client (by decide) (lt_names_of_admitted h rfl) [] rfl)
  | sfar v ahd =>
    obtain ⟨hbase, hop⟩ := v.ofCode_base
    have hd : Decodes (Verb.sfar v ahd).request v.base Verb.agentNs 0 ahd.toNat 0 :=
      decodes_mission hbase (by decide) rfl
    exact ⟨hd.wellFormed, hd.op.trans hop, fun m hm => by cases hm⟩
  | hostPut l ns data =>
    obtain ⟨hw, hop, hns, -⟩ := commitWord_fields (r := (Verb.hostPut l ns data).request)
      (names_lt (lt_names_of_admitted h rfl)) l.mcaps_lt (by decide) l.intent rfl
    exact key ns rfl ⟨hw, hop, hns⟩
  | hostGet ns input =>
    have hword : (Verb.hostGet ns input).request.word =
        courierWord 0 (cairnReq reqCairnGet ns 0) := rfl
    obtain ⟨aux, i, hd, -⟩ := decodes_cairn (by decide)
      (names_lt (lt_names_of_admitted h rfl)) hword
    exact key ns rfl ⟨hd.wellFormed, hd.op, hd.cairnNs⟩

end

/-! ### What a verb does to a revoked namespace -/

section
variable {d : CairnDisk} {ns fuel : ℕ} {w : Bytes} {r : Request} {f : Schedule}

theorem same_mission {v : Mission} (hv : v ≠ .rollback) :
    SameStore d ((dispatch fuel v.op r w).run f d).2 := by
  have hx := exec_run (d := d) (dispatch fuel v.op r w) (.all f)
  cases v with
  | plan =>
    obtain ⟨a, -, hx⟩ := exec_answered.mp hx
    exact statusOnly_same (fun _ _ => sfarPlan_same) hx
  | tbar =>
    obtain ⟨a, -, hx⟩ := exec_answered.mp hx
    exact statusOnly_same (fun _ _ => tbar_same) hx
  | rollback => exact absurd rfl hv

theorem held_mission (hi : StoreInv d) (hns : ns < nsMax) (v : Mission)
    (hempty : liveChain d ns = []) : Held ns d ((dispatch fuel v.op r w).run f d).2 := by
  have hx := exec_run (d := d) (dispatch fuel v.op r w) (.all f)
  cases v with
  | plan | tbar => exact held_of_same hi hns (same_mission (by decide))
  | rollback =>
    obtain ⟨a, d1, hx, -, hd⟩ := exec_bind.mp hx
    rw [hd]
    have huntouched : ¬ Touches d r.sandIntent ns := by
      rintro ⟨slot, hs, -⟩
      rw [hempty] at hs
      exact absurd hs List.not_mem_nil
    obtain ⟨hi', hh, hc, hr⟩ := sfarRollback_untouched hi hns huntouched hx
    exact held_of_extends hi hns hi' (sfarRollback_extends hx) hh hc fun hrev => by rwa [hr]

end

section
variable {d e : CairnDisk} {a : NsHolder} {v : Verb} {ns m fuel : ℕ} {w : Bytes} {f : Schedule}

theorem guarded_op (h : v.ns = some m) : guarded v.op = true := by
  cases v with
  | sfar v ahd => cases h
  | view v ns | sand v ns =>
    cases v
    all_goals rfl
  | _ => rfl

/-- The namespace keeps the verb off: the daemon finds the flag set, and a mission
finds no live record. -/
def Safe (ns : ℕ) (d : CairnDisk) (v : Verb) (f : Schedule) : Prop :=
  (v.ns = some ns → gatedOp v.op = true → revoked d ns ≠ 0 ∧ f.reads 0 = true) ∧
    (v.ns = none → liveChain d ns = [])

theorem storeInv_verb (hi : StoreInv d) (v : Verb) :
    StoreInv ((dispatch fuel v.op v.request w).run f d).2 := by
  have hx := exec_run (d := d) (dispatch fuel v.op v.request w) (.all f)
  cases hv : v.ns with
  | some m => exact (dispatch_effect (guarded_op hv) hx).1.inv hi
  | none =>
    cases v with
    | sfar v ahd =>
      cases v with
      | plan => exact (same_mission (v := .plan) (by decide)).storeInv hi
      | tbar => exact (same_mission (v := .tbar) (by decide)).storeInv hi
      | rollback =>
        obtain ⟨a, d1, hx, -, hd⟩ := exec_bind.mp hx
        rw [hd]
        rcases sfarRollback_cases hi hx with
          ⟨-, -, hs⟩ | ⟨r, -, ⟨-, hs, -⟩ | ⟨-, -, cut, hcut, -, rfl⟩⟩
        · exact hs.storeInv hi
        · exact hs.storeInv hi
        · exact (staged_undone _ _ hi hcut).storeInv hi
    | _ => cases hv

theorem held_verb (hi : StoreInv d) (hns : ns < nsMax) (hsent : v.admitted a = true)
    (hgrant : v ≠ .nsGrant ns) (hsafe : Safe ns d v f) :
    Held ns d ((dispatch fuel v.op v.request w).run f d).2 := by
  have hx := exec_run (d := d) (dispatch fuel v.op v.request w) (.all f)
  cases hv : v.ns with
  | none =>
    cases v with
    | sfar v ahd => exact held_mission hi hns v (hsafe.2 hv)
    | _ => cases hv
  | some m =>
    have hcairnNs := (fields_request hsent).2.2 m hv
    by_cases hm : m = ns
    · subst hm
      cases hg : gatedOp v.op with
      | true =>
        obtain ⟨hflag, hread⟩ := hsafe.1 hv hg
        obtain ⟨k, hk⟩ := dispatch_gated hg fuel v.request w
        rw [hk, hcairnNs, run_gated hns hflag hread]
        exact .refl hi
      | false =>
        -- only the two verbs that set the flag are left
        cases v with
        | nsRevoke m => exact held_revoke hi hns
        | nsGrant m => exact absurd (congrArg Verb.nsGrant (Option.some.inj hv)) hgrant
        | sfar v ahd => cases hv
        | view v n | sand v n =>
          cases v
          all_goals cases hg
        | _ => cases hg
    · exact held_of_onlyTouches hi hns (Ne.symm hm)
        (hcairnNs ▸ (dispatch_effect (guarded_op hv) hx).1)

theorem confined_mission (hi : StoreInv d) (v : Mission) (ahd : UInt16)
    (hempty : liveChain d ns = []) :
    (dispatch fuel v.op (Verb.sfar v ahd).request w).Confined (publicSectors d ns)
      (publicSectors d ns) d := by
  have hchain : ∀ m < nsMax, ∀ slot ∈ liveChain d m,
      commitFirstSector + slot ∈ publicSectors d ns := by
    intro m hm slot hs
    by_cases hmn : m = ns
    · rw [hmn, hempty] at hs
      exact absurd hs List.not_mem_nil
    · exact chain_public hi hm hmn hs
  cases v with
  | plan =>
    exact confined_answered (confined_statusOnly
      (confined_sfarPlan hi super_public super_public hchain _ w))
  | tbar =>
    exact confined_answered (confined_statusOnly
      (confined_tbar hi super_public super_public hchain _ w))
  | rollback =>
    refine (confined_sfarRollback hi super_public super_public hchain (fun slot hs => ?_)
      fuel _ _ w).bind fun _ _ _ => trivial
    intro slot' ho hslot
    have := ho.lt
    omega

theorem answer_congr (hi : StoreInv d) (hns : ns < nsMax) (hsent : v.admitted a = true)
    (hsafe : Safe ns d v f) (he : ∀ s ∈ publicSectors d ns, e s = d s) :
    ((dispatch fuel v.op v.request w).run f e).1 = ((dispatch fuel v.op v.request w).run f d).1 := by
  cases hv : v.ns with
  | none =>
    cases v with
    | sfar v ahd => exact ((confined_mission hi v ahd (hsafe.2 hv)).run_congr he f).1
    | _ => cases hv
  | some m =>
    have hcairnNs := (fields_request hsent).2.2 m hv
    by_cases hgate : gatedOp v.op = true ∧ m = ns
    · obtain ⟨hg, rfl⟩ := hgate
      obtain ⟨hflag, hread⟩ := hsafe.1 hv hg
      obtain ⟨k, hk⟩ := dispatch_gated hg fuel v.request w
      have hsuper : superOf e = superOf d := by
        rw [superOf, superOf, formatted, formatted, he superSector super_public]
      have hflag' : revoked e m ≠ 0 := by rwa [revoked, hsuper]
      rw [hk, hcairnNs, run_gated hns hflag hread, run_gated hns hflag' hread, hsuper]
    · refine ((confined_guarded fuel w hi (guarded_op hv) fun hg => .inl ?_).run_congr he f).1
      rw [hcairnNs]
      exact fun hm => hgate ⟨hg, hm⟩

end

/-! ### What a session does to a revoked namespace -/

namespace Machine
variable {fuel ns : ℕ} {m : Machine} {v : Verb} {f : Schedule} {ev : Event}

def answer (fuel : ℕ) (m : Machine) (v : Verb) (f : Schedule) :
    Option (Answer Status) × CairnDisk :=
  (dispatch fuel v.op v.request m.daemon.window).run f m.disk

variable (fuel f) in
theorem step_refused (h : ¬ (v.admitted m.ns = true ∧ m.daemon.up = true)) :
    (m.step fuel (.verb v f)).1 = none ∧ (m.step fuel (.verb v f)).2.disk = m.disk := by
  rw [step]
  split
  · next hsent =>
      have hdown : ¬ m.daemon.up = true := fun hup => h ⟨hsent, hup⟩
      have hstep : m.daemon.step fuel (.request v.request f) = (none, m.daemon) := if_neg hdown
      rw [hstep]
      exact ⟨rfl, rfl⟩
  · exact ⟨rfl, rfl⟩

variable (fuel f) in
theorem step_sent (hsent : v.admitted m.ns = true) (hup : m.daemon.up = true) :
    (m.step fuel (.verb v f)).1 =
        (m.answer fuel v f).1.map (fun a => ⟨replyWord v.request.word a.value, a.window⟩) ∧
      (m.step fuel (.verb v f)).2.disk = (m.answer fuel v f).2 := by
  obtain ⟨hw, hop, -⟩ := fields_request hsent
  have hdisk : (m.daemon.step fuel (.request v.request f)).2.disk =
      ((serve fuel v.request m.daemon.window).run f m.daemon.disk).2 := disk_step_request hup
  rw [run_serve hw hop] at hdisk
  rw [step, if_pos hsent]
  refine ⟨?_, hdisk⟩
  simp only [Daemon.step, hup, if_true, run_serve hw hop]
  rw [answer, disk]
  cases ((dispatch fuel v.op v.request m.daemon.window).run f m.daemon.disk).1 with
  | none | some a => rfl

theorem storeInv_step (hi : StoreInv m.disk) (ev : Event) : StoreInv (m.step fuel ev).2.disk := by
  cases ev with
  | reboot => exact hi
  | verb v f =>
    by_cases h : v.admitted m.ns = true ∧ m.daemon.up = true
    · rw [(step_sent fuel f h.1 h.2).2]
      exact storeInv_verb hi v
    · rw [(step_refused fuel f h).2]
      exact hi

theorem storeInv_run (hi : StoreInv m.disk) (evs : List Event) :
    StoreInv (m.run fuel evs).disk := by
  induction evs generalizing m with
  | nil => exact hi
  | cons ev evs ih => exact ih (storeInv_step hi ev)

/-- Nothing gets at the namespace: where a verb is sent at all, the daemon finds
the flag set, and a mission verb finds no live record of it. -/
def Guards (ns : ℕ) (m : Machine) : Event → Prop
  | .reboot => True
  | .verb v f => v.admitted m.ns = true → Safe ns m.disk v f

theorem held_step (hi : StoreInv m.disk) (hns : ns < nsMax) (hgrant : ev.grants ns = false)
    (h : m.Guards ns ev) : Held ns m.disk (m.step fuel ev).2.disk := by
  cases ev with
  | reboot => exact .refl hi
  | verb v f =>
    by_cases hsent : v.admitted m.ns = true ∧ m.daemon.up = true
    · rw [(step_sent fuel f hsent.1 hsent.2).2]
      refine held_verb hi hns hsent.1 ?_ (h hsent.1)
      rintro rfl
      simp [Event.grants] at hgrant
    · rw [(step_refused fuel f hsent).2]
      exact .refl hi

theorem held_run (hi : StoreInv m.disk) (hns : ns < nsMax) (evs : List Event)
    (hgrant : ∀ ev ∈ evs, ev.grants ns = false) (h : m.Along fuel (Guards ns) evs) :
    Held ns m.disk (m.run fuel evs).disk := by
  induction evs generalizing m with
  | nil => exact .refl hi
  | cons ev evs ih =>
    have hstep : Held ns m.disk (m.step fuel ev).2.disk :=
      held_step hi hns (hgrant ev List.mem_cons_self) h.1
    exact hstep.trans (ih hstep.inv (fun x hx => hgrant x (List.mem_cons_of_mem ev hx)) h.2)

def withDisk (m : Machine) (e : CairnDisk) : Machine := ⟨m.ns, ⟨e, m.daemon.window, m.daemon.up⟩⟩

/-- The event delivers nothing of the namespace: the reply does not depend on any
of its records, and a request for it is denied. -/
structure Hidden (fuel ns : ℕ) (m : Machine) (ev : Event) : Prop where
  blind : ∀ e, (∀ s ∈ publicSectors m.disk ns, e s = m.disk s) →
    ((m.withDisk e).step fuel ev).1 = (m.step fuel ev).1
  denied : ∀ v f, ev = .verb v f → v.ns = some ns → gatedOp v.op = true →
    ∀ reply, (m.step fuel ev).1 = some reply → responseStatus reply.word = Status.denied.code

theorem hidden_step (hi : StoreInv m.disk) (hns : ns < nsMax) (h : m.Guards ns ev) :
    m.Hidden fuel ns ev := by
  cases ev with
  | reboot => exact ⟨fun _ _ => rfl, fun v f hev => by cases hev⟩
  | verb v f =>
    by_cases hsent : v.admitted m.ns = true ∧ m.daemon.up = true
    · have hsafe := h hsent.1
      constructor
      · intro e he
        have hother := (step_sent fuel f (m := m.withDisk e) hsent.1 hsent.2).1
        rw [(step_sent fuel f hsent.1 hsent.2).1, hother]
        congr 1
        exact answer_congr hi hns hsent.1 hsafe he
      · intro v' f' hev hv hg reply hreply
        obtain ⟨rfl, rfl⟩ := Event.verb.inj hev
        obtain ⟨hflag, hread⟩ := hsafe.1 hv hg
        obtain ⟨k, hk⟩ := dispatch_gated hg fuel v.request m.daemon.window
        rw [(step_sent fuel f hsent.1 hsent.2).1, answer, hk, (fields_request hsent.1).2.2 ns hv,
          run_gated hns hflag hread] at hreply
        rw [← Option.some.inj hreply, responseStatus_replyWord]
    · constructor
      · intro e he
        have hother := (step_refused fuel f (m := m.withDisk e) hsent).1
        rw [(step_refused fuel f hsent).1, hother]
      · intro v' f' hev hv hg reply hreply
        obtain ⟨rfl, rfl⟩ := Event.verb.inj hev
        rw [(step_refused fuel f hsent).1] at hreply
        cases hreply

theorem hidden_run (hi : StoreInv m.disk) (hns : ns < nsMax) (evs : List Event)
    (h : m.Along fuel (Guards ns) evs) : m.Along fuel (Hidden fuel ns) evs := by
  induction evs generalizing m with
  | nil => trivial
  | cons ev evs ih => exact ⟨hidden_step hi hns h.1, ih (storeInv_step hi ev) h.2⟩

/-! ### The gate of the kernel -/

theorem ns_step (fuel : ℕ) (m : Machine) (v : Verb) (f : Schedule) :
    (m.step fuel (.verb v f)).2.ns = if v.admitted m.ns then v.table m.ns else m.ns := by
  rw [step]
  split
  all_goals rfl

variable (fuel) in
theorem tracks_step {h : List Change} (hns : ns < nsProfile.names)
    (ht : m.ns.Tracks nsProfile ns h) (ev : Event) :
    ∃ h', (m.step fuel ev).2.ns.Tracks nsProfile ns h' ∧
      h'.count .revoke ≤ h.count .revoke + (if ev.revokes ns then 1 else 0) ∧
      (ev ≠ .reboot → ev.grants ns = false → Withdrawn h → Withdrawn h') := by
  cases ev with
  | reboot =>
    exact ⟨[], Holder.tracks_boot (by decide) hns, Nat.zero_le _, fun hne => absurd rfl hne⟩
  | verb v f =>
    rw [ns_step]
    by_cases hsent : v.admitted m.ns = true
    · rw [if_pos hsent]
      cases v with
      | nsRevoke n =>
        by_cases hn : n = ns
        · subst hn
          refine ⟨h ++ [Change.revoke], ht.revoke, ?_, fun _ _ _ => withdrawn_revoke h⟩
          simp [Event.revokes, List.count_append]
        · exact ⟨h, ht.revoke_other (Ne.symm hn), Nat.le_add_right _ _, fun _ _ hw => hw⟩
      | nsGrant n =>
        by_cases hn : n = ns
        · subst hn
          refine ⟨h ++ [Change.grant], ht.grant, ?_, fun _ hgrant => ?_⟩
          · simp [List.count_append]
          · simp [Event.grants] at hgrant
        · exact ⟨h, ht.grant_other (Ne.symm hn), Nat.le_add_right _ _, fun _ _ hw => hw⟩
      | _ => exact ⟨h, ht, Nat.le_add_right _ _, fun _ _ hw => hw⟩
    · rw [if_neg hsent]
      exact ⟨h, ht, Nat.le_add_right _ _, fun _ _ hw => hw⟩

variable (fuel) in
theorem tracks_run {h : List Change} (hns : ns < nsProfile.names)
    (ht : m.ns.Tracks nsProfile ns h) (evs : List Event) :
    ∃ h', (m.run fuel evs).ns.Tracks nsProfile ns h' ∧
      h'.count .revoke ≤ h.count .revoke + evs.countP (·.revokes ns) ∧
      ((∀ ev ∈ evs, ev ≠ .reboot ∧ ev.grants ns = false) → Withdrawn h → Withdrawn h') := by
  induction evs generalizing m h with
  | nil => exact ⟨h, ht, Nat.le_refl _, fun _ hw => hw⟩
  | cons ev evs ih =>
    obtain ⟨h1, ht₁, hcount1, hw1⟩ := tracks_step fuel hns ht ev
    obtain ⟨h₂, ht₂, hcount₂, hw₂⟩ := ih ht₁
    refine ⟨h₂, ht₂, ?_, fun hquiet hw => hw₂ (fun x hx => ?_) (hw1 ?_ ?_ hw)⟩
    · rw [List.countP_cons]
      omega
    · exact hquiet x (List.mem_cons_of_mem ev hx)
    · exact (hquiet ev List.mem_cons_self).1
    · exact (hquiet ev List.mem_cons_self).2

theorem run_append (fuel : ℕ) (m : Machine) (evs evs' : List Event) :
    m.run fuel (evs ++ evs') = (m.run fuel evs).run fuel evs' := by
  induction evs generalizing m with
  | nil => rfl
  | cons ev evs ih => exact ih _

end Machine

open Machine in
/-- A namespace is revoked at the console and not granted again. Until the next
reboot the kernel's handle stays stale, so commits, reads and host calls for it
are not even sent. If moreover every other request for it finds the persisted flag,
and no mission verb is given while it has live records, then through all later
events and reboots the namespace keeps its head and its records, no reply depends on
them, and every request for it is denied. -/
theorem revocation_live (fuel : ℕ) (d : CairnDisk) (hd : Attained d) (before after : List Event)
    (ns : ℕ) (hns : ns < nsProfile.names) (f : Schedule)
    (hgrant : ∀ ev ∈ after, ev.grants ns = false)
    (hfew : (before ++ .verb (.nsRevoke ns) f :: after).countP (·.revokes ns) < 2 ^ 32)
    (m : Machine) (hm : (Machine.boot d).run fuel (before ++ [.verb (.nsRevoke ns) f]) = m) :
    (∀ evs, evs <+: after → .reboot ∉ evs → (m.run fuel evs).ns.nsAuthorityOk ns = false) ∧
      (m.Along fuel (Guards ns) after →
        Held ns m.disk (m.run fuel after).disk ∧ m.Along fuel (Hidden fuel ns) after) := by
  have hmax : ns < nsMax := Nat.lt_trans hns (by decide)
  have hi : StoreInv m.disk := by
    rw [← hm]
    exact storeInv_run (m := .boot d) hd.storeInv _
  refine ⟨fun evs hfirst hboot => ?_, fun h =>
    ⟨held_run hi hmax after hgrant h, hidden_run hi hmax after h⟩⟩
  obtain ⟨h₀, ht₀, hcount₀, -⟩ := tracks_run fuel (m := Machine.boot d) (h := []) hns
    (Holder.tracks_boot (by decide) hns) before
  have ht₁ : m.ns.Tracks nsProfile ns (h₀ ++ [.revoke]) := by
    rw [← hm, run_append, Machine.run, Machine.run, ns_step, if_pos]
    · exact ht₀.revoke
    · simpa only [Verb.admitted, decide_eq_true_eq] using hns
  obtain ⟨h₂, ht₂, hcount₂, hw₂⟩ := tracks_run fuel hns ht₁ evs
  have hwithdrawn : Withdrawn h₂ := by
    refine hw₂ (fun ev hev => ⟨?_, hgrant ev (hfirst.subset hev)⟩) (withdrawn_revoke h₀)
    rintro rfl
    exact hboot hev
  have hless : h₂.count .revoke < 2 ^ 32 := by
    have hle : evs.countP (·.revokes ns) ≤ after.countP (·.revokes ns) :=
      hfirst.sublist.countP_le
    have hone : Event.revokes ns (.verb (.nsRevoke ns) f) = true := beq_self_eq_true ns
    rw [List.countP_append, List.countP_cons, hone, if_pos rfl] at hfew
    rw [List.count_append] at hcount₂
    have hsingle : List.count Change.revoke [Change.revoke] = 1 := rfl
    have hnil : List.count Change.revoke [] = 0 := rfl
    omega
  by_contra hopen
  rw [Bool.not_eq_false] at hopen
  exact ht₂.not_withdrawn hless hopen hwithdrawn

/-- The agent's namespace is revoked, the flag is persisted, and then a rollback and
a read are asked for. -/
def refusedVerbs : List Event :=
  [.verb (.rollback 4 1) .clean, .reboot, .verb (.view .get 4) .clean]

theorem revocation_live_noted :
    Held 4 ((Machine.boot noted).run 256 [.verb (.nsRevoke 4) .clean]).disk
      (((Machine.boot noted).run 256 [.verb (.nsRevoke 4) .clean]).run 256 refusedVerbs).disk := by
  refine ((revocation_live 256 noted reachable_noted [] refusedVerbs 4 (by decide) .clean
    (by decide) (by decide) _ rfl).2 ⟨fun _ => ⟨fun _ _ => ?_, fun h => ?_⟩, trivial,
      fun _ => ⟨fun _ _ => ?_, fun h => ?_⟩, trivial⟩).1
  · exact ⟨by decide +kernel, rfl⟩
  · cases h
  · exact ⟨by decide +kernel, rfl⟩
  · cases h

/-- The persisting write of the revocation is lost, and the kernel's handle is
stale. A rollback at the console still moves the head in the same boot, a view of
the ledger is answered, and after a reboot a read delivers the note. With the flag
persisted, a mission rollback moves the head and a forecast is answered. -/
theorem revoked_reached :
    (((Machine.boot noted).run 256 [.verb (.nsRevoke 4) (.consWrite .lost .clean)]).ns.nsAuthorityOk
        4 = false) ∧
      head noted 4 = 0 ∧
      head ((Machine.boot noted).run 256 [.verb (.nsRevoke 4) (.consWrite .lost .clean),
        .verb (.rollback 4 1) .clean]).disk 4 = noSlot ∧
      (((Machine.boot noted).run 256 [.verb (.nsRevoke 4) (.consWrite .lost .clean)]).step 256
        (.verb (.sand .log 4) .clean)).1.map (fun a => responseStatus a.word) = some 0 ∧
      (((Machine.boot noted).run 256 [.verb (.nsRevoke 4) (.consWrite .lost .clean),
        .reboot]).step 256 (.verb (.view .get 4) .clean)).1.map
          (fun a => (responseStatus a.word, toList a.window 0 4)) = some (0, ascii "note") ∧
      revoked ((Machine.boot noted).run 256 [.verb (.nsRevoke 4) .clean]).disk 4 = 1 ∧
      head ((Machine.boot noted).run 256 [.verb (.nsRevoke 4) .clean,
        .verb (.sfar .rollback 1) .clean]).disk 4 = noSlot ∧
      (((Machine.boot noted).run 256 [.verb (.nsRevoke 4) .clean]).step 256
        (.verb (.sfar .plan 1) .clean)).1.map (fun a => responseStatus a.word) = some 0 :=
  ⟨by decide +kernel, by decide +kernel, by decide +kernel, by decide +kernel, by decide +kernel,
    by decide +kernel, by decide +kernel, by decide +kernel⟩

end Dezh.LiveRevocation

import Dezh.IntentTable
import Dezh.PackageAuthority
import Dezh.ForecastHonesty

/-!
# External effects and the ledger

A frame leaves the machine through the network daemon, which the console launches
for one named destination after three checks: the device is there, its capability
is live, and the operator may send to the destination what it has read. When the
daemon reports success, the console asks the block daemon to commit a record of
the effect to the lab namespace, and does not look at the outcome.
-/
namespace Dezh.Egress
open BlockProgram Program ByteLayout CairnFormat CairnService CairnStore CairnOutcomes
open BlockDaemon PackageTasks PackageAuthority IntentTable ForecastHonesty StoreRuns

variable {d : CairnDisk}

/-! ### Destinations -/

inductive MarzDest where
  | ops | vaultSync
  deriving DecidableEq, Repr

namespace MarzDest

def all : List MarzDest := [ops, vaultSync]

def name : MarzDest → String
  | ops => "ops"
  | vaultSync => "vault-sync"

def label : MarzDest → UInt32
  | ops => 0
  | vaultSync => 1

def record : MarzDest → String
  | ops => "egress -> ops 10.0.2.2:8888 [REAL external send, on the wire]"
  | vaultSync => "egress -> vault-sync 10.0.2.3:9999 [REAL external send, on the wire]"

def recordEffect : MarzDest → String
  | ops => "effect -> ops 10.0.2.2:8888 [REAL external effect via gateway; compensatable, " ++
      "gateway outside the TCB]"
  | vaultSync => "effect -> vault-sync 10.0.2.3:9999 [REAL external effect via gateway; " ++
      "compensatable, gateway outside the TCB]"

def cap (d : MarzDest) : ℕ :=
  1 <<< (16 + match d with
    | ops => 0
    | vaultSync => 1)

end MarzDest

def marzDestId (name : List Char) : Option MarzDest :=
  MarzDest.all.find? fun d => d.name.toList == name

/-! ### Texts -/

def isWhitespace (c : Char) : Bool :=
  (9 ≤ c.toNat && c.toNat ≤ 13) || c.toNat == 0x20 || c.toNat == 0x85 || c.toNat == 0xa0 ||
    c.toNat == 0x1680 || (0x2000 ≤ c.toNat && c.toNat ≤ 0x200a) || c.toNat == 0x2028 ||
    c.toNat == 0x2029 || c.toNat == 0x202f || c.toNat == 0x205f || c.toNat == 0x3000

def trim (s : List Char) : List Char :=
  ((s.dropWhile isWhitespace).reverse.dropWhile isWhitespace).reverse

def splitOnce (s : List Char) : List Char × List Char :=
  match s.dropWhile (· != ' ') with
  | _ :: rest => (s.takeWhile (· != ' '), rest)
  | [] => (s, [])

def utf8 (s : List Char) : List UInt8 := s.flatMap String.utf8EncodeChar

def marzReqMax : ℕ := 0xe0

def fxMagic : List UInt8 := ascii "DEZHFX1"

def marzStageFx (ahd : UInt16) (verb arg : List Char) : Option (List UInt8) :=
  let line := fxMagic ++ ascii " " ++ utf8 (Nat.toDigits 10 ahd.toNat) ++ ascii " " ++ utf8 verb ++
    ascii " " ++ utf8 arg
  if line.length ≤ marzReqMax then some line else none

/-- The reply in the window from position `i` on: printable, and ended by a zero
within the window. -/
def readReplyFrom (window : Bytes) : ℕ → ℕ → Option (List UInt8)
  | 0, _ => none
  | left + 1, i =>
    if window i = 0 then some []
    else if 0x20 ≤ window i ∧ window i < 0x7f then
      (readReplyFrom window left (i + 1)).map (window i :: ·)
    else none

def marzReadReply (window : Bytes) : Option (List UInt8) := readReplyFrom window marzReqMax 0

def fxParse (reply : List UInt8) : Option (Bool × List UInt8) :=
  match reply.splitOn 0x20 with
  | magic :: verdict :: rest =>
    if magic ≠ fxMagic then none
    else if verdict = ascii "OK" then some (true, rest.headD (ascii "-"))
    else if verdict = ascii "ERR" then some (false, rest.headD (ascii "-"))
    else none
  | _ => none

def fxComposeRecord (d : MarzDest) (token : List UInt8) : List UInt8 :=
  (ascii d.recordEffect ++ [compSep] ++ ascii "marz-effect " ++ ascii d.name ++
    ascii " git.revert " ++ token).take marzReqMax

/-! ### The two commands -/

/-- What a run of the network daemon comes to: whether the frame has left, the
exit code the console reads, and the reply window. -/
structure Exchange where
  left : Bool
  status : ℕ
  window : Bytes

/-- What the commands read. -/
structure Station where
  opEgress : ℕ
  secrecy : UInt32
  nic : Bool
  deviceLive : Bool
  ahds : Ahds
  exchange : Exchange

variable {e : Station}

inductive Report where
  | usage | unknownDest | absent | deviceDenied | gateDenied | tooLong
  | fail | noReply | badReply | malformed | refused | ok
  deriving DecidableEq, Repr

/-- A commit to the lab namespace. -/
structure Entry where
  intent : UInt16
  revClass : UInt8
  value : List UInt8

/-- What a command reports, whether it has run the network daemon, and the
commit it asks for. -/
structure Attempt where
  report : Report
  ran : Bool := false
  entry : Option Entry := none

def sandRevCompensatable : UInt8 := 1
def sandRevIrreversible : UInt8 := 2

namespace Station

def marzGate (e : Station) (d : MarzDest) : Bool :=
  e.opEgress &&& d.cap != 0 && e.secrecy &&& ~~~d.label == 0

def refusal (e : Station) (d : MarzDest) : Option Report :=
  if e.nic = false then some .absent
  else if e.deviceLive = false then some .deviceDenied
  else if e.marzGate d = false then some .gateDenied
  else none

def marzSendTo (e : Station) (arg : List Char) (ahd : UInt16) : Attempt :=
  let name := trim arg
  let name := if name = [] then "ops".toList else name
  match marzDestId name with
  | none => { report := .unknownDest }
  | some d =>
    match e.refusal d with
    | some r => { report := r }
    | none =>
      if e.exchange.status ≠ 0 then { report := .fail, ran := true }
      else { report := .ok, ran := true,
             entry := some ⟨ahd, sandRevIrreversible, ascii d.record⟩ }

def effectIntent (e : Station) (ahd : UInt16) : UInt16 :=
  if ahd ≠ 0 then ahd
  else match e.ahds.openAhd "writer" ahdUnlimited with
    | some ((id, _), _) => id
    | none => 0

def effectOutcome (e : Station) (d : MarzDest) (ahd : UInt16) : Attempt :=
  if e.exchange.status ≠ 0 then { report := .noReply, ran := true }
  else match marzReadReply e.exchange.window with
    | none => { report := .badReply, ran := true }
    | some reply =>
      match fxParse reply with
      | none => { report := .malformed, ran := true }
      | some (false, _) => { report := .refused, ran := true }
      | some (true, token) =>
        { report := .ok, ran := true,
          entry := some ⟨ahd, sandRevCompensatable, fxComposeRecord d token⟩ }

def marzEffect (e : Station) (arg : List Char) (ahd : UInt16) : Attempt :=
  let ahd := e.effectIntent ahd
  let target := splitOnce (trim arg)
  let action := splitOnce (trim target.2)
  let dname := if target.1 = [] then "ops".toList else target.1
  let verb := if action.1 = [] then "git.commit".toList else action.1
  if action.2 = [] then { report := .usage }
  else match marzDestId dname with
    | none => { report := .unknownDest }
    | some d =>
      match e.refusal d with
      | some r => { report := r }
      | none =>
        match marzStageFx ahd verb action.2 with
        | none => { report := .tooLong }
        | some _ => e.effectOutcome d ahd

end Station

inductive Outgoing where
  | send (arg : List Char) (ahd : UInt16)
  | effect (arg : List Char) (ahd : UInt16)

variable {c : Outgoing}

namespace Outgoing

def attempt (e : Station) : Outgoing → Attempt
  | send arg ahd => e.marzSendTo arg ahd
  | effect arg ahd => e.marzEffect arg ahd

def intent (e : Station) : Outgoing → UInt16
  | send _ ahd => ahd
  | effect _ ahd => e.effectIntent ahd

def revClass : Outgoing → UInt8
  | send _ _ => sandRevIrreversible
  | effect _ _ => sandRevCompensatable

end Outgoing

/-! ### The ledger -/

def lab : ℕ := 1

def Entry.request (x : Entry) : Request where
  word := courierWord (min x.value.length 511)
    (cairnReqIntent reqCairnCommit lab x.intent mcapPrint x.revClass)
  sender := firstForegroundTask
  caps := courierCaps (taskNsCap lab)
  input := ofList (x.value.take 511)

/-- The disk after a command. The commit reaches the block daemon, with some
behaviour of the device, or it does not. -/
def Attempt.store (a : Attempt) (delivery : Option Schedule) (fuel : ℕ) (w : Bytes)
    (d : CairnDisk) : CairnDisk :=
  match a.entry, delivery with
  | some x, some f => ((serve fuel x.request w).run f d).2
  | _, _ => d

/-- A new record of the entry is on the live chain of the lab namespace. -/
def Recorded (x : Entry) (d d' : CairnDisk) : Prop :=
  ∃ slot ∈ liveChain d' lab, next d ≤ slot ∧
    (header (record d' slot)).status = statusCommitted ∧
    (header (record d' slot)).intent = x.intent.toNat ∧
    (header (record d' slot)).revClass = x.revClass ∧ valueOf (record d' slot) = x.value

/-- The effect of the command is on the ledger, with its intent and class. -/
def Ledgered (c : Outgoing) (e : Station) (d d' : CairnDisk) : Prop :=
  ∃ x, (c.attempt e).entry = some x ∧ x.intent = c.intent e ∧ x.revClass = c.revClass ∧
    Recorded x d d'

theorem refusal_ne_ok {d : MarzDest} {r : Report} (h : e.refusal d = some r) : r ≠ .ok := by
  unfold Station.refusal at h
  split_ifs at h
  all_goals
    cases h
    decide

theorem length_record (d : MarzDest) : (ascii d.record).length ≤ marzReqMax := by
  cases d
  all_goals decide

theorem entry_of_effectOutcome {d : MarzDest} {ahd : UInt16}
    (h : (e.effectOutcome d ahd).report = .ok) :
    ∃ token, (e.effectOutcome d ahd).entry =
      some ⟨ahd, sandRevCompensatable, fxComposeRecord d token⟩ := by
  unfold Station.effectOutcome at h ⊢
  split at h
  · cases h
  · next hst =>
      rw [if_neg hst]
      split at h
      · cases h
      · split at h
        · cases h
        · cases h
        · next token heq => exact ⟨token, rfl⟩

theorem entry_of_ok (h : (c.attempt e).report = .ok) :
    ∃ x, (c.attempt e).entry = some x ∧ x.intent = c.intent e ∧ x.revClass = c.revClass ∧
      x.value.length ≤ marzReqMax := by
  cases c with
  | send arg ahd =>
    simp only [Outgoing.attempt, Station.marzSendTo] at h ⊢
    split at h
    · cases h
    · next d hd =>
        split at h
        · next r hr => exact absurd h (refusal_ne_ok hr)
        · split at h
          · cases h
          · next hst =>
              rw [if_neg hst]
              exact ⟨_, rfl, rfl, rfl, length_record d⟩
  | effect arg ahd =>
    simp only [Outgoing.attempt, Station.marzEffect] at h ⊢
    split at h
    · cases h
    · next hslug =>
        rw [if_neg hslug]
        split at h
        · cases h
        · next d hd =>
            split at h
            · next r hr => exact absurd h (refusal_ne_ok hr)
            · split at h
              · cases h
              · obtain ⟨token, hentry⟩ := entry_of_effectOutcome h
                exact ⟨_, hentry, rfl, rfl, List.length_take_le _ _⟩

section
variable {x : Entry} {w : Bytes} {fuel : ℕ}

def recordedDisk (d : CairnDisk) (x : Entry) : CairnDisk :=
  committed d (ofList x.value) lab x.value.length firstForegroundTask x.request.sandIntent
    x.request.sandDerived x.revClass

theorem eval_request (hrev : x.revClass.toNat < 4) (hlen : x.value.length ≤ marzReqMax) :
    ((serve fuel x.request w).eval d).2 =
      if next d < commitSlots ∧ revoked d lab = 0 then
        recordedDisk d x
      else settle d := by
  obtain ⟨hw, hop, hns, haux, -, -, hcls⟩ := commitWord_fields (r := x.request) (by decide)
    (by decide) hrev x.intent rfl
  have hlen' : x.value.length ≤ 224 := hlen
  have hall : cairnNsAllowed lab (courierCaps (taskNsCap lab)) = true := by decide
  have hinput : x.request.input = ofList x.value := by
    change ofList (x.value.take 511) = _
    rw [List.take_of_length_le (by omega)]
  rw [eval_serve_commit hw hop, hns, haux, hcls, hinput, show x.request.caps =
    courierCaps (taskNsCap lab) from rfl, show x.request.sender = firstForegroundTask from rfl,
    show min (min x.value.length 511) 4095 = x.value.length by omega]
  by_cases h : next d < commitSlots ∧ revoked d lab = 0
  · rw [if_pos ⟨hall, h.2, h.1⟩, if_pos h]
    rfl
  · rw [if_neg fun hc => h ⟨hc.2.2, hc.2.1⟩, if_neg h]

theorem recorded_recordedDisk (hi : StoreInv d) (hn : next d < commitSlots)
    (hrev : x.revClass.toNat < 4) (hlen : x.value.length ≤ marzReqMax) :
    Recorded x d (recordedDisk d x) := by
  have hns : lab < nsMax := by decide
  have hlen' : x.value.length ≤ 224 := hlen
  have hmax : valueMax - 1 = 447 := by decide
  have hx : Extends d (recordedDisk d x) := committed_extends hn
  have hmove : ∀ m < nsMax, RefMove d (recordedDisk d x) m
      (if m = lab then next d :: liveChain d m else liveChain d m) :=
    fun m hm => committed_refMove hi hn hns hm
  have hi' : StoreInv (recordedDisk d x) :=
    hi.move hx ((next_committed hn).trans_le hn) fun m hm => ⟨_, hmove m hm⟩
  have hchain := (hmove lab hns).liveChain_eq hi hi' hx hns
  rw [if_pos rfl] at hchain
  obtain ⟨-, -, -, -, hintent, -, -⟩ := commitWord_fields (r := x.request) (by decide)
    (by decide) hrev x.intent rfl
  have hmin : min x.value.length (valueMax - 1) = x.value.length := by omega
  refine ⟨next d, hchain ▸ List.mem_cons_self, le_rfl, ?_⟩
  rw [record, recordedDisk, committed_slot, if_pos rfl, newCommit, hmin]
  rw [valueOf, header_commitSector, header_encode]
  refine ⟨rfl, ?_, rfl, ?_⟩
  · exact (Nat.mod_eq_of_lt (UInt32.toNat_lt _)).trans hintent
  · dsimp only [commitHeader]
    rw [Nat.mod_eq_of_lt (by omega), toList_commitSector (by omega), toList_ofList]

theorem not_recorded_of_same {d' : CairnDisk} (hi : StoreInv d) (h : SameStore d d') :
    ¬ Recorded x d d' := by
  rintro ⟨slot, hs, hle, -⟩
  rw [h.liveChain_eq hi (by decide)] at hs
  have := hi.below lab (by decide) slot hs
  omega

end

section
variable {delivery : Option Schedule}

theorem revClass_lt (c : Outgoing) : c.revClass.toNat < 4 := by
  cases c with
  | send => exact (by decide : sandRevIrreversible.toNat < 4)
  | effect => exact (by decide : sandRevCompensatable.toNat < 4)

theorem store_delivered {a : Attempt} {x : Entry} (h : a.entry = some x) (f : Schedule) (fuel : ℕ)
    (w : Bytes) : a.store (some f) fuel w d = ((serve fuel x.request w).run f d).2 := by
  unfold Attempt.store
  rw [h]

theorem store_lost (a : Attempt) (fuel : ℕ) (w : Bytes) : a.store none fuel w d = d := by
  unfold Attempt.store
  cases a.entry
  all_goals rfl

/-- The effect of the command has left the machine, and it is reported as done. -/
def Done (c : Outgoing) (e : Station) : Prop :=
  (c.attempt e).ran = true ∧ e.exchange.left = true ∧ (c.attempt e).report = .ok

/-- On a block device that does not fail, an effect that has left the machine and
is reported as done is on the ledger exactly when its commit reaches the block
daemon, the log has a free slot and the lab namespace is not revoked. -/
theorem effect_ledgered_iff (fuel : ℕ) (w : Bytes) (hi : StoreInv d)
    (hf : ∀ f ∈ delivery, f.Within Faults.none) :
    (Done c e → Ledgered c e d ((c.attempt e).store delivery fuel w d)) ↔
      (Done c e → delivery.isSome = true ∧ next d < commitSlots ∧ revoked d lab = 0) := by
  refine forall_congr' fun hdone => ?_
  obtain ⟨x, hentry, hintent, hclass, hlen⟩ := entry_of_ok hdone.2.2
  have hrev : x.revClass.toNat < 4 := hclass ▸ revClass_lt c
  have hledger : ∀ d', Ledgered c e d d' ↔ Recorded x d d' := by
    intro d'
    constructor
    · rintro ⟨y, hy, -, -, hrec⟩
      rw [hentry] at hy
      cases hy
      exact hrec
    · exact fun hrec => ⟨x, hentry, hintent, hclass, hrec⟩
  rw [hledger]
  cases delivery with
  | none =>
    rw [store_lost]
    exact iff_of_false (not_recorded_of_same hi (.refl d)) (by simp)
  | some f =>
    have hrun : (serve fuel x.request w).run f d = (serve fuel x.request w).eval d :=
      (exec_none.mp (exec_run _ (hf f rfl))).symm
    rw [store_delivered hentry, hrun, eval_request hrev hlen]
    by_cases hroom : next d < commitSlots ∧ revoked d lab = 0
    · rw [if_pos hroom]
      exact iff_of_true (recorded_recordedDisk hi hroom.1 hrev hlen) ⟨rfl, hroom⟩
    · rw [if_neg hroom]
      exact iff_of_false (not_recorded_of_same hi (SameStore.settle d)) fun h => hroom h.2

def openStation : Station where
  opEgress := MarzDest.ops.cap
  secrecy := 0
  nic := true
  deviceLive := true
  ahds := .boot
  exchange := ⟨true, 0, fun _ => 0⟩

def acceptingStation : Station :=
  { openStation with exchange := ⟨true, 0, ofList (ascii "DEZHFX1 OK c0ffee done")⟩ }

theorem effect_ledgered_iff_send :
    Done (.send [] 7) openStation ∧
      ((Done (.send [] 7) openStation → Ledgered (.send [] 7) openStation blank
        (((Outgoing.send [] 7).attempt openStation).store (some .clean) 0 (fun _ => 0) blank)) ↔
        (Done (.send [] 7) openStation → (some Schedule.clean).isSome = true ∧
          next blank < commitSlots ∧ revoked blank lab = 0)) := by
  refine ⟨⟨by decide +kernel, rfl, by decide +kernel⟩, effect_ledgered_iff 0 (fun _ => 0)
    (storeInv_fresh (by decide)) fun f hf => ?_⟩
  rw [← Option.mem_some_iff.mp hf]
  exact Schedule.clean_within _

def revokedLab : CairnDisk :=
  ((Mutation.setRevoked (fun _ => 0) ⟨lab, by decide⟩ true).program.eval blank).2

/-- The operator has revoked the lab namespace; a send and an effect leave the
machine, both are reported as done, and the ledger stays empty. -/
theorem revoked_lab_loses_effects :
    Done (.send [] 7) openStation ∧
      Done (.effect "ops git.commit nightly".toList 7) acceptingStation ∧
      next (((Outgoing.send [] 7).attempt openStation).store (some .clean) 0 (fun _ => 0)
        revokedLab) = 0 ∧
      next (((Outgoing.effect "ops git.commit nightly".toList 7).attempt acceptingStation).store
        (some .clean) 0 (fun _ => 0) revokedLab) = 0 ∧
      ¬ Ledgered (.send [] 7) openStation revokedLab
        (((Outgoing.send [] 7).attempt openStation).store (some .clean) 0 (fun _ => 0) revokedLab) ∧
      ¬ Ledgered (.effect "ops git.commit nightly".toList 7) acceptingStation revokedLab
        (((Outgoing.effect "ops git.commit nightly".toList 7).attempt acceptingStation).store
          (some .clean) 0 (fun _ => 0) revokedLab) := by
  have hempty : ∀ {c e d d'}, liveChain d' lab = [] → ¬ Ledgered c e d d' := by
    rintro c e d d' h ⟨x, -, -, -, slot, hs, -⟩
    rw [h] at hs
    cases hs
  refine ⟨⟨by decide +kernel, rfl, by decide +kernel⟩, ⟨by decide +kernel, rfl, by decide +kernel⟩,
    by decide +kernel, by decide +kernel, hempty (by decide +kernel), hempty (by decide +kernel)⟩

end

end Dezh.Egress

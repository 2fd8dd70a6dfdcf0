import Mathlib.Data.List.Induction
import Dezh.Authority
import Dezh.Egress

/-!
# The gates of the console

Between the operator and the machine stand three gates: the capability of the
namespace or of the device, the egress authority for one destination, and the two
labels of the operator. Reading a secret raises the operator's secrecy, consuming
input from the network takes the operator's integrity away; `declassify` and
`endorse` undo one of the two each.
-/
namespace Dezh.ConsoleGates
open Authority Egress IntentTable PackageTasks

/-! ### Labels -/

def canFlow (data sink : UInt32) : Bool := data &&& ~~~sink == 0

def integrityOk (data sinkRequires : UInt32) : Bool := sinkRequires &&& ~~~data == 0

def trusted : UInt32 := ~~~0

def untrusted : UInt32 := 0

structure Taint where
  secrecy : UInt32
  integrity : UInt32
  deriving DecidableEq, Repr

namespace Taint

def new : Taint := ⟨0, trusted⟩

def observe (t : Taint) (object : UInt32) : Taint := { t with secrecy := t.secrecy ||| object }

def observeInput (t : Taint) (object : UInt32) : Taint :=
  { t with integrity := t.integrity &&& object }

def mayFlowTo (t : Taint) (sink : UInt32) : Bool := canFlow t.secrecy sink

def mayEndorseTo (t : Taint) (sinkRequires : UInt32) : Bool := integrityOk t.integrity sinkRequires

def endorse (t : Taint) : Taint := { t with integrity := trusted }

end Taint

def nsSecretVault : UInt32 := 1
def nsEndorsed : UInt32 := 1

def nsLabel (ns : ℕ) : UInt32 := if ns = 3 then nsSecretVault else 0

def nsRequires (ns : ℕ) : UInt32 := if ns = 0 ∨ ns = 3 then nsEndorsed else 0

/-! ### Destinations -/

structure Ip where
  a : UInt8
  b : UInt8
  c : UInt8
  d : UInt8
  deriving DecidableEq, Repr

def marzIp : MarzDest → Ip
  | .ops => ⟨10, 0, 2, 2⟩
  | .vaultSync => ⟨10, 0, 2, 3⟩

def marzPort : MarzDest → UInt16
  | .ops => 8888
  | .vaultSync => 9999

def packDest (ip : Ip) (port : UInt16) : ℕ :=
  ip.a.toNat <<< 24 ||| ip.b.toNat <<< 16 ||| ip.c.toNat <<< 8 ||| ip.d.toNat |||
    port.toNat <<< 32

def marzDestPacked (d : MarzDest) : ℕ := packDest (marzIp d) (marzPort d)

def dstIp (dest : ℕ) : Ip where
  a := .ofNat (dest >>> 24)
  b := .ofNat (dest >>> 16)
  c := .ofNat (dest >>> 8)
  d := .ofNat dest

def dstPort (dest : ℕ) : UInt16 := .ofNat (dest >>> 32)

/-! ### Commands -/

inductive NetCommand where
  | send (arg : List Char) (ahd : UInt16)
  | effect (arg : List Char) (ahd : UInt16)
  | ping (arg : List Char)

def runMarzPing (e : Station) (arg : List Char) : Attempt :=
  let name := trim arg
  let name := if name = [] then "ops".toList else name
  match marzDestId name with
  | none => { report := .unknownDest }
  | some d =>
    match e.refusal d with
    | some r => { report := r }
    | none => { report := if e.exchange.status ≠ 0 then .fail else .ok, ran := true }

namespace NetCommand

def attempt (e : Station) : NetCommand → Attempt
  | send arg ahd => e.marzSendTo arg ahd
  | effect arg ahd => e.marzEffect arg ahd
  | ping arg => runMarzPing e arg

def op : NetCommand → ℕ
  | send _ _ => 0
  | ping _ => 1
  | effect _ _ => 2

def destName : NetCommand → List Char
  | send arg _ => trim arg
  | ping arg => trim arg
  | effect arg _ => (splitOnce (trim arg)).1

def dest (c : NetCommand) : Option MarzDest :=
  marzDestId (if c.destName = [] then "ops".toList else c.destName)

/-- The command takes in what came back. A reply that cannot be printed is
discarded unread. -/
def ingress (e : Station) : NetCommand → Bool
  | send _ _ => false
  | effect arg ahd =>
    (e.marzEffect arg ahd).ran && e.exchange.status == 0 &&
      (marzReadReply e.exchange.window).isSome
  | ping arg => (runMarzPing e arg).ran && e.exchange.status == 0

end NetCommand

inductive SimpleOp where
  | get | log | verify
  deriving DecidableEq, Repr

/-- A command of the operator, with what the machine answers to it. -/
inductive ConsoleCommand where
  | commit (arg : List Char)
  | simple (op : SimpleOp) (arg : List Char) (status : ℕ)
  | nsAuthority (arg : List Char) (grant : Bool)
  | devAuthority (arg : List Char) (grant : Bool)
  | destAuthority (arg : List Char) (grant : Bool)
  | egressResetAll
  | net (c : NetCommand) (nic : Bool) (exchange : Exchange)
  | declassify
  | endorse

/-- What has happened. -/
inductive Event where
  | read (ns : ℕ)
  | committed (ns : ℕ)
  | launched (op : ℕ) (d : MarzDest) (dest : ℕ)
  | ingress
  | declassified
  | endorsed
  | nsChange (ns : ℕ) (c : Change)
  | devChange (object : ℕ) (c : Change)
  | destChange (d : MarzDest) (c : Change)
  | egressReset
  deriving DecidableEq, Repr

/-- What the gates look at. -/
structure Gates where
  ns : NsHolder
  dev : DevHolder
  taint : Taint
  opEgress : ℕ

/-- The state of the console: the gates and the table of open intents. -/
structure Console extends Gates where
  ahds : Ahds

def allEgress : ℕ := MarzDest.cap .ops ||| MarzDest.cap .vaultSync

namespace Console

def boot : Console where
  ns := .boot
  dev := .boot
  taint := .new
  opEgress := allEgress
  ahds := .boot

def cairnParseNs (arg : List Char) : Option (ℕ × List Char) :=
  let parts := splitOnce arg
  (cairnNsId (utf8 parts.1)).map fun ns => (ns, trim parts.2)

def devNames : List String := ["block", "net"]

def devNameId (name : List Char) : Option ℕ := devNames.findIdx? (·.toList == name)

def difcObserve (s : Console) (ns : ℕ) : Console := { s with taint := s.taint.observe (nsLabel ns) }

def difcMayWrite (s : Console) (ns : ℕ) : Bool :=
  s.taint.mayFlowTo (nsLabel ns) && s.taint.mayEndorseTo (nsRequires ns)

def difcIngress (s : Console) : Console := { s with taint := s.taint.observeInput untrusted }

def declassify (s : Console) : Console :=
  { s with taint :=
      if s.taint.integrity ≠ trusted then Taint.new.observeInput s.taint.integrity else Taint.new }

def endorse (s : Console) : Console := { s with taint := s.taint.endorse }

def change (grant : Bool) : Change := if grant then .grant else .revoke

def cairnCmdCommit (s : Console) (arg : List Char) : Console × List Event :=
  match cairnParseNs arg with
  | none => (s, [])
  | some (ns, text) =>
    if text = [] then (s, [])
    else if s.ns.nsAuthorityOk ns = false then (s, [])
    else if s.difcMayWrite ns = false then (s, [])
    else (s, [.committed ns])

def cairnCmdSimple (s : Console) (op : SimpleOp) (arg : List Char) (status : ℕ) :
    Console × List Event :=
  match cairnParseNs arg with
  | none => (s, [])
  | some (ns, _) =>
    if s.ns.nsAuthorityOk ns = false then (s, [])
    else if op = .get ∧ status = 0 then (s.difcObserve ns, [.read ns])
    else (s, [])

def nsAuthoritySet (s : Console) (arg : List Char) (grant : Bool) : Console × List Event :=
  match cairnParseNs arg with
  | none => (s, [])
  | some (ns, _) =>
    ({ s with ns := if grant then s.ns.nsGrant ns else s.ns.nsRevoke ns },
      [.nsChange ns (change grant)])

def devAuthoritySet (s : Console) (arg : List Char) (grant : Bool) : Console × List Event :=
  match devNameId (trim arg) with
  | none => (s, [])
  | some object =>
    ({ s with dev := s.dev.devAuthoritySet object grant }, [.devChange object (change grant)])

def marzDestAuthority (s : Console) (arg : List Char) (grant : Bool) : Console × List Event :=
  match marzDestId (trim arg) with
  | none => (s, [])
  | some d =>
    ({ s with opEgress := if grant then s.opEgress ||| d.cap else s.opEgress.ldiff d.cap },
      [.destChange d (change grant)])

def marzEgressResetAll (s : Console) : Console × List Event :=
  ({ s with opEgress := allEgress }, [.egressReset])

def station (s : Console) (nic : Bool) (exchange : Exchange) : Station where
  opEgress := s.opEgress
  secrecy := s.taint.secrecy
  nic := nic
  deviceLive := s.dev.devAuthorityOk devObjNet
  ahds := s.ahds
  exchange := exchange

def ahdsAfter (s : Console) : NetCommand → Ahds
  | .effect _ ahd => if ahd = 0 then s.ahds.opened "writer" ahdUnlimited else s.ahds
  | _ => s.ahds

def launches (e : Station) (c : NetCommand) : List Event :=
  if (c.attempt e).ran then
    (c.dest.map fun d => Event.launched c.op d (marzDestPacked d)).toList
  else []

def netCommand (s : Console) (c : NetCommand) (nic : Bool) (exchange : Exchange) :
    Console × List Event :=
  let e := s.station nic exchange
  let s' := { s with ahds := s.ahdsAfter c }
  if c.ingress e then (s'.difcIngress, launches e c ++ [.ingress]) else (s', launches e c)

def step (s : Console) : ConsoleCommand → Console × List Event
  | .commit arg => s.cairnCmdCommit arg
  | .simple op arg status => s.cairnCmdSimple op arg status
  | .nsAuthority arg grant => s.nsAuthoritySet arg grant
  | .devAuthority arg grant => s.devAuthoritySet arg grant
  | .destAuthority arg grant => s.marzDestAuthority arg grant
  | .egressResetAll => s.marzEgressResetAll
  | .net c nic exchange => s.netCommand c nic exchange
  | .declassify => (s.declassify, [.declassified])
  | .endorse => (s.endorse, [.endorsed])

def run (cmds : List ConsoleCommand) : Console × List Event :=
  cmds.foldl (fun r c => ((r.1.step c).1, r.2 ++ (r.1.step c).2)) (boot, [])

end Console

/-! ### The gates as a summary of the trace -/

namespace Gates

def after (g : Gates) : Event → Gates
  | .read ns => { g with taint := g.taint.observe (nsLabel ns) }
  | .ingress => { g with taint := g.taint.observeInput untrusted }
  | .declassified =>
    { g with taint :=
        if g.taint.integrity ≠ trusted then Taint.new.observeInput g.taint.integrity
        else Taint.new }
  | .endorsed => { g with taint := g.taint.endorse }
  | .nsChange ns .grant => { g with ns := g.ns.nsGrant ns }
  | .nsChange ns .revoke => { g with ns := g.ns.nsRevoke ns }
  | .devChange object .grant => { g with dev := g.dev.devAuthoritySet object true }
  | .devChange object .revoke => { g with dev := g.dev.devAuthoritySet object false }
  | .destChange d .grant => { g with opEgress := g.opEgress ||| d.cap }
  | .destChange d .revoke => { g with opEgress := g.opEgress.ldiff d.cap }
  | .egressReset => { g with opEgress := allEgress }
  | .committed _ => g
  | .launched _ _ _ => g

end Gates

section
variable {s : Console}

theorem foldl_launches (g : Gates) (e : Station) (c : NetCommand) :
    (Console.launches e c).foldl Gates.after g = g := by
  unfold Console.launches
  split_ifs
  · cases c.dest
    all_goals rfl
  · rfl

theorem toGates_netCommand (c : NetCommand) (nic : Bool) (x : Exchange) :
    (s.netCommand c nic x).1.toGates = (s.netCommand c nic x).2.foldl Gates.after s.toGates := by
  unfold Console.netCommand
  dsimp only
  split_ifs
  · rw [List.foldl_append, foldl_launches]
    rfl
  · rw [foldl_launches]

theorem toGates_step (c : ConsoleCommand) :
    (s.step c).1.toGates = (s.step c).2.foldl Gates.after s.toGates := by
  cases c with
  | commit arg =>
    simp only [Console.step, Console.cairnCmdCommit]
    split
    · rfl
    · split_ifs
      all_goals rfl
  | simple op arg status =>
    simp only [Console.step, Console.cairnCmdSimple]
    split
    · rfl
    · split_ifs
      all_goals rfl
  | nsAuthority arg grant =>
    simp only [Console.step, Console.nsAuthoritySet]
    split
    · rfl
    · cases grant
      all_goals rfl
  | devAuthority arg grant =>
    simp only [Console.step, Console.devAuthoritySet]
    split
    · rfl
    · cases grant
      all_goals rfl
  | destAuthority arg grant =>
    simp only [Console.step, Console.marzDestAuthority]
    split
    · rfl
    · cases grant
      all_goals rfl
  | egressResetAll | declassify | endorse => rfl
  | net c nic x => exact toGates_netCommand c nic x

theorem toGates_run (cmds : List ConsoleCommand) :
    (Console.run cmds).1.toGates = (Console.run cmds).2.foldl Gates.after Console.boot.toGates := by
  induction cmds using List.reverseRecOn with
  | nil => rfl
  | append_singleton cmds c ih =>
    simp only [Console.run, List.foldl_append, List.foldl_cons, List.foldl_nil] at ih ⊢
    rw [toGates_step, ih]

end

/-! ### What the gates let through -/

section
variable {e : Station} {n : NetCommand} {s : Console} {c : ConsoleCommand} {ns : ℕ} {v : Event}

theorem refusal_of_ran (h : (n.attempt e).ran = true) :
    ∃ d, n.dest = some d ∧ e.refusal d = none := by
  cases n with
  | send arg ahd =>
    simp only [NetCommand.attempt, Station.marzSendTo] at h
    simp only [NetCommand.dest, NetCommand.destName]
    split at h
    · cases h
    · next d hd =>
        split at h
        · cases h
        · next hr => exact ⟨d, hd, hr⟩
  | ping arg =>
    simp only [NetCommand.attempt, runMarzPing] at h
    simp only [NetCommand.dest, NetCommand.destName]
    split at h
    · cases h
    · next d hd =>
        split at h
        · cases h
        · next hr => exact ⟨d, hd, hr⟩
  | effect arg ahd =>
    simp only [NetCommand.attempt, Station.marzEffect] at h
    simp only [NetCommand.dest, NetCommand.destName]
    split at h
    · cases h
    · split at h
      · cases h
      · next d hd =>
          split at h
          · cases h
          · next hr => exact ⟨d, hd, hr⟩

theorem checks_of_refusal {d : MarzDest} (h : e.refusal d = none) :
    e.deviceLive = true ∧ e.opEgress &&& d.cap ≠ 0 ∧ canFlow e.secrecy d.label = true := by
  unfold Station.refusal at h
  split_ifs at h with hnic hdev hgate
  simpa [Station.marzGate, canFlow, hdev] using hgate

theorem mem_launches (h : v ∈ Console.launches e n) :
    ∃ d, v = .launched n.op d (marzDestPacked d) ∧ n.dest = some d ∧ e.refusal d = none := by
  unfold Console.launches at h
  split_ifs at h with hran
  · obtain ⟨d, hd, hr⟩ := refusal_of_ran hran
    rw [hd] at h
    exact ⟨d, by simpa using h, hd, hr⟩
  · cases h

theorem mem_netCommand {nic : Bool} {x : Exchange}
    (h : v ∈ (s.netCommand n nic x).2) : v = .ingress ∨ v ∈ Console.launches (s.station nic x) n := by
  unfold Console.netCommand at h
  dsimp only at h
  split_ifs at h
  · simpa [or_comm] using h
  · exact .inr h

def Event.passes : Event → Bool
  | .committed _ => true
  | .launched _ _ _ => true
  | _ => false

theorem command_of_passes (hv : v.passes = true) (h : v ∈ (s.step c).2) :
    (∃ arg, c = .commit arg) ∨ ∃ n nic x, c = .net n nic x := by
  cases c with
  | commit arg => exact .inl ⟨arg, rfl⟩
  | net n nic x => exact .inr ⟨n, nic, x, rfl⟩
  | simple op arg status =>
    simp only [Console.step, Console.cairnCmdSimple] at h
    split at h
    · cases h
    · split_ifs at h
      all_goals simp at h
      subst h
      cases hv
  | nsAuthority arg grant =>
    simp only [Console.step, Console.nsAuthoritySet] at h
    split at h
    all_goals simp at h
    subst h
    cases hv
  | devAuthority arg grant =>
    simp only [Console.step, Console.devAuthoritySet] at h
    split at h
    all_goals simp at h
    subst h
    cases hv
  | destAuthority arg grant =>
    simp only [Console.step, Console.marzDestAuthority] at h
    split at h
    all_goals simp at h
    subst h
    cases hv
  | egressResetAll | declassify | endorse =>
    obtain rfl := List.mem_singleton.mp h
    cases hv

theorem mayWrite_of_committed (h : Event.committed ns ∈ (s.step c).2) :
    s.difcMayWrite ns = true := by
  obtain ⟨arg, rfl⟩ | ⟨n, nic, x, rfl⟩ := command_of_passes rfl h
  · simp only [Console.step, Console.cairnCmdCommit] at h
    split at h
    · cases h
    · split_ifs at h with htext hok hmay
      all_goals simp at h
      subst h
      simpa using hmay
  · rcases mem_netCommand h with hi | hl
    · cases hi
    · obtain ⟨d, hd, -⟩ := mem_launches hl
      cases hd

theorem launch_gates {op w : ℕ} {d : MarzDest} (h : Event.launched op d w ∈ (s.step c).2) :
    ∃ n nic x, c = .net n nic x ∧ n.dest = some d ∧ n.op = op ∧ w = marzDestPacked d ∧
      s.dev.devAuthorityOk devObjNet = true ∧ s.opEgress &&& d.cap ≠ 0 ∧
      s.taint.mayFlowTo d.label = true := by
  obtain ⟨arg, rfl⟩ | ⟨n, nic, x, rfl⟩ := command_of_passes rfl h
  · simp only [Console.step, Console.cairnCmdCommit] at h
    split at h
    · cases h
    · split_ifs at h
      all_goals simp at h
  · rcases mem_netCommand h with hi | hl
    · cases hi
    · obtain ⟨d', hd, hdest, hr⟩ := mem_launches hl
      cases hd
      exact ⟨n, nic, x, rfl, hdest, rfl, rfl, checks_of_refusal hr⟩

end

end Dezh.ConsoleGates

import Dezh.ConsoleGates

/-!
# The gates and the history of the console

The gates keep no history, only a taint, a mask and the generations of two tables.
Here they are related to the trace of a whole session: the taint lets through what
the namespaces read since the last declassification allow, the integrity is gone
exactly when input was consumed since the last endorsement, and an authority that
the gate accepts has not been withdrawn since it was last granted.
-/
namespace Dezh.GateHistories
open Authority Histories ConsoleGates
open PackageTasks (or_eq_add)
open Egress

/-! ### Labels -/

theorem canFlow_or (a b sink : UInt32) :
    canFlow (a ||| b) sink = true ↔ canFlow a sink = true ∧ canFlow b sink = true := by
  simp only [canFlow, beq_iff_eq, ← UInt32.toBitVec_inj, UInt32.toBitVec_and, UInt32.toBitVec_or,
    UInt32.toBitVec_not, BitVec.and_or_distrib_right]
  exact BitVec.or_eq_zero_iff

theorem canFlow_self (a : UInt32) : canFlow a a = true := by
  simp [canFlow]

def gatesAfter (t : List Event) : Gates := t.foldl Gates.after Console.boot.toGates

@[simp]
theorem gatesAfter_concat (t : List Event) (v : Event) :
    gatesAfter (t ++ [v]) = (gatesAfter t).after v := by
  simp [gatesAfter]

theorem taint_after (g : Gates) {v : Event} (hr : ∀ ns, v ≠ .read ns) (hi : v ≠ .ingress)
    (hd : v ≠ .declassified) (he : v ≠ .endorsed) : (g.after v).taint = g.taint := by
  cases v with
  | read ns => exact absurd rfl (hr ns)
  | ingress => exact absurd rfl hi
  | declassified => exact absurd rfl hd
  | endorsed => exact absurd rfl he
  | nsChange ns c | devChange object c | destChange d c =>
    cases c
    all_goals rfl
  | committed ns | launched op d w | egressReset => rfl

theorem secrecy_declassified (g : Gates) : (g.after .declassified).taint.secrecy = 0 := by
  simp only [Gates.after]
  split_ifs
  all_goals rfl

theorem integrity_declassified (g : Gates) :
    (g.after .declassified).taint.integrity = g.taint.integrity := by
  simp only [Gates.after]
  split_ifs with h
  · simp [Taint.observeInput, Taint.new, trusted]
  · simp only [ne_eq, not_not] at h
    simp [Taint.new, h]

theorem mayFlowTo_gatesAfter (t : List Event) (sink : UInt32) :
    (gatesAfter t).taint.mayFlowTo sink = true ↔
      ∀ ns, Since (· = .read ns) (· = .declassified) t → canFlow (nsLabel ns) sink = true := by
  induction t using List.reverseRecOn with
  | nil => simp [gatesAfter, Console.boot, Taint.new, Taint.mayFlowTo, canFlow]
  | append_singleton t v ih =>
    unfold Taint.mayFlowTo at ih ⊢
    rw [gatesAfter_concat]
    by_cases hd : v = .declassified
    · subst hd
      simp [secrecy_declassified, since_concat, canFlow]
    by_cases hr : ∃ m, v = .read m
    · obtain ⟨m, rfl⟩ := hr
      simp only [Gates.after, Taint.observe, canFlow_or, ih, since_concat, Event.read.injEq,
        reduceCtorEq, not_false_eq_true, and_true]
      exact ⟨fun h ns hn => hn.elim (fun hm => hm ▸ h.2) (h.1 ns),
        fun h => ⟨fun ns hn => h ns (.inr hn), h m (.inl rfl)⟩⟩
    · have hother : ∀ ns, v ≠ .read ns := fun ns h => hr ⟨ns, h⟩
      have hsec : ((gatesAfter t).after v).taint.secrecy = (gatesAfter t).taint.secrecy := by
        cases v with
        | ingress | endorsed => rfl
        | _ => exact congrArg Taint.secrecy (taint_after _ hother (by simp) hd (by simp))
      simp [hsec, ih, since_concat, hother, hd]

theorem integrity_gatesAfter (t : List Event) :
    (gatesAfter t).taint.integrity =
      if Since (· = .ingress) (· = .endorsed) t then untrusted else trusted := by
  induction t using List.reverseRecOn with
  | nil => rfl
  | append_singleton t v ih =>
    rw [gatesAfter_concat]
    cases v with
    | ingress => simp [Gates.after, Taint.observeInput, untrusted, since_concat]
    | endorsed => simp [Gates.after, Taint.endorse, since_concat]
    | declassified => simp [integrity_declassified, ih, since_concat]
    | read m => simp [Gates.after, Taint.observe, ih, since_concat]
    | _ => simp [taint_after, ih, since_concat]

theorem mayEndorseTo_gatesAfter (t : List Event) (r : UInt32) :
    (gatesAfter t).taint.mayEndorseTo r = true ↔
      (r ≠ 0 → ¬ Since (· = .ingress) (· = .endorsed) t) := by
  simp only [Taint.mayEndorseTo, integrityOk, integrity_gatesAfter]
  split_ifs with h
  · simp [h, untrusted]
  · simp [h, trusted]

theorem gates_run (cmds : List ConsoleCommand) :
    (Console.run cmds).1.toGates = gatesAfter (Console.run cmds).2 := toGates_run cmds

/-- In every session: a commit or a launch of the network daemon is only let
through if the labels of all namespaces read since the last declassification may
flow into the sink, and into a namespace that demands endorsement only if no
network input was consumed since the last endorsement. Declassification does not
raise the integrity and endorsement does not lower the secrecy. -/
theorem flow_law (cmds : List ConsoleCommand) (c : ConsoleCommand) :
    (∀ ns, Event.committed ns ∈ ((Console.run cmds).1.step c).2 →
      (∀ m, Since (· = .read m) (· = .declassified) (Console.run cmds).2 →
        canFlow (nsLabel m) (nsLabel ns) = true) ∧
      (nsRequires ns ≠ 0 → ¬ Since (· = .ingress) (· = .endorsed) (Console.run cmds).2)) ∧
    (∀ op d w, Event.launched op d w ∈ ((Console.run cmds).1.step c).2 →
      ∀ m, Since (· = .read m) (· = .declassified) (Console.run cmds).2 →
        canFlow (nsLabel m) d.label = true) ∧
    canFlow (Console.run cmds).1.declassify.taint.integrity (Console.run cmds).1.taint.integrity =
      true ∧
    (Console.run cmds).1.endorse.taint.secrecy = (Console.run cmds).1.taint.secrecy := by
  have hgates : (Console.run cmds).1.taint = (gatesAfter (Console.run cmds).2).taint :=
    congrArg Gates.taint (gates_run cmds)
  refine ⟨fun ns h => ?_, fun op d w h => ?_, ?_, rfl⟩
  · have hmay := mayWrite_of_committed h
    simp only [Console.difcMayWrite, Bool.and_eq_true, hgates] at hmay
    exact ⟨(mayFlowTo_gatesAfter _ _).mp hmay.1, (mayEndorseTo_gatesAfter _ _).mp hmay.2⟩
  · obtain ⟨n, nic, x, -, -, -, -, -, -, hflow⟩ := launch_gates h
    rw [hgates] at hflow
    exact (mayFlowTo_gatesAfter _ _).mp hflow
  · have hint := integrity_declassified (Console.run cmds).1.toGates
    exact hint.symm ▸ canFlow_self _

def reviewed : List ConsoleCommand :=
  [.simple .get ['v', 'a', 'u', 'l', 't'] 0, .declassify]

theorem flow_law_reviewed :
    (Console.run reviewed).2 = [.read 3, .declassified] ∧
      Event.committed 0 ∈ ((Console.run reviewed).1.step (.commit ['n', 'o', 't', 'e', ' ', 'x'])).2 ∧
      ¬ Since (· = .ingress) (· = .endorsed) (Console.run reviewed).2 :=
  have hc : Event.committed 0 ∈
      ((Console.run reviewed).1.step (.commit ['n', 'o', 't', 'e', ' ', 'x'])).2 := by decide
  ⟨by decide, hc, ((flow_law reviewed _).1 0 hc).2 (by decide)⟩

/-! ### Launches of the network daemon -/

theorem dst_packDest (ip : Ip) (port : UInt16) :
    dstIp (packDest ip port) = ip ∧ dstPort (packDest ip port) = port := by
  obtain ⟨a, b, c, d⟩ := ip
  have ha := a.toNat_lt
  have hb := b.toNat_lt
  have hc := c.toNat_lt
  have hd := d.toNat_lt
  have hp := port.toNat_lt
  have hab : a.toNat * 2 ^ 24 ||| b.toNat * 2 ^ 16 = a.toNat * 2 ^ 24 + b.toNat * 2 ^ 16 :=
    or_eq_add (i := 24) (by omega) (by omega)
  have habc : a.toNat * 2 ^ 24 + b.toNat * 2 ^ 16 ||| c.toNat * 2 ^ 8 =
      a.toNat * 2 ^ 24 + b.toNat * 2 ^ 16 + c.toNat * 2 ^ 8 :=
    or_eq_add (i := 16) (by omega) (by omega)
  have habcd : a.toNat * 2 ^ 24 + b.toNat * 2 ^ 16 + c.toNat * 2 ^ 8 ||| d.toNat =
      a.toNat * 2 ^ 24 + b.toNat * 2 ^ 16 + c.toNat * 2 ^ 8 + d.toNat :=
    or_eq_add (i := 8) (by omega) (by omega)
  have hall : port.toNat * 2 ^ 32 |||
      (a.toNat * 2 ^ 24 + b.toNat * 2 ^ 16 + c.toNat * 2 ^ 8 + d.toNat) =
      port.toNat * 2 ^ 32 + (a.toNat * 2 ^ 24 + b.toNat * 2 ^ 16 + c.toNat * 2 ^ 8 + d.toNat) :=
    or_eq_add (i := 32) (by omega) (by omega)
  have hpack : packDest ⟨a, b, c, d⟩ port =
      port.toNat * 2 ^ 32 + (a.toNat * 2 ^ 24 + b.toNat * 2 ^ 16 + c.toNat * 2 ^ 8 + d.toNat) := by
    simp only [packDest, Nat.shiftLeft_eq]
    rw [hab, habc, habcd, Nat.or_comm, hall]
  simp only [dstIp, dstPort, hpack, Ip.mk.injEq, Nat.shiftRight_eq_div_pow, ← UInt8.toNat_inj,
    ← UInt16.toNat_inj, UInt8.toNat_ofNat', UInt16.toNat_ofNat']
  omega

def Event.onDevice (object : ℕ) : Event → Option Change
  | .devChange o c => if o = object then some c else none
  | _ => none

def Event.onDest (d : MarzDest) : Event → Option Change
  | .destChange d' c => if d' = d then some c else none
  | .egressReset => some .grant
  | _ => none

def devHistory (object : ℕ) (t : List Event) : List Change := t.filterMap (Event.onDevice object)

def destHistory (d : MarzDest) (t : List Event) : List Change := t.filterMap (Event.onDest d)

theorem devHistory_concat (object : ℕ) (t : List Event) (v : Event) :
    devHistory object (t ++ [v]) = devHistory object t ++ (Event.onDevice object v).toList := by
  cases h : Event.onDevice object v
  all_goals simp [devHistory, h]

theorem destHistory_concat (d : MarzDest) (t : List Event) (v : Event) :
    destHistory d (t ++ [v]) = destHistory d t ++ (Event.onDest d v).toList := by
  cases h : Event.onDest d v
  all_goals simp [destHistory, h]

theorem tracks_gatesAfter {object : ℕ} (ho : object < devProfile.names) (t : List Event) :
    (gatesAfter t).dev.Tracks devProfile object (devHistory object t) := by
  induction t using List.reverseRecOn with
  | nil => exact Holder.tracks_boot (by decide) ho
  | append_singleton t v ih =>
    rw [gatesAfter_concat, devHistory_concat]
    cases v with
    | devChange o c =>
      by_cases h : o = object
      · subst h
        cases c
        · simpa [Event.onDevice, Gates.after, DevHolder.devAuthoritySet] using ih.revoke
        · simpa [Event.onDevice, Gates.after, DevHolder.devAuthoritySet] using ih.grant
      · cases c
        · simpa [Event.onDevice, Gates.after, DevHolder.devAuthoritySet, h] using
            ih.revoke_other (Ne.symm h)
        · simpa [Event.onDevice, Gates.after, DevHolder.devAuthoritySet, h] using
            ih.grant_other (Ne.symm h)
    | nsChange ns c | destChange d c =>
      cases c
      all_goals simpa [Event.onDevice, Gates.after] using ih
    | _ => simpa [Event.onDevice, Gates.after] using ih

def destBit : MarzDest → ℕ
  | .ops => 16
  | .vaultSync => 17

theorem testBit_cap (d d' : MarzDest) : d'.cap.testBit (destBit d) = decide (d' = d) := by
  cases d
  all_goals
    cases d'
    all_goals decide

theorem and_cap_ne_zero (m : ℕ) (d : MarzDest) :
    m &&& d.cap ≠ 0 ↔ m.testBit (destBit d) = true := by
  have hcap : d.cap = 2 ^ destBit d := by
    cases d
    all_goals rfl
  rw [hcap, Nat.and_two_pow]
  cases m.testBit (destBit d)
  all_goals simp

theorem egress_gatesAfter (d : MarzDest) (t : List Event) :
    (gatesAfter t).opEgress.testBit (destBit d) = true ↔ ¬ Withdrawn (destHistory d t) := by
  induction t using List.reverseRecOn with
  | nil =>
    cases d
    all_goals decide
  | append_singleton t v ih =>
    rw [gatesAfter_concat, destHistory_concat]
    cases v with
    | destChange d' c =>
      by_cases h : d' = d
      · cases c
        all_goals simp [Gates.after, Event.onDest, h, Nat.testBit_ldiff, testBit_cap]
      · cases c
        all_goals simp [Gates.after, Event.onDest, h, Nat.testBit_ldiff, testBit_cap, ih]
    | egressReset =>
      cases d
      all_goals simp [Gates.after, Event.onDest, allEgress, testBit_cap]
    | nsChange ns c | devChange object c =>
      cases c
      all_goals simpa [Gates.after, Event.onDest] using ih
    | _ => simpa [Gates.after, Event.onDest] using ih

/-- In every session with fewer than `2 ^ 32` revocations of the network device:
the network daemon is only launched if the device was not revoked since it was
last granted, the authority for the destination was not withdrawn since it was
last granted, and the operator's secrecy may flow to the destination. It is
launched for the destination the command names, and the address and the port it
decodes are those of that destination. -/
theorem launch_gated (cmds : List ConsoleCommand) (c : ConsoleCommand) (op w : ℕ) (d : MarzDest)
    (h : Event.launched op d w ∈ ((Console.run cmds).1.step c).2)
    (hfew : (devHistory devObjNet (Console.run cmds).2).count .revoke < 2 ^ 32) :
    ¬ Withdrawn (devHistory devObjNet (Console.run cmds).2) ∧
      ¬ Withdrawn (destHistory d (Console.run cmds).2) ∧
      canFlow (Console.run cmds).1.taint.secrecy d.label = true ∧
      (∃ n nic x, c = .net n nic x ∧ n.dest = some d ∧ n.op = op) ∧
      dstIp w = marzIp d ∧ dstPort w = marzPort d := by
  obtain ⟨n, nic, x, hc, hdest, hop, rfl, hdev, hegress, hflow⟩ := launch_gates h
  have hgates := gates_run cmds
  have hd : (Console.run cmds).1.dev = (gatesAfter (Console.run cmds).2).dev :=
    congrArg Gates.dev hgates
  have hm : (Console.run cmds).1.opEgress = (gatesAfter (Console.run cmds).2).opEgress :=
    congrArg Gates.opEgress hgates
  rw [hd] at hdev
  rw [hm, and_cap_ne_zero, egress_gatesAfter] at hegress
  have hdevice := (tracks_gatesAfter (by decide) _).not_withdrawn hfew hdev
  have hcodec := dst_packDest (marzIp d) (marzPort d)
  exact ⟨hdevice, hegress, hflow, ⟨n, nic, x, hc, hdest, hop⟩, hcodec.1, hcodec.2⟩

def regranted : List ConsoleCommand :=
  [.devAuthority ['n', 'e', 't'] false, .devAuthority ['n', 'e', 't'] true]

def answeredPing : ConsoleCommand := .net (.ping []) true ⟨true, 0, fun _ => 0⟩

theorem launch_gated_regranted :
    Event.launched 1 .ops 0x22b80a000202 ∈ ((Console.run regranted).1.step answeredPing).2 ∧
      dstIp 0x22b80a000202 = ⟨10, 0, 2, 2⟩ ∧ dstPort 0x22b80a000202 = 8888 :=
  have h : Event.launched 1 .ops 0x22b80a000202 ∈
      ((Console.run regranted).1.step answeredPing).2 := by decide +kernel
  have hgated := launch_gated regranted answeredPing 1 0x22b80a000202 .ops h (by decide +kernel)
  ⟨h, hgated.2.2.2.2⟩

end Dezh.GateHistories

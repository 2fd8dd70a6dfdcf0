import Dezh.HartClaims

/-!
# Mailboxes are queues

Whatever the harts do between two launches of a task, the messages accepted for it are
the messages it has received followed by the ones that wait in its mailbox. The balance
is kept by every system call for every row: a send appends one message to one mailbox,
a receive takes one from the front of the caller's, and nothing else touches a mailbox.
-/
namespace Dezh.Scheduler
open Function TaskTable RingBuffer

variable {t : Task} {msg : Message}

def Served.sentTo (r : Served) (i : Slot) : List Message :=
  match r.sent with
  | some (dest, msg) => if dest = i then [msg] else []
  | none => []

def Served.got (r : Served) : List Message :=
  match r.answer with
  | some (.message msg) => [msg]
  | _ => []

/-- Over a call of row `cur` every mailbox, with the message queued for it, is the message
the call returned and the mailbox after it. -/
def Balanced (tasks : Tasks) (cur : Slot) (r : Served) : Prop :=
  ∀ i, (tasks i).mailbox.toList ++ r.sentTo i =
    (if i = cur then r.got else []) ++ (r.tasks i).mailbox.toList

section
variable {tasks : Tasks} {cur : Slot} {ticks irqs caps : ℕ} {mem : ℕ → UInt8}

theorem balanced_of_update {a : Option Answer} (console : List UInt8)
    (access : List Access) (ht : t.mailbox = (tasks cur).mailbox) (ha : ∀ msg, a ≠ some (.message msg)) :
    Balanced tasks cur ⟨update tasks cur t, a, console, access, none⟩ := by
  intro i
  have hgot : Served.got ⟨update tasks cur t, a, console, access, none⟩ = [] := by
    unfold Served.got
    split
    · exact absurd ‹_› (ha _)
    · rfl
  have hrow : (update tasks cur t i).mailbox = (tasks i).mailbox := by
    by_cases hi : i = cur
    · rw [hi, update_self, ht]
    · rw [update_of_ne hi]
  rw [hgot, ite_self, List.nil_append, Served.sentTo, List.append_nil, hrow]

theorem take_mailbox (h : 0 < t.mailbox.count) :
    t.take.mailbox = t.mailbox.pop emptyIpcMessage h := by
  unfold Task.take
  rw [dif_pos h]

theorem push_mailbox (msg : Message) (h : t.mailbox.count < mailboxDepth) :
    (t.push msg).mailbox = t.mailbox.push msg h := by
  unfold Task.push
  rw [dif_pos h]

theorem receive_balanced (h : 0 < (tasks cur).mailbox.count) :
    Balanced tasks cur (receive tasks cur) := by
  intro i
  rw [Served.sentTo, receive, List.append_nil]
  dsimp only
  by_cases hi : i = cur
  · rw [if_pos hi, hi, update_self, take_mailbox h]
    exact Ring.toList_pop _ _ h
  · rw [if_neg hi, update_of_ne hi, List.nil_append]

theorem send_balanced : Balanced tasks cur (send tasks cur caps mem) := by
  rcases send_cases tasks cur caps mem with
    ⟨console, hrefused⟩ | ⟨dest, hdest, htasks, hanswer, hsent⟩
  · rw [hrefused]
    exact balanced_of_update _ _ rfl fun _ h => by cases h
  · intro i
    have hroom := (receiver_spec hdest).2.2.2
    -- the caller's own row is only answered after the message is queued
    have hrow : ((send tasks cur caps mem).tasks i).mailbox =
        (update tasks dest ((tasks dest).push (outgoing tasks cur caps mem)) i).mailbox := by
      rw [htasks]
      by_cases hi : i = cur
      · rw [hi, reply_own]
        rfl
      · rw [reply_other hi]
    rw [Served.sentTo, Served.got, hanswer, hsent, hrow]
    dsimp only
    rw [ite_self, List.nil_append]
    by_cases hi : dest = i
    · rw [if_pos hi, ← hi, update_self, push_mailbox _ hroom, Ring.toList_push]
    · rw [if_neg hi, update_of_ne (Ne.symm hi), List.append_nil]

theorem serve_balanced : Balanced tasks cur (serve tasks cur ticks irqs caps mem) := by
  have hform := serve_form tasks cur ticks irqs caps mem
  generalize serve tasks cur ticks irqs caps mem = r at hform ⊢
  cases hform with
  | reply f a console access ha =>
    exact balanced_of_update console access rfl fun msg h => ha msg (Option.some.inj h)
  | leave t console ht => exact balanced_of_update console [] ht fun _ h => by cases h
  | receive hmail => exact receive_balanced hmail
  | send => exact send_balanced

theorem serve_sent {dest : Slot}
    (h : (serve tasks cur ticks irqs caps mem).sent = some (dest, msg)) :
    (tasks cur).Calls .send ∧ receiver tasks cur = some dest ∧
      msg = outgoing tasks cur caps mem := by
  have hform := serve_form tasks cur ticks irqs caps mem
  generalize serve tasks cur ticks irqs caps mem = r at hform h
  cases hform with
  | reply | leave | receive => cases h
  | send hsend =>
    refine ⟨hsend, ?_⟩
    rcases send_cases tasks cur caps mem with ⟨console, hrefused⟩ | ⟨dest', hdest, -, -, hsent⟩
    · rw [hrefused] at h
      cases h
    · rw [hsent] at h
      cases h
      exact ⟨hdest, rfl⟩

theorem serve_got (h : (serve tasks cur ticks irqs caps mem).answer = some (.message msg)) :
    let f := ((serve tasks cur ticks irqs caps mem).tasks cur).frame
    f.a0 = min msg.tag.length (tasks cur).frame.a1 ∧ f.a1 = msg.sender ∧ f.a2 = msg.word ∧
      f.a3 = msg.senderCaps := by
  have hown := serve_own tasks cur ticks irqs caps mem
  generalize (serve tasks cur ticks irqs caps mem).tasks cur = t' at hown ⊢
  rw [h] at hown
  cases hown with
  | took _ hmail =>
    rw [Task.take, dif_pos hmail]
    exact ⟨rfl, rfl, rfl, rfl⟩

theorem serve_refused (hsend : (tasks cur).Calls .send)
    (h : (serve tasks cur ticks irqs caps mem).answer = some .denied) (i : Slot) :
    (serve tasks cur ticks irqs caps mem).tasks i =
      if i = cur then (tasks cur).answered { (tasks cur).frame with a0 := sysDenied }
      else tasks i := by
  have heq : serve tasks cur ticks irqs caps mem = send tasks cur caps mem := by
    rw [serve, if_neg (by rw [hsend.1]; exact Bool.false_ne_true), native, hsend.2]
  rw [heq] at h ⊢
  rcases send_cases tasks cur caps mem with ⟨console, hrefused⟩ | ⟨dest, -, -, hanswer, -⟩
  · rw [hrefused]
    exact update_apply ..
  · rw [hanswer] at h
    cases h

end

variable {H : Type}

namespace Kernel

def service (k : Kernel H) : Section H → Option (Slot × Served)
  | .serve h mem =>
    match k.current h, k.phase h with
    | some cur, .trap caps => some (cur, Scheduler.serve k.tasks cur k.ticks k.extIrqs caps mem)
    | _, _ => none
  | _ => none

def accepts (k : Kernel H) (s : Section H) (i : Slot) : List Message :=
  match k.service s with
  | some (_, r) => r.sentTo i
  | none => []

def delivers (k : Kernel H) (s : Section H) (i : Slot) : List Message :=
  match k.service s with
  | some (cur, r) => if i = cur then r.got else []
  | none => []

variable [Fintype H] [DecidableEq H]

def accepted (k : Kernel H) (i : Slot) : List (Section H) → List Message
  | [] => []
  | s :: run => k.accepts s i ++ (k.next s).accepted i run

def received (k : Kernel H) (i : Slot) : List (Section H) → List Message
  | [] => []
  | s :: run => k.delivers s i ++ (k.next s).received i run

end Kernel

section
variable [Fintype H] [DecidableEq H] {k : Kernel H} {s : Section H} {i : Slot}

omit [Fintype H] [DecidableEq H] in
theorem service_cases (k : Kernel H) (s : Section H) :
    k.service s = none ∨ ∃ h mem cur caps, s = .serve h mem ∧ k.current h = some cur ∧
      k.phase h = .trap caps ∧
      k.service s = some (cur, serve k.tasks cur k.ticks k.extIrqs caps mem) := by
  cases s with
  | serve h mem =>
    unfold Kernel.service
    dsimp only
    split
    · exact .inr ⟨h, mem, _, _, rfl, ‹_›, ‹_›, rfl⟩
    · exact .inl rfl
  | _ => exact .inl rfl

theorem next_of_service {cur : Slot} {r : Served} (h : k.service s = some (cur, r)) :
    (k.next s).tasks = r.tasks := by
  rcases service_cases k s with hnone | ⟨h', mem, cur', caps, rfl, hcur, hphase, heq⟩
  · rw [hnone] at h
    cases h
  · rw [heq] at h
    cases h
    rw [Kernel.next, hcur, hphase]
    rfl

theorem mailbox_of_no_service (hs : k.service s = none) (hr : ¬ k.Resets s i) :
    ((k.next s).tasks i).mailbox = (k.tasks i).mailbox := by
  have hserved : ∀ {h mem cur caps}, s = .serve h mem → k.current h = some cur →
      k.phase h = .trap caps → False := by
    rintro h mem cur caps rfl hcur hphase
    rw [Kernel.service, hcur, hphase] at hs
    cases hs
  have hrow := next_row k s i
  generalize (k.next s).tasks i = t' at hrow ⊢
  cases hrow with
  | expire =>
    unfold Task.expire
    split_ifs <;> rfl
  | wake =>
    unfold Task.wakeIrq
    split_ifs <;> rfl
  | own h mem caps hs hcur hphase
  | sent h mem cur msg caps hs hcur hphase => exact (hserved hs hcur hphase).elim
  | launch spec build hs => exact absurd (hs ▸ rfl : k.Resets s i) hr
  | reset hreset => exact absurd hreset hr
  | _ => rfl

theorem mailbox_next (hr : ¬ k.Resets s i) :
    (k.tasks i).mailbox.toList ++ k.accepts s i =
      k.delivers s i ++ ((k.next s).tasks i).mailbox.toList := by
  unfold Kernel.accepts Kernel.delivers
  cases hs : k.service s with
  | none =>
    dsimp only
    rw [mailbox_of_no_service hs hr, List.append_nil, List.nil_append]
  | some served =>
    obtain ⟨cur, r⟩ := served
    dsimp only
    rw [next_of_service hs]
    rcases service_cases k s with hnone | ⟨h', mem, cur', caps, rfl, hcur, hphase, heq⟩
    · rw [hnone] at hs
      cases hs
    · rw [heq] at hs
      cases hs
      exact serve_balanced i

theorem mailbox_run {run : List (Section H)} (hrun : Allowed (fun k s => ¬ k.Resets s i) k run) :
    (k.tasks i).mailbox.toList ++ k.accepted i run =
      k.received i run ++ ((k.after run).tasks i).mailbox.toList := by
  induction run generalizing k with
  | nil => exact List.append_nil _
  | cons s run ih =>
    obtain ⟨-, hr, hrun⟩ := hrun
    rw [Kernel.accepted, Kernel.received, List.append_assoc, ← List.append_assoc,
      mailbox_next hr, List.append_assoc, ih hrun]
    rfl

omit [Fintype H] [DecidableEq H] in
theorem accepts_spec (h : msg ∈ k.accepts s i) :
    ∃ h mem cur caps, s = .serve h mem ∧ k.current h = some cur ∧ k.phase h = .trap caps ∧
      (k.tasks cur).Calls .send ∧ (k.tasks cur).frame.a0 = i ∧
      msg = outgoing k.tasks cur caps mem := by
  unfold Kernel.accepts at h
  rcases service_cases k s with hnone | ⟨h', mem, cur, caps, hs, hcur, hphase, heq⟩
  · rw [hnone] at h
    cases h
  · rw [heq] at h
    dsimp only at h
    rw [Served.sentTo] at h
    cases hsent : (serve k.tasks cur k.ticks k.extIrqs caps mem).sent with
    | none =>
      rw [hsent] at h
      cases h
    | some sent =>
      obtain ⟨dest, msg'⟩ := sent
      rw [hsent] at h
      dsimp only at h
      split_ifs at h with hdest
      · obtain ⟨hcalls, hrecv, hmsg⟩ := serve_sent hsent
        rw [List.mem_singleton.mp h, ← hdest]
        exact ⟨h', mem, cur, caps, hs, hcur, hphase, hcalls, (receiver_spec hrecv).1, hmsg⟩
      · cases h

theorem delivers_spec (h : msg ∈ k.delivers s i) :
    ((k.next s).tasks i).frame.a0 = min msg.tag.length (k.tasks i).frame.a1 ∧
      ((k.next s).tasks i).frame.a1 = msg.sender ∧ ((k.next s).tasks i).frame.a2 = msg.word ∧
      ((k.next s).tasks i).frame.a3 = msg.senderCaps := by
  unfold Kernel.delivers at h
  rcases service_cases k s with hnone | ⟨h', mem, cur, caps, -, -, -, heq⟩
  · rw [hnone] at h
    cases h
  · rw [next_of_service heq]
    rw [heq] at h
    dsimp only at h
    split_ifs at h with hi
    · rw [hi]
      rw [Served.got] at h
      split at h
      · rw [List.mem_singleton.mp h]
        exact serve_got ‹_›
      · cases h
    · cases h

theorem refused_spec {cur : Slot} {r : Served} (hs : k.service s = some (cur, r))
    (hsend : (k.tasks cur).Calls .send) (hdenied : r.answer = some .denied) :
    (k.next s).tasks i =
      if i = cur then (k.tasks cur).answered { (k.tasks cur).frame with a0 := sysDenied }
      else k.tasks i := by
  rw [next_of_service hs]
  rcases service_cases k s with hnone | ⟨h', mem, cur', caps, -, -, -, heq⟩
  · rw [hnone] at hs
    cases hs
  · rw [heq] at hs
    cases hs
    exact serve_refused hsend hdenied i

/-- Over any run without a reset of row `i`, from an empty mailbox: the messages accepted
for it are those it received and then those in its mailbox. A message is recorded from the
registers and memory of its sender, is delivered as recorded, and a refused send changes
nothing but the registers of its caller. -/
theorem mailbox_exactly_once (hempty : (k.tasks i).mailbox.count = 0) {run : List (Section H)}
    (hrun : Allowed (fun k s => ¬ k.Resets s i) k run) :
    k.accepted i run = k.received i run ++ ((k.after run).tasks i).mailbox.toList ∧
    ∀ (k : Kernel H) (s : Section H),
      (∀ msg ∈ k.accepts s i, ∃ h mem cur caps, s = .serve h mem ∧ k.current h = some cur ∧
        k.phase h = .trap caps ∧ (k.tasks cur).Calls .send ∧ (k.tasks cur).frame.a0 = i ∧
        msg.sender = cur ∧ msg.senderCaps = caps ∧ msg.word = (k.tasks cur).frame.a4 ∧
        msg.tag = bytesAt mem (k.tasks cur).frame.a1 (min (k.tasks cur).frame.a2 64)) ∧
      (∀ msg ∈ k.delivers s i,
        ((k.next s).tasks i).frame.a0 = min msg.tag.length (k.tasks i).frame.a1 ∧
        ((k.next s).tasks i).frame.a1 = msg.sender ∧ ((k.next s).tasks i).frame.a2 = msg.word ∧
        ((k.next s).tasks i).frame.a3 = msg.senderCaps) ∧
      ∀ cur r, k.service s = some (cur, r) → (k.tasks cur).Calls .send →
        r.answer = some .denied → (k.next s).tasks i =
          if i = cur then (k.tasks cur).answered { (k.tasks cur).frame with a0 := sysDenied }
          else k.tasks i := by
  constructor
  · have hbalance := mailbox_run hrun
    rwa [Ring.toList_of_empty hempty, List.nil_append] at hbalance
  · intro k s
    refine ⟨fun msg hmsg => ?_, fun msg => delivers_spec, fun cur r => refused_spec⟩
    obtain ⟨h, mem, cur, caps, hs, hcur, hphase, hcalls, hdest, rfl⟩ := accepts_spec hmsg
    exact ⟨h, mem, cur, caps, hs, hcur, hphase, hcalls, hdest, rfl, rfl, rfl, rfl⟩

end

def twoTasks : List (Section Hart) :=
  [.wipe, .launch 0 callSpec (some (callBuild 16)), .launch 1 callSpec (some (callBuild 32)),
    .claimFirst, .install 0]

def twoSends : List (Section Hart) :=
  call 0 (callFrame 6 1 0 2) ++ call 0 (callFrame 6 1 0 3) ++ call 0 (callFrame 3 0 0 0) ++
    [.pick 0] ++ call 0 (callFrame 7 0 64 0)

theorem mailbox_exactly_once_two :
    Allowed (fun k s => ¬ k.Resets s 1) ((Kernel.boot 0).after twoTasks) twoSends ∧
      (((Kernel.boot 0).after twoTasks).accepted 1 twoSends).length = 2 ∧
      ((Kernel.boot 0).after twoTasks).accepted 1 twoSends =
        ((Kernel.boot 0).after twoTasks).received 1 twoSends ++
          ((((Kernel.boot 0).after twoTasks).after twoSends).tasks 1).mailbox.toList := by
  have hempty : (((Kernel.boot 0).after twoTasks).tasks 1).mailbox.count = 0 := by decide +kernel
  have hrun : Allowed (fun k s => ¬ k.Resets s 1) ((Kernel.boot 0).after twoTasks) twoSends := by
    decide +kernel
  exact ⟨hrun, by decide +kernel, (mailbox_exactly_once hempty hrun).1⟩

end Dezh.Scheduler

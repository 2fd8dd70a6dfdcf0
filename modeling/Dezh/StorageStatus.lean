import Dezh.TaskTable

/-!
# The status of a storage request

The console asks for storage through a client task: it clears the foreground
rows, launches the client, lets the scheduler run until no row is ready, and
reads the exit code of the client's row. The client sends one request to the
block daemon, waits for the reply and exits with the status in it.
-/
namespace Dezh.StorageStatus
open Function BlockDaemon CairnService TaskTable PackageTasks

def virtioServiceTask : Slot := 0

def clientTask : Slot := 1

def responseStatus (word : ℕ) : ℕ :=
  if requestProto word = ipcProtoV1 ∧ requestService word = ipcServiceVirtioBlock then
    (word >>> 16) &&& 0xff
  else Status.badRequest.code

/-- The client between its system calls. -/
inductive ClientPhase where
  | starting
  | asked
  | answered (status : ℕ)
  | exited (status : ℕ)
  deriving DecidableEq, Repr

inductive DaemonPhase where
  | listening
  | working (request : IpcMessage Unit)
  | finished (sender : Slot) (word : ℕ)
  | gone

/-- The rows, the two programs, and the status that the daemon has come to for
the request of the client it last worked on. -/
structure Session where
  table : Table Unit
  client : ClientPhase
  daemon : DaemonPhase
  served : Option Status

def daemonReply (word : ℕ) (status : Status) : ℕ × Status :=
  if requestProto word = ipcProtoV1 ∧ requestService word = ipcServiceVirtioBlock then
    (replyWord word status, status)
  else (typedWord 0 0 Status.badRequest.code 0, .badRequest)

namespace Session

def call (s : Session) (i : Slot) (c : Syscall) (word : ℕ) : Reply Unit × Table Unit :=
  syscall s.table 0 i (s.table i).caps c word ()

def clientStep (s : Session) (word : ℕ) : Session :=
  match s.client with
  | .starting =>
    let r := s.call clientTask (.send virtioServiceTask.val 0) word
    match r.1 with
    | .sent => { s with table := r.2, client := .asked }
    | _ => { s with table := r.2, client := .answered Status.unavailable.code }
  | .asked =>
    let r := s.call clientTask .recv 0
    match r.1 with
    | .message msg => { s with table := r.2, client := .answered (responseStatus msg.word) }
    | _ => { s with table := r.2 }
  | .answered status =>
    { s with table := (s.call clientTask (.exit status) 0).2, client := .exited status }
  | .exited _ => s

/-- The daemon waits for a request, comes to a status for it, and replies; the
result of the reply's send is dropped. -/
def daemonStep (s : Session) (status : Status) : Session :=
  match s.daemon with
  | .listening =>
    let r := s.call virtioServiceTask .recv 0
    match r.1 with
    | .message msg => { s with table := r.2, daemon := .working msg }
    | _ => { s with table := r.2 }
  | .working request =>
    let reply := daemonReply request.word status
    { s with daemon := .finished request.sender reply.1,
             served := if request.sender = clientTask then some reply.2 else s.served }
  | .finished sender word =>
    { s with table := (s.call virtioServiceTask (.send sender.val 0) word).2,
             daemon := .listening }
  | .gone => s

end Session

/-- What can happen between two decisions of the scheduler. -/
inductive Action where
  | client
  | clientFault
  | daemon (status : Status)
  | daemonWait
  | daemonExit (code : ℕ)
  | daemonFault
  | wakeIrq

namespace Session

def Enabled (s : Session) : Action → Prop
  | .client | .clientFault => (s.table clientTask).state = .ready
  | .daemon _ | .daemonWait | .daemonExit _ | .daemonFault =>
    (s.table virtioServiceTask).state = .ready
  | .wakeIrq => True

instance (s : Session) (a : Action) : Decidable (s.Enabled a) := by
  cases a
  all_goals
    unfold Enabled
    infer_instance

def step (s : Session) (word : ℕ) : Action → Session
  | .client => s.clientStep word
  | .clientFault =>
    { s with table := update s.table clientTask (s.table clientTask).fault }
  | .daemon status => s.daemonStep status
  | .daemonWait => { s with table := (s.call virtioServiceTask (.irqWait false) 0).2 }
  | .daemonExit code =>
    { s with table := (s.call virtioServiceTask (.exit code) 0).2, daemon := .gone }
  | .daemonFault =>
    { s with table := update s.table virtioServiceTask (s.table virtioServiceTask).fault,
             daemon := .gone }
  | .wakeIrq => { s with table := fun i => (s.table i).wakeIrq }

end Session

/-- A request of the console: the table and the daemon it finds, whether the
service is available, the frames for the client, its further capabilities and the
word it is to send. -/
structure Call where
  table : Table Unit
  daemon : DaemonPhase
  available : Bool
  build : Option ℕ
  extraCaps : ℕ
  word : ℕ

namespace Call

def launched (c : Call) : Table Unit :=
  let cleared : Table Unit := fun i =>
    if firstForegroundTask ≤ i.val then (c.table i).clearForeground else c.table i
  update cleared clientTask
    ((cleared clientTask).reclaim.spawn c.build (courierCaps c.extraCaps))

def start (c : Call) : Session := ⟨c.launched, .starting, c.daemon, none⟩

/-- The sessions a launched client can lead to. -/
inductive Reaches (c : Call) : Session → Prop
  | start : Reaches c c.start
  | step {s : Session} (a : Action) : Reaches c s → s.Enabled a → Reaches c (s.step c.word a)

def Permits (word : ℕ) (s : Session) : List Action → Prop
  | [] => True
  | a :: run => s.Enabled a ∧ Permits word (s.step word a) run

instance (word : ℕ) (s : Session) (run : List Action) : Decidable (Permits word s run) := by
  induction run generalizing s with
  | nil => exact isTrue trivial
  | cons a run ih => exact @instDecidableAnd _ _ _ (ih _)

def after (c : Call) (run : List Action) : Session := run.foldl (fun s a => s.step c.word a) c.start

theorem reaches_after {c : Call} {run : List Action} (h : Permits c.word c.start run) :
    c.Reaches (c.after run) := by
  have hrun : ∀ {s}, c.Reaches s → Permits c.word s run →
      c.Reaches (run.foldl (fun s a => s.step c.word a) s) := by
    clear h
    induction run with
    | nil => exact fun hs _ => hs
    | cons a run ih => exact fun hs ha => ih (hs.step a ha.1) ha.2
  exact hrun .start h

/-- What the console reads back: the exit code of the client's row, after the
finished foreground rows have been reclaimed. -/
def exitCode (t : Table Unit) : ℕ :=
  (if (t clientTask).state = .done then (t clientTask).reclaim else t clientTask).exit

/-- The results of a request, each with the session in which the scheduler found
no ready row, if there was one. -/
inductive Returns (c : Call) : ℕ → Option Session → Prop
  | unavailable : c.available = false → Returns c sysDenied none
  | notLaunched : c.available = true → c.build = none → Returns c (exitCode c.launched) none
  | ran {s : Session} : c.available = true → c.build ≠ none → Reaches c s →
      (∀ i, (s.table i).state ≠ .ready) → Returns c (exitCode s.table) (some s)

/-- The daemon has no request left from an earlier client in the client's slot: it works on
none, is about to answer none, and none is queued. It may be busy for others, or gone. -/
structure Fresh (c : Call) : Prop where
  queued : ∀ m ∈ (c.table virtioServiceTask).mailbox, m.sender ≠ clientTask
  working : ∀ m, c.daemon = .working m → m.sender ≠ clientTask
  finished : ∀ i word, c.daemon = .finished i word → i ≠ clientTask

end Call

/-- The client ran to its exit with the status of success, and the daemon has come
to that status for its request. -/
def Answered : Option Session → Prop
  | some s => s.client = .exited Status.ok.code ∧ s.served = some .ok
  | none => False

def Ended : Option Session → Prop
  | some s => (s.table clientTask).state = .done
  | none => False

theorem status_code_lt (st : Status) : st.code < 2 ^ 8 := by cases st <;> decide

theorem responseStatus_typedWord {op id status : ℕ} (ho : op < 2 ^ 8) (hi : id < 2 ^ 16)
    (hs : status < 2 ^ 8) : responseStatus (typedWord op id status 0) = status := by
  have hw := wellFormed_typedWord (r := ⟨typedWord op id status 0, 0, 0, fun _ => 0⟩) ho hi hs
    (by decide) rfl
  rw [Request.wellFormed, Bool.and_eq_true, beq_iff_eq, beq_iff_eq] at hw
  rw [responseStatus, if_pos hw]
  exact statusByte_typedWord (r := ⟨typedWord op id status 0, 0, 0, fun _ => 0⟩) ho hi hs
    (by decide) rfl

theorem responseStatus_daemonReply (word : ℕ) (st : Status) :
    responseStatus (daemonReply word st).1 = (daemonReply word st).2.code := by
  unfold daemonReply
  split
  · have ho : requestOp word < 2 ^ 8 := lt_of_le_of_lt Nat.and_le_right (by decide)
    have hi : requestId word < 2 ^ 16 := lt_of_le_of_lt Nat.and_le_right (by decide)
    exact responseStatus_typedWord ho hi (status_code_lt st)
  · exact responseStatus_typedWord (by decide) (by decide) (by decide)

section
variable {s : Session} {msg : IpcMessage Unit}

/-- The requests from the client's slot that wait, are worked on or have been answered. -/
def Session.outstanding (s : Session) : ℕ :=
  (s.table virtioServiceTask).mailbox.countP (·.sender = clientTask) +
    (match s.daemon with
      | .working m => if m.sender = clientTask then 1 else 0
      | _ => 0) +
    if s.served.isSome then 1 else 0

/-- From a fresh daemon on, the client's request is the only one of its slot, so whatever
reaches the client is the answer to it. -/
structure Inv (s : Session) : Prop where
  replies : ∀ m ∈ (s.table clientTask).mailbox,
    ∃ st, s.served = some st ∧ responseStatus m.word = st.code
  finished : ∀ word, s.daemon = .finished clientTask word →
    ∃ st, s.served = some st ∧ responseStatus word = st.code
  outstanding : s.outstanding ≤ if s.client = .starting then 0 else 1
  answered : ∀ code, s.client = .answered code → code ≠ 0 ∨ s.served = some .ok
  running : (s.table clientTask).state ≠ .done →
    (s.table clientTask).exit = 0 ∧ ∀ code, s.client ≠ .exited code
  ended : (s.table clientTask).state = .done →
    (s.table clientTask).exit ≠ 0 ∨ s.client = .exited 0 ∧ s.served = some .ok

theorem client_ne_service : clientTask ≠ virtioServiceTask := by decide

section
variable {t : Table Unit} {cl : ClientPhase} {d : DaemonPhase} {sv : Option Status} {rc : Row Unit}

theorem Inv.ofRows (hc : t clientTask = rc)
    (replies : ∀ m ∈ rc.mailbox, ∃ st, sv = some st ∧ responseStatus m.word = st.code)
    (finished : ∀ word, d = .finished clientTask word →
      ∃ st, sv = some st ∧ responseStatus word = st.code)
    (outstanding : (⟨t, cl, d, sv⟩ : Session).outstanding ≤ if cl = .starting then 0 else 1)
    (answered : ∀ code, cl = .answered code → code ≠ 0 ∨ sv = some .ok)
    (running : rc.state ≠ .done → rc.exit = 0 ∧ ∀ code, cl ≠ .exited code)
    (ended : rc.state = .done → rc.exit ≠ 0 ∨ cl = .exited 0 ∧ sv = some .ok) :
    Inv ⟨t, cl, d, sv⟩ := by
  subst hc
  exact ⟨replies, finished, outstanding, answered, running, ended⟩

theorem outstanding_le {n : ℕ} (h : s.outstanding ≤ n)
    (hmail : (t virtioServiceTask).mailbox.countP (·.sender = clientTask) =
      (s.table virtioServiceTask).mailbox.countP (·.sender = clientTask))
    (hd : d = s.daemon ∨ d = .gone ∨ d = .listening) :
    (⟨t, cl, d, s.served⟩ : Session).outstanding ≤ n := by
  simp only [Session.outstanding, hmail] at h ⊢
  rcases hd with rfl | rfl | rfl
  · exact h
  · dsimp only
    omega
  · dsimp only
    omega

end

section
variable (h : Inv s)
include h

theorem Inv.setRows {t : Table Unit} {d : DaemonPhase} (hd : d = s.daemon ∨ d = .gone ∨ d = .listening)
    (hserv : (t virtioServiceTask).mailbox.countP (·.sender = clientTask) =
      (s.table virtioServiceTask).mailbox.countP (·.sender = clientTask))
    (hmail : (t clientTask).mailbox = (s.table clientTask).mailbox)
    (hdone : (t clientTask).state = .done ↔ (s.table clientTask).state = .done)
    (hexit : (t clientTask).exit = (s.table clientTask).exit) :
    Inv { s with table := t, daemon := d } := by
  apply Inv.ofRows rfl
  · rw [hmail]
    exact h.replies
  · intro word hw
    rcases hd with rfl | rfl | rfl
    · exact h.finished word hw
    · cases hw
    · cases hw
  · exact outstanding_le h.outstanding hserv hd
  · exact h.answered
  · rw [hexit, Ne, hdone]
    exact h.running
  · rw [hexit, hdone]
    exact h.ended

theorem Inv.setOther {i : Slot} {row : Row Unit} {d : DaemonPhase} (hi : i ≠ clientTask)
    (hd : d = s.daemon ∨ d = .gone ∨ d = .listening)
    (hmail : row.mailbox.countP (·.sender = clientTask) =
      (s.table i).mailbox.countP (·.sender = clientTask)) :
    Inv { s with table := update s.table i row, daemon := d } := by
  have hother : update s.table i row clientTask = s.table clientTask :=
    update_of_ne hi.symm row s.table
  apply h.setRows hd
  · by_cases hserv : virtioServiceTask = i
    · rw [← hserv, update_self, hmail, hserv]
    · rw [update_of_ne hserv]
  all_goals rw [hother]

theorem Inv.setClient {row : Row Unit} (hmail : row.mailbox = (s.table clientTask).mailbox)
    (hdone : row.state = .done ↔ (s.table clientTask).state = .done)
    (hexit : row.exit = (s.table clientTask).exit) :
    Inv { s with table := update s.table clientTask row } := by
  apply h.setRows (.inl rfl)
  · rw [update_of_ne client_ne_service.symm]
  · rw [update_self, hmail]
  · rw [update_self, hdone]
  · rw [update_self, hexit]

theorem Inv.ofClient {cl : ClientPhase} (row : Row Unit) (hcl : cl ≠ .starting)
    (hstart : s.client ≠ .starting) (hmail : ∀ m ∈ row.mailbox, m ∈ (s.table clientTask).mailbox)
    (answered : ∀ code, cl = .answered code → code ≠ 0 ∨ s.served = some .ok)
    (running : row.state ≠ .done → row.exit = 0 ∧ ∀ code, cl ≠ .exited code)
    (ended : row.state = .done → row.exit ≠ 0 ∨ cl = .exited 0 ∧ s.served = some .ok) :
    Inv { s with table := update s.table clientTask row, client := cl } := by
  have hother := update_of_ne client_ne_service.symm row s.table
  have hone := h.outstanding
  rw [if_neg hstart] at hone
  apply Inv.ofRows (update_self ..)
  · exact fun m hm => h.replies m (hmail m hm)
  · exact h.finished
  · rw [if_neg hcl]
    exact outstanding_le hone (by rw [hother]) (.inl rfl)
  · exact answered
  · exact running
  · exact ended

theorem Inv.ask (hrun : (s.table clientTask).state ≠ .done) (hc : s.client = .starting)
    (hmsg : msg.sender = clientTask) :
    Inv { s with
      table := update s.table virtioServiceTask ((s.table virtioServiceTask).push msg)
      client := .asked } := by
  have hzero := h.outstanding
  rw [if_pos hc] at hzero
  apply Inv.ofRows (update_of_ne client_ne_service _ _)
  · exact h.replies
  · exact h.finished
  · simp only [Session.outstanding, update_self] at hzero ⊢
    simp only [Row.push, List.countP_append, List.countP_singleton, hmsg, decide_true, if_true,
      reduceCtorEq, if_false]
    omega
  · exact nofun
  · exact fun _ => ⟨(h.running hrun).1, nofun⟩
  · exact fun hdone => absurd hdone hrun

theorem Inv.clientStep (hready : (s.table clientTask).state = .ready) (word : ℕ) :
    Inv (s.clientStep word) := by
  have hnotdone : (s.table clientTask).state ≠ .done := by rw [hready]; decide
  have hrun := h.running hnotdone
  unfold Session.clientStep
  cases hc : s.client with
  | starting =>
    rcases syscall_send_cases s.table 0 clientTask (s.table clientTask).caps word ()
      virtioServiceTask.val 0 with ⟨d, hd, -, -, heq⟩ | heq
    · have hd : d = virtioServiceTask := Fin.ext hd.symm
      subst hd
      simp only [Session.call, heq]
      exact h.ask hnotdone hc rfl
    · simp only [Session.call, heq]
      have hone := h.outstanding
      rw [if_pos hc] at hone
      apply Inv.ofRows rfl h.replies h.finished
      · exact outstanding_le (hone.trans (Nat.zero_le 1)) rfl (.inl rfl)
      · intro code hcode
        cases hcode
        exact .inl (by decide)
      · exact fun _ => ⟨hrun.1, nofun⟩
      · exact fun hdone => absurd hdone hnotdone
  | asked =>
    have hstart : s.client ≠ .starting := by rw [hc]; exact nofun
    rcases syscall_recv_cases s.table 0 clientTask (s.table clientTask).caps 0 () with
      ⟨msg, rest, hm, heq⟩ | heq | heq
    · simp only [Session.call, heq]
      obtain ⟨st, hserved, hword⟩ := h.replies msg (hm ▸ List.mem_cons_self)
      apply h.ofClient _ ?_ hstart
      · exact fun m hmem => hm ▸ List.mem_cons_of_mem _ hmem
      · intro code hcode
        cases hcode
        rw [hword]
        by_cases hok : st = .ok
        · exact .inr (hok ▸ hserved)
        · left
          cases st
          · exact absurd rfl hok
          all_goals decide
      · exact fun _ => ⟨hrun.1, nofun⟩
      · exact fun hdone => absurd hdone hnotdone
      · exact nofun
    · simp only [Session.call, heq]
      rw [← hc]
      exact h.setClient rfl (iff_of_false nofun hnotdone) rfl
    · simp only [Session.call, heq]
      rw [← hc]
      exact h
  | answered code =>
    have hstart : s.client ≠ .starting := by rw [hc]; exact nofun
    simp only [Session.call, syscall]
    apply h.ofClient _ ?_ hstart
    · exact fun m hm => hm
    · intro _ hanswer
      cases hanswer
    · exact fun hne => absurd rfl hne
    · intro _
      by_cases hzero : code = 0
      · subst hzero
        exact .inr ⟨rfl, (h.answered 0 hc).resolve_left fun h => h rfl⟩
      · exact .inl hzero
    · intro hsame
      cases hsame
  | exited code => exact h

theorem Inv.accept (hd : s.daemon = .listening)
    {rest : List (IpcMessage Unit)} (hm : (s.table virtioServiceTask).mailbox = msg :: rest) :
    Inv { s with
      table := update s.table virtioServiceTask ((s.table virtioServiceTask).take msg rest)
      daemon := .working msg } := by
  apply Inv.ofRows (update_of_ne client_ne_service _ _)
  · exact h.replies
  · exact nofun
  · refine le_trans ?_ h.outstanding
    simp only [Session.outstanding, update_self, hd, hm, Row.take, List.countP_cons,
      decide_eq_true_eq]
    omega
  · exact h.answered
  · exact h.running
  · exact h.ended

theorem Inv.workOther {request : IpcMessage Unit} (hd : s.daemon = .working request)
    (hother : request.sender ≠ clientTask) (word : ℕ) :
    Inv { s with daemon := .finished request.sender word } := by
  have hone := h.outstanding
  refine ⟨h.replies, fun word hfin => ?_, ?_, h.answered, h.running, h.ended⟩
  · exact absurd (DaemonPhase.finished.inj hfin).1 hother
  · simp only [Session.outstanding, hd, if_neg hother] at hone ⊢
    exact hone

theorem Inv.workOwn {request : IpcMessage Unit} (hd : s.daemon = .working request)
    (hown : request.sender = clientTask) (status : Status) :
    Inv { s with
      daemon := .finished request.sender (daemonReply request.word status).1
      served := some (daemonReply request.word status).2 } := by
  have hone := h.outstanding
  simp only [Session.outstanding, hd, if_pos hown] at hone
  -- the count of outstanding requests leaves no room for an earlier answer
  have hserved : s.served = none := by
    cases hs : s.served with
    | none => rfl
    | some st =>
      rw [hs] at hone
      simp only [Option.isSome_some, if_true] at hone
      split at hone
      all_goals omega
  have hunserved : ∀ st, s.served ≠ some st := by
    rw [hserved]
    exact nofun
  constructor
  · intro m hm
    obtain ⟨st, hst, -⟩ := h.replies m hm
    exact absurd hst (hunserved st)
  · intro word hfin
    rw [← (DaemonPhase.finished.inj hfin).2]
    exact ⟨_, rfl, responseStatus_daemonReply _ _⟩
  · simp only [Session.outstanding, hserved] at hone ⊢
    simpa using hone
  · exact fun code hcode => .inl ((h.answered code hcode).resolve_right (hunserved _))
  · exact h.running
  · exact fun hdone => .inl ((h.ended hdone).resolve_right fun hok => hunserved _ hok.2)

theorem Inv.reply {st : Status} (hserved : s.served = some st)
    (hlive : (s.table clientTask).state ≠ .done) (hword : responseStatus msg.word = st.code) :
    Inv { s with
      table := update s.table clientTask ((s.table clientTask).push msg)
      daemon := .listening } := by
  have hother := update_of_ne client_ne_service.symm ((s.table clientTask).push msg) s.table
  apply Inv.ofRows (update_self ..)
  · intro m hm
    rcases List.mem_append.mp hm with hm | hm
    · exact h.replies m hm
    · rw [List.mem_singleton.mp hm]
      exact ⟨st, hserved, hword⟩
  · exact nofun
  · exact outstanding_le h.outstanding (by rw [hother]) (.inr (.inr rfl))
  · exact h.answered
  · exact fun _ => h.running hlive
  · intro hdone
    rw [Row.push] at hdone
    split at hdone
    · cases hdone
    · exact absurd hdone hlive

theorem Inv.daemonStep (status : Status) : Inv (s.daemonStep status) := by
  unfold Session.daemonStep
  cases hd : s.daemon with
  | listening =>
    rcases syscall_recv_cases s.table 0 virtioServiceTask (s.table virtioServiceTask).caps 0 ()
      with ⟨msg, rest, hm, heq⟩ | heq | heq
    · simp only [Session.call, heq]
      exact h.accept hd hm
    · simp only [Session.call, heq]
      exact h.setOther client_ne_service.symm (.inl hd.symm) rfl
    · simp only [Session.call, heq]
      rw [← hd]
      exact h
  | working request =>
    dsimp only
    split
    · next hown => exact h.workOwn hd hown status
    · next hother => exact h.workOther hd hother _
  | finished sender word =>
    rcases syscall_send_cases s.table 0 virtioServiceTask (s.table virtioServiceTask).caps word ()
      sender.val 0 with ⟨d, hdest, -, hlive, heq⟩ | heq
    · obtain rfl : d = sender := Fin.ext hdest.symm
      simp only [Session.call, heq]
      by_cases hown : d = clientTask
      · subst hown
        obtain ⟨st, hserved, hword⟩ := h.finished word hd
        exact h.reply hserved hlive hword
      · refine h.setOther hown (.inr (.inr rfl)) ?_
        simp only [Row.push, List.countP_append, List.countP_singleton,
          decide_eq_false client_ne_service.symm, Bool.false_eq_true, if_false, Nat.add_zero]
    · simp only [Session.call, heq]
      exact h.setRows (.inr (.inr rfl)) rfl rfl Iff.rfl rfl
  | gone => exact h

theorem Inv.clientFault :
    Inv { s with table := update s.table clientTask (s.table clientTask).fault } := by
  have hother := update_of_ne client_ne_service.symm (s.table clientTask).fault s.table
  apply Inv.ofRows (update_self ..)
  · exact h.replies
  · exact h.finished
  · exact outstanding_le h.outstanding (by rw [hother]) (.inl rfl)
  · exact h.answered
  · exact fun hne => absurd rfl hne
  · intro _
    left
    change sysDenied ≠ 0
    decide

theorem Inv.step (word : ℕ) {a : Action} (he : s.Enabled a) : Inv (s.step word a) := by
  cases a with
  | client => exact h.clientStep he word
  | clientFault => exact h.clientFault
  | daemon status => exact h.daemonStep status
  | daemonWait => exact h.setOther client_ne_service.symm (.inl rfl) rfl
  | daemonExit code | daemonFault => exact h.setOther client_ne_service.symm (.inr (.inl rfl)) rfl
  | wakeIrq =>
    apply h.setRows (.inl rfl)
    · exact congrArg _ (Row.wakeIrq_mailbox _)
    · exact Row.wakeIrq_mailbox _
    · exact Row.wakeIrq_state _ nofun nofun
    · exact Row.wakeIrq_exit _

end

end

section
variable {c : Call} {s : Session}

theorem exitCode_eq (t : Table Unit) : Call.exitCode t = (t clientTask).exit := by
  unfold Call.exitCode
  split
  · unfold Row.reclaim
    split
    · rfl
    · rfl
  · rfl

theorem launched_client (c : Call) :
    (c.launched clientTask).mailbox = [] ∧ (c.launched clientTask).exit = 0 ∧
      (c.launched clientTask).state = if c.build.isSome then .ready else .unused := by
  have hfg : firstForegroundTask ≤ clientTask.val := by decide
  unfold Call.launched
  rw [update_self]
  cases c.build with
  | some frames => exact ⟨rfl, rfl, rfl⟩
  | none =>
    refine ⟨rfl, ?_, rfl⟩
    simp only [Row.spawn, Row.clearMailbox, if_pos hfg]
    unfold Row.reclaim
    split
    · rfl
    · rfl

theorem launched_service (c : Call) : c.launched virtioServiceTask = c.table virtioServiceTask := by
  unfold Call.launched
  rw [update_of_ne client_ne_service.symm]
  exact if_neg (by decide)

theorem inv_start (hfresh : c.Fresh) (hb : c.build ≠ none) : Inv c.start := by
  obtain ⟨hmail, hexit, hstate⟩ := launched_client c
  rw [if_pos (Option.isSome_iff_ne_none.mpr hb)] at hstate
  constructor
  · intro m hm
    change m ∈ (c.launched clientTask).mailbox at hm
    rw [hmail] at hm
    cases hm
  · exact fun word hw => absurd rfl (hfresh.finished _ word hw)
  · have hcount : (c.launched virtioServiceTask).mailbox.countP (·.sender = clientTask) = 0 := by
      rw [launched_service, List.countP_eq_zero]
      exact fun m hm => by simpa using hfresh.queued m hm
    have hwork : ∀ m, c.start.daemon = .working m → m.sender ≠ clientTask := hfresh.working
    simp only [Session.outstanding]
    rw [show c.start.table = c.launched from rfl, hcount]
    split
    · next m hm => rw [if_neg (hwork m hm)]; exact le_rfl
    · exact le_rfl
  · exact nofun
  · exact fun _ => ⟨hexit, nofun⟩
  · intro hdone
    exact absurd (hstate.symm.trans hdone) nofun

theorem inv_of_reaches (hfresh : c.Fresh) (hb : c.build ≠ none) (h : c.Reaches s) : Inv s := by
  induction h with
  | start => exact inv_start hfresh hb
  | step a _ he ih => exact ih.step c.word he

/-- The helper reports success only for a request that was answered with success, exactly if
the service is not available or the client was launched and has ended when the scheduler
returns. For a service that is available, no request of an earlier client in the same slot may
be left with the daemon. -/
theorem storage_status_iff {r : ℕ} {o : Option Session} (hfresh : c.available = true → c.Fresh)
    (h : c.Returns r o) : (r = Status.ok.code → Answered o) ↔ (c.available = true → Ended o) := by
  cases h with
  | unavailable ha =>
    refine iff_of_true (fun hr => absurd hr (by decide)) fun ht => ?_
    rw [ha] at ht
    cases ht
  | notLaunched ha hb =>
    refine iff_of_false (fun hr => ?_) fun he => he ha
    apply hr
    rw [exitCode_eq, (launched_client c).2.1]
    rfl
  | @ran s ha hb hrun _ =>
    have hinv := inv_of_reaches (hfresh ha) hb hrun
    rw [exitCode_eq]
    constructor
    · intro hr _
      by_contra hnot
      obtain ⟨hexit, hphase⟩ := hinv.running hnot
      exact hphase _ (hr hexit).1
    · intro he hexit
      exact (hinv.ended (he ha)).resolve_left fun hne => hne hexit

theorem returns_after {run : List Action} (ha : c.available = true) (hb : c.build ≠ none)
    (hrun : Call.Permits c.word c.start run) (hset : ∀ i, ((c.after run).table i).state ≠ .ready)
    (hcode : Call.exitCode (c.after run).table = Status.ok.code) :
    c.Returns Status.ok.code (some (c.after run)) :=
  hcode ▸ .ran ha hb (Call.reaches_after hrun) hset

def idleTable : Table Unit := fun i =>
  if i = virtioServiceTask then { Row.empty with state := .blocked, caps := taskIpc, frames := 1 }
  else .empty

def probe : Call where
  table := idleTable
  daemon := .listening
  available := true
  build := some 1
  extraCaps := 0
  word := typedWord 1 1 0 0

/-- The daemon is at work for another task when the request is made. -/
def busy : Call := { probe with daemon := .working ⟨2, 0, taskIpc, typedWord 1 1 0 0, ()⟩ }

def busyRun : List Action :=
  [.client, .client, .daemon .ioFailure, .daemon .ok, .daemon .ok, .daemon .ok, .daemon .ok,
    .daemon .ok, .client, .client]

theorem storage_status_iff_busy :
    busy.Fresh ∧ busy.Returns Status.ok.code (some (busy.after busyRun)) ∧
      (Status.ok.code = Status.ok.code → Answered (some (busy.after busyRun))) := by
  have hfresh : busy.Fresh := by
    refine ⟨fun m hm => (by cases hm), fun m hm => ?_, fun i word hw => (by cases hw)⟩
    cases hm
    decide
  have hreturns : busy.Returns Status.ok.code (some (busy.after busyRun)) :=
    returns_after rfl (by decide) (by decide +kernel) (by decide +kernel) (by decide +kernel)
  refine ⟨hfresh, hreturns, (storage_status_iff (fun _ => hfresh) hreturns).mpr fun _ => ?_⟩
  change ((busy.after busyRun).table clientTask).state = .done
  decide +kernel

def faultedRun : List Action := [.client, .client, .daemon .ok, .daemonFault]

/-- The daemon still waits for the device on behalf of a client that was given
up. -/
def lateReply : Call :=
  { probe with
    table := update idleTable virtioServiceTask
      { idleTable virtioServiceTask with irqWaiting := true }
    daemon := .working ⟨clientTask, 0, taskIpc, typedWord 1 1 0 0, ()⟩ }

/-- The next request wakes the daemon, which waits again. Then the device reports
back and the reply to the earlier request reaches the new client, whose own
request fails. -/
def lateRun : List Action :=
  [.client, .client, .daemonWait, .wakeIrq, .daemon .ok, .daemon .ok, .client, .client, .daemon .ok,
    .daemon .ioFailure, .daemon .ok, .daemon .ok]

/-- Success is reported without frames for the client, after a fault of the
daemon, and for the answer to an earlier request. -/
theorem success_without_answer :
    Call.Returns { probe with build := none } Status.ok.code none ∧ ¬ Answered none ∧
      probe.Returns Status.ok.code (some (probe.after faultedRun)) ∧
      ¬ Answered (some (probe.after faultedRun)) ∧
      lateReply.Returns Status.ok.code (some (lateReply.after lateRun)) ∧
      (lateReply.after lateRun).served = some .ioFailure ∧
      ¬ Answered (some (lateReply.after lateRun)) := by
  have hserved : (lateReply.after lateRun).served = some .ioFailure := by decide +kernel
  have hclient : (probe.after faultedRun).client = .asked := by decide +kernel
  refine ⟨.notLaunched rfl rfl, nofun, ?_, ?_, ?_, hserved, ?_⟩
  · exact returns_after rfl (by decide) (by decide +kernel) (by decide +kernel) (by decide +kernel)
  · rintro ⟨hexit, -⟩
    rw [hclient] at hexit
    cases hexit
  · exact returns_after rfl (by decide) (by decide +kernel) (by decide +kernel) (by decide +kernel)
  · rintro ⟨-, hok⟩
    rw [hserved] at hok
    cases hok

end

end Dezh.StorageStatus

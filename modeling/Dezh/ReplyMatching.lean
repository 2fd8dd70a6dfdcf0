import Dezh.StorageStatus

/-!
# Which reply a storage client takes

`client_send` sends a request and returns the status in the next message that arrives. It
looks at the word of that message only: not at the sender, which the kernel attests, and
not at the request number, which the daemon copies into its reply. So a message of any task
that reaches the client before the reply is taken for it. If the client starts with nothing
outstanding and no other task sends to its row, there is never more than one message of
the exchange under way, and every status it returns is the one that the daemon sent for
that request.
-/
namespace Dezh.ReplyMatching
open Function BlockDaemon CairnService TaskTable PackageTasks StorageStatus

variable {n : ℕ}

/-- A request of the client, the daemon's reply to one, or another message. -/
inductive Mark where
  | request (n : ℕ)
  | reply (n : ℕ)
  | other
  deriving DecidableEq, Repr

variable {m : IpcMessage Mark}

def Mark.answer : Mark → Mark
  | .request n => .reply n
  | _ => .other

/-- The rows, the request that the client waits on, the request that the daemon has at
hand, the statuses the daemon has sent to the client and those the client has returned,
each with the number of its request. -/
structure Exchange where
  table : Table Mark
  count : ℕ
  asked : Option ℕ
  working : Option (IpcMessage Mark)
  answered : List (ℕ × ℕ)
  returned : List (ℕ × ℕ)

/-- What can happen between two decisions of the scheduler: the calls of the client and of
the daemon, arbitrary calls of other tasks, calls of any task that move no message, and
what wakes a row. -/
inductive Action where
  | ask (word : ℕ)
  | collect
  | take
  | answer (status : Status)
  | abandon
  | other (i : Slot) (ticks : ℕ) (call : Syscall) (word : ℕ)
  | wakeIrq
  | expire (ticks : ℕ)

def MovesNothing : Syscall → Prop
  | .yield | .exit _ | .irqWait _ | .other => True
  | _ => False

instance (c : Syscall) : Decidable (MovesNothing c) := by
  cases c
  all_goals
    unfold MovesNothing
    infer_instance

section
variable (client daemon : Slot)

namespace Exchange

def call (s : Exchange) (i : Slot) (ticks : ℕ) (c : Syscall) (word : ℕ) (mark : Mark) :
    Reply Mark × Table Mark :=
  syscall s.table ticks i (s.table i).caps c word mark

def ask (s : Exchange) (word : ℕ) : Exchange :=
  let r := s.call client 0 (.send daemon.val 0) word (.request s.count)
  match r.1 with
  | .sent => { s with table := r.2, count := s.count + 1, asked := some s.count }
  | _ => { s with table := r.2 }

def collect (s : Exchange) (n : ℕ) : Exchange :=
  let r := s.call client 0 .recv 0 .other
  match r.1 with
  | .message msg =>
    { s with table := r.2, asked := none, returned := (n, responseStatus msg.word) :: s.returned }
  | _ => { s with table := r.2 }

def take (s : Exchange) : Exchange :=
  let r := s.call daemon 0 .recv 0 .other
  match r.1 with
  | .message msg => { s with table := r.2, working := some msg }
  | _ => { s with table := r.2 }

def answer (s : Exchange) (msg : IpcMessage Mark) (status : Status) : Exchange :=
  let reply := daemonReply msg.word status
  let r := s.call daemon 0 (.send msg.sender.val 0) reply.1 msg.tag.answer
  { s with
    table := r.2, working := none
    answered := match msg.tag with
      | .request n => (n, reply.2.code) :: s.answered
      | _ => s.answered }

def next (s : Exchange) : Action → Exchange
  | .ask word => s.ask client daemon word
  | .collect =>
    match s.asked with
    | some n => s.collect client n
    | none => s
  | .take => s.take daemon
  | .answer status =>
    match s.working with
    | some msg => s.answer daemon msg status
    | none => s
  | .abandon => { s with working := none }
  | .other i ticks c word => { s with table := (s.call i ticks c word .other).2 }
  | .wakeIrq => { s with table := fun i => (s.table i).wakeIrq }
  | .expire ticks => { s with table := fun i => (s.table i).expire ticks }

def Enabled (s : Exchange) : Action → Prop
  | .ask _ => (s.table client).state = .ready ∧ s.asked = none
  | .collect => (s.table client).state = .ready ∧ s.asked.isSome
  | .take => (s.table daemon).state = .ready ∧ s.working.isSome = false
  | .answer _ => (s.table daemon).state = .ready ∧ s.working.isSome
  | .abandon => True
  | .other i _ c _ => (s.table i).state = .ready ∧ (i ≠ client ∧ i ≠ daemon ∨ MovesNothing c)
  | .wakeIrq | .expire _ => True

instance (s : Exchange) (a : Action) : Decidable (s.Enabled client daemon a) := by
  cases a
  all_goals
    unfold Enabled
    infer_instance

def Proceeds (Q : Action → Prop) (s : Exchange) : List Action → Prop
  | [] => True
  | a :: run => s.Enabled client daemon a ∧ Q a ∧ Proceeds Q (s.next client daemon a) run

instance (Q : Action → Prop) [DecidablePred Q] (s : Exchange) (run : List Action) :
    Decidable (Proceeds client daemon Q s run) := by
  induction run generalizing s with
  | nil => exact isTrue trivial
  | cons a run ih => exact @instDecidableAnd _ _ _ (@instDecidableAnd _ _ _ (ih _))

def after (s : Exchange) (run : List Action) : Exchange := run.foldl (next client daemon) s

/-- Every status returned is the one that the daemon sent for that request. -/
def Matched (s : Exchange) : Prop := ∀ p ∈ s.returned, p ∈ s.answered

instance (s : Exchange) : Decidable s.Matched :=
  inferInstanceAs (Decidable (∀ p ∈ s.returned, p ∈ s.answered))

/-- A client that has just started, with nothing outstanding. -/
structure Fresh (s : Exchange) : Prop where
  asked : s.asked = none
  returned : s.returned = []
  mail : (s.table client).mailbox = []
  requests : ∀ m ∈ (s.table daemon).mailbox, m.sender ≠ client ∧ m.tag = .other
  working : ∀ m, s.working = some m → m.sender ≠ client ∧ m.tag = .other

end Exchange

def Undisturbed : Action → Prop
  | .other _ _ (.send dest _) _ => dest ≠ client.val
  | _ => True

instance (a : Action) : Decidable (Undisturbed client a) := by
  unfold Undisturbed
  split
  all_goals infer_instance

end

section
variable {client daemon : Slot} {s : Exchange}

def fromClient (client : Slot) (mail : List (IpcMessage Mark)) : List (IpcMessage Mark) :=
  mail.filter fun m => m.sender = client

/-- A request of the client is the open one; other requests are marked as such. -/
def Tracked (client : Slot) (asked : Option ℕ) (m : IpcMessage Mark) : Prop :=
  if m.sender = client then ∃ n, asked = some n ∧ m.tag = .request n else m.tag = .other

/-- At most one message of the exchange is under way, while the client waits. -/
structure Inv (client daemon : Slot) (s : Exchange) : Prop where
  mail : ∀ m ∈ (s.table client).mailbox,
    ∃ n, s.asked = some n ∧ (n, responseStatus m.word) ∈ s.answered
  requests : ∀ m ∈ (s.table daemon).mailbox, Tracked client s.asked m
  working : ∀ m, s.working = some m → Tracked client s.asked m
  one : (fromClient client (s.table daemon).mailbox).length +
      (fromClient client s.working.toList).length + (s.table client).mailbox.length ≤
    if s.asked.isSome then 1 else 0
  matched : s.Matched

theorem Inv.one_of_asked (h : Inv client daemon s) (hasked : s.asked = some n) :
    (fromClient client (s.table daemon).mailbox).length +
      (fromClient client s.working.toList).length + (s.table client).mailbox.length ≤ 1 := by
  have hone := h.one
  rwa [hasked, Option.isSome_some, if_pos rfl] at hone

theorem Inv.setTable (h : Inv client daemon s) {t : Table Mark}
    (hc : (t client).mailbox = (s.table client).mailbox)
    (hd : (t daemon).mailbox = (s.table daemon).mailbox) :
    Inv client daemon { s with table := t } := by
  refine ⟨?_, ?_, h.working, ?_, h.matched⟩
  · dsimp only
    rw [hc]
    exact h.mail
  · dsimp only
    rw [hd]
    exact h.requests
  · dsimp only
    rw [hc, hd]
    exact h.one

theorem fromClient_append (client : Slot) (xs ys : List (IpcMessage Mark)) :
    (fromClient client (xs ++ ys)).length =
      (fromClient client xs).length + (fromClient client ys).length := by
  rw [fromClient, List.filter_append, List.length_append]
  rfl

theorem fromClient_cons (client : Slot) (m : IpcMessage Mark) (xs : List (IpcMessage Mark)) :
    (fromClient client (m :: xs)).length =
      (fromClient client [m]).length + (fromClient client xs).length :=
  fromClient_append client [m] xs

theorem fromClient_self (h : m.sender = client) : (fromClient client [m]).length = 1 := by
  simp [fromClient, h]

theorem fromClient_other (h : m.sender ≠ client) : (fromClient client [m]).length = 0 := by
  simp [fromClient, h]

theorem Tracked.free {asked asked' : Option ℕ}
    {l : List (IpcMessage Mark)} (h : Tracked client asked m) (hm : m ∈ l)
    (hzero : (fromClient client l).length = 0) : Tracked client asked' m := by
  have hne : m.sender ≠ client := by
    intro heq
    have hmem : m ∈ fromClient client l := List.mem_filter.mpr ⟨hm, decide_eq_true heq⟩
    rw [List.length_eq_zero_iff.mp hzero] at hmem
    cases hmem
  rw [Tracked, if_neg hne] at h ⊢
  exact h

theorem Inv.ask (hne : client ≠ daemon) (h : Inv client daemon s) (hasked : s.asked = none)
    (word : ℕ) : Inv client daemon (s.ask client daemon word) := by
  have hone := h.one
  rw [hasked, if_neg (by exact Bool.false_ne_true)] at hone
  rcases syscall_send_cases s.table 0 client (s.table client).caps word (.request s.count)
    daemon.val 0 with ⟨d, hd, -, -, heq⟩ | heq
  · obtain rfl : d = daemon := Fin.ext hd.symm
    unfold Exchange.ask Exchange.call
    rw [heq]
    dsimp only
    have hclient := update_of_ne hne ((s.table d).push
      ⟨client, 0 &&& (s.table client).caps, (s.table client).caps, word, .request s.count⟩) s.table
    refine ⟨?_, ?_, ?_, ?_, h.matched⟩
    · dsimp only
      rw [hclient, List.length_eq_zero_iff.mp (by omega : (s.table client).mailbox.length = 0)]
      exact fun m hm => by cases hm
    · dsimp only
      rw [update_self]
      intro m hm
      rcases List.mem_append.mp hm with hm | hm
      · exact (h.requests m hm).free hm (by omega)
      · rw [List.mem_singleton.mp hm, Tracked, if_pos rfl]
        exact ⟨s.count, rfl, rfl⟩
    · intro m hm
      refine (h.working m hm).free (l := s.working.toList) ?_ (by omega)
      rw [Option.mem_toList]
      exact hm
    · dsimp only
      rw [hclient, update_self]
      simp only [Row.push, fromClient_append, fromClient_self, Option.isSome_some, if_true]
      omega
  · unfold Exchange.ask Exchange.call
    rw [heq]
    exact h

theorem Inv.collect (hne : client ≠ daemon) (h : Inv client daemon s)
    (hasked : s.asked = some n) : Inv client daemon (s.collect client n) := by
  have hone := h.one_of_asked hasked
  have hdaemon : ∀ row : Row Mark, update s.table client row daemon = s.table daemon :=
    fun row => update_of_ne hne.symm row s.table
  rcases syscall_recv_cases s.table 0 client (s.table client).caps 0 Mark.other with
    ⟨msg, rest, hmail, heq⟩ | heq | heq
  · unfold Exchange.collect Exchange.call
    rw [heq]
    dsimp only
    rw [hmail, List.length_cons] at hone
    obtain ⟨n', hn', hanswered⟩ := h.mail msg (by rw [hmail]; exact List.mem_cons_self)
    rw [hasked] at hn'
    cases hn'
    refine ⟨?_, ?_, ?_, ?_, ?_⟩
    · dsimp only
      rw [update_self]
      intro m hm
      rw [Row.take, List.length_eq_zero_iff.mp (by omega : rest.length = 0)] at hm
      cases hm
    · dsimp only
      rw [hdaemon]
      exact fun m hm => (h.requests m hm).free hm (by omega)
    · intro m hm
      refine (h.working m hm).free (l := s.working.toList) ?_ (by omega)
      rw [Option.mem_toList]
      exact hm
    · dsimp only
      rw [hdaemon, update_self, Row.take]
      dsimp only
      omega
    · intro p hp
      rcases List.mem_cons.mp hp with rfl | hp
      · exact hanswered
      · exact h.matched p hp
  · unfold Exchange.collect Exchange.call
    rw [heq]
    dsimp only
    refine h.setTable ?_ ?_
    · rw [update_self]
    · rw [hdaemon]
  · unfold Exchange.collect Exchange.call
    rw [heq]
    exact h

theorem Inv.take (hne : client ≠ daemon) (h : Inv client daemon s) (hidle : s.working = none) :
    Inv client daemon (s.take daemon) := by
  have hclient : ∀ row : Row Mark, update s.table daemon row client = s.table client :=
    fun row => update_of_ne hne row s.table
  rcases syscall_recv_cases s.table 0 daemon (s.table daemon).caps 0 Mark.other with
    ⟨msg, rest, hmail, heq⟩ | heq | heq
  · unfold Exchange.take Exchange.call
    rw [heq]
    dsimp only
    have hone := h.one
    rw [hmail, hidle, fromClient_cons] at hone
    refine ⟨?_, ?_, ?_, ?_, h.matched⟩
    · dsimp only
      rw [hclient]
      exact h.mail
    · dsimp only
      rw [update_self]
      exact fun m hm => h.requests m (by rw [hmail]; exact List.mem_cons_of_mem _ hm)
    · rintro m hm
      cases hm
      exact h.requests msg (by rw [hmail]; exact List.mem_cons_self)
    · dsimp only
      rw [hclient, update_self, Row.take]
      dsimp only [Option.toList] at hone ⊢
      have hnil : (fromClient client []).length = 0 := rfl
      omega
  · unfold Exchange.take Exchange.call
    rw [heq]
    dsimp only
    refine h.setTable ?_ ?_
    · rw [hclient]
    · rw [update_self]
  · unfold Exchange.take Exchange.call
    rw [heq]
    exact h

theorem syscall_mailbox (t : Table Mark) (ticks : ℕ) {cur j : Slot} (caps : ℕ) (c : Syscall)
    (word : ℕ) (mark : Mark) (hj : j ≠ cur) :
    ((syscall t ticks cur caps c word mark).2 j).mailbox = (t j).mailbox ∨
    ∃ requested, c = .send j.val requested ∧
      ((syscall t ticks cur caps c word mark).2 j).mailbox =
        (t j).mailbox ++ [⟨cur, requested &&& caps, caps, word, mark⟩] := by
  have hother : ∀ row : Row Mark, (update t cur row j).mailbox = (t j).mailbox := by
    intro row
    rw [update_of_ne hj]
  cases c with
  | yield | exit => exact .inl (hother _)
  | other => exact .inl rfl
  | send dest requested =>
    rcases syscall_send_cases t ticks cur caps word mark dest requested with
      ⟨d, rfl, -, -, heq⟩ | heq
    · rw [heq]
      dsimp only
      by_cases hd : j = d
      · subst hd
        rw [update_self]
        exact .inr ⟨requested, rfl, rfl⟩
      · rw [update_of_ne hd]
        exact .inl rfl
    · rw [heq]
      exact .inl rfl
  | recv =>
    rcases syscall_recv_cases t ticks cur caps word mark with ⟨msg, rest, -, heq⟩ | heq | heq
    · rw [heq]
      exact .inl (hother _)
    · rw [heq]
      exact .inl (hother _)
    · rw [heq]
      exact .inl rfl
  | recvTimeout timeout =>
    refine .inl ?_
    unfold syscall
    dsimp only
    by_cases hipc : caps &&& taskIpc = 0
    · rw [if_pos hipc]
    · rw [if_neg hipc]
      cases (t cur).mailbox with
      | nil =>
        dsimp only
        split_ifs
        · rfl
        · exact hother _
      | cons msg rest => exact hother _
  | irqWait moved =>
    refine .inl ?_
    unfold syscall
    dsimp only
    split_ifs
    · rfl
    · exact hother _

theorem Inv.other (h : Inv client daemon s) {i : Slot} (hi : i ≠ client) (hi' : i ≠ daemon)
    (ticks : ℕ) {c : Syscall} (word : ℕ) (hquiet : ∀ requested, c ≠ .send client.val requested) :
    Inv client daemon { s with table := (s.call i ticks c word .other).2 } := by
  have hclient : ((s.call i ticks c word .other).2 client).mailbox = (s.table client).mailbox := by
    rcases syscall_mailbox s.table ticks (s.table i).caps c word .other hi.symm with
      hsame | ⟨requested, hsend, -⟩
    · exact hsame
    · exact absurd hsend (hquiet requested)
  rcases syscall_mailbox s.table ticks (s.table i).caps c word .other hi'.symm with
    hsame | ⟨requested, -, hmail⟩
  · exact h.setTable hclient hsame
  · refine ⟨?_, ?_, h.working, ?_, h.matched⟩
    · dsimp only
      rw [hclient]
      exact h.mail
    · dsimp only [Exchange.call]
      rw [hmail]
      intro m hm
      rcases List.mem_append.mp hm with hm | hm
      · exact h.requests m hm
      · rw [List.mem_singleton.mp hm, Tracked, if_neg hi]
    · dsimp only
      rw [hclient]
      dsimp only [Exchange.call]
      rw [hmail, fromClient_append, fromClient_other hi]
      exact h.one

theorem Inv.still (h : Inv client daemon s) {c : Syscall} (hc : MovesNothing c) (i : Slot)
    (ticks word : ℕ) : Inv client daemon { s with table := (s.call i ticks c word .other).2 } := by
  have hsame : ∀ j, ((s.call i ticks c word .other).2 j).mailbox = (s.table j).mailbox := by
    intro j
    have hrow : ∀ row : Row Mark, row.mailbox = (s.table i).mailbox →
        (update s.table i row j).mailbox = (s.table j).mailbox := by
      intro row hrow
      by_cases hj : j = i
      · rw [hj, update_self, hrow]
      · rw [update_of_ne hj]
    cases c with
    | yield | exit => exact hrow _ rfl
    | other => rfl
    | irqWait moved =>
      unfold Exchange.call syscall
      dsimp only
      split_ifs
      · rfl
      · exact hrow _ rfl
    | send | recv | recvTimeout => exact hc.elim
  exact h.setTable (hsame client) (hsame daemon)

theorem Inv.release (h : Inv client daemon s) (answered : List (ℕ × ℕ))
    (hanswered : ∀ p ∈ s.answered, p ∈ answered) :
    Inv client daemon { s with working := none, answered := answered } := by
  refine ⟨fun m hm => ?_, h.requests, fun m hm => (by cases hm), ?_, fun p hp => ?_⟩
  · obtain ⟨n, hn, hmem⟩ := h.mail m hm
    exact ⟨n, hn, hanswered _ hmem⟩
  · have hone := h.one
    dsimp only [Option.toList]
    have hnil : (fromClient client []).length = 0 := rfl
    omega
  · exact hanswered p (h.matched p hp)

theorem Inv.answer_other (hne : client ≠ daemon) (h : Inv client daemon s) {msg : IpcMessage Mark}
    (hmsg : msg.sender ≠ client) (htag : msg.tag = .other) (status : Status) :
    Inv client daemon (s.answer daemon msg status) := by
  have hrelease := h.release s.answered fun _ hp => hp
  unfold Exchange.answer
  rw [htag]
  dsimp only [Mark.answer, Exchange.call]
  rcases syscall_send_cases s.table 0 daemon (s.table daemon).caps (daemonReply msg.word status).1
    Mark.other msg.sender.val 0 with ⟨d, hd, -, -, heq⟩ | heq
  · obtain rfl : d = msg.sender := Fin.ext hd.symm
    rw [heq]
    dsimp only
    by_cases hself : msg.sender = daemon
    · -- the daemon's own row gets the message
      refine ⟨?_, ?_, hrelease.working, ?_, hrelease.matched⟩
      · dsimp only
        rw [update_of_ne hmsg.symm]
        exact hrelease.mail
      · dsimp only
        rw [hself, update_self]
        intro m hm
        rcases List.mem_append.mp hm with hm | hm
        · exact hrelease.requests m hm
        · rw [List.mem_singleton.mp hm, Tracked, if_neg hne.symm]
      · dsimp only
        rw [update_of_ne hmsg.symm, hself, update_self]
        simp only [Row.push]
        rw [fromClient_append, fromClient_other hne.symm]
        exact hrelease.one
    · refine hrelease.setTable ?_ ?_
      · rw [update_of_ne hmsg.symm]
      · rw [update_of_ne (Ne.symm hself)]
  · rw [heq]
    exact hrelease

theorem Inv.answer_client (hne : client ≠ daemon) (h : Inv client daemon s) {msg : IpcMessage Mark}
    (hworking : s.working = some msg) (hmsg : msg.sender = client)
    (hasked : s.asked = some n) (htag : msg.tag = .request n) (status : Status) :
    Inv client daemon (s.answer daemon msg status) := by
  have hrelease := h.release ((n, (daemonReply msg.word status).2.code) :: s.answered)
    fun _ hp => List.mem_cons_of_mem _ hp
  have hone := h.one_of_asked hasked
  rw [hworking] at hone
  have hself : (fromClient client (some msg).toList).length = 1 := fromClient_self hmsg
  unfold Exchange.answer
  rw [htag]
  dsimp only [Mark.answer, Exchange.call]
  rcases syscall_send_cases s.table 0 daemon (s.table daemon).caps (daemonReply msg.word status).1
    (Mark.reply n) msg.sender.val 0 with ⟨d, hd, -, -, heq⟩ | heq
  · obtain rfl : d = client := (Fin.ext hd.symm).trans hmsg
    rw [heq]
    dsimp only
    refine ⟨?_, ?_, hrelease.working, ?_, hrelease.matched⟩
    · dsimp only
      rw [update_self]
      intro m hm
      rcases List.mem_append.mp hm with hm | hm
      · exact hrelease.mail m hm
      · rw [List.mem_singleton.mp hm, responseStatus_daemonReply]
        exact ⟨n, hasked, List.mem_cons_self⟩
    · dsimp only
      rw [update_of_ne hne.symm]
      exact hrelease.requests
    · dsimp only
      rw [update_self, update_of_ne hne.symm, hasked, Option.isSome_some, if_pos rfl]
      simp only [Row.push, List.length_append, List.length_singleton, Option.toList]
      have hnil : (fromClient d []).length = 0 := rfl
      omega
  · rw [heq]
    exact hrelease

theorem Inv.next (hne : client ≠ daemon) (h : Inv client daemon s) {a : Action}
    (he : s.Enabled client daemon a) (ha : Undisturbed client a) :
    Inv client daemon (s.next client daemon a) := by
  cases a with
  | ask word => exact h.ask hne he.2 word
  | collect =>
    obtain ⟨n, hn⟩ := Option.isSome_iff_exists.mp he.2
    rw [Exchange.next, hn]
    exact h.collect hne hn
  | take => exact h.take hne (Option.not_isSome_iff_eq_none.mp (by rw [he.2]; exact Bool.false_ne_true))
  | answer status =>
    obtain ⟨msg, hmsg⟩ := Option.isSome_iff_exists.mp he.2
    rw [Exchange.next, hmsg]
    have htracked := h.working msg hmsg
    unfold Tracked at htracked
    split_ifs at htracked with hsender
    · obtain ⟨n, hasked, htag⟩ := htracked
      exact h.answer_client hne hmsg hsender hasked htag status
    · exact h.answer_other hne hsender htracked status
  | abandon => exact h.release s.answered fun _ hp => hp
  | other i ticks c word =>
    rcases he.2 with ⟨hclient, hdaemon⟩ | hstill
    · refine h.other hclient hdaemon ticks word fun requested hc => ?_
      subst hc
      exact ha rfl
    · exact h.still hstill i ticks word
  | wakeIrq => exact h.setTable (Row.wakeIrq_mailbox _) (Row.wakeIrq_mailbox _)
  | expire ticks =>
    have hmail : ∀ t : Row Mark, (t.expire ticks).mailbox = t.mailbox := by
      intro t
      unfold Row.expire
      split_ifs <;> rfl
    exact h.setTable (hmail _) (hmail _)

theorem Exchange.Fresh.inv (h : s.Fresh client daemon) : Inv client daemon s := by
  have hnone : ∀ l : List (IpcMessage Mark), (∀ m ∈ l, m.sender ≠ client ∧ m.tag = .other) →
      (fromClient client l).length = 0 := by
    intro l hl
    rw [List.length_eq_zero_iff, fromClient, List.filter_eq_nil_iff]
    exact fun m hm heq => (hl m hm).1 (of_decide_eq_true heq)
  refine ⟨fun m hm => ?_, fun m hm => ?_, fun m hm => ?_, ?_, fun p hp => ?_⟩
  · rw [h.mail] at hm
    cases hm
  · rw [Tracked, if_neg (h.requests m hm).1]
    exact (h.requests m hm).2
  · rw [Tracked, if_neg (h.working m hm).1]
    exact (h.working m hm).2
  · rw [hnone _ h.requests, hnone _ fun m hm => h.working m (Option.mem_toList.mp hm), h.mail]
    exact Nat.zero_le _
  · rw [h.returned] at hp
    cases hp

theorem Inv.run (hne : client ≠ daemon) (h : Inv client daemon s) {run : List Action}
    (hrun : s.Proceeds client daemon (Undisturbed client) run) :
    Inv client daemon (s.after client daemon run) := by
  induction run generalizing s with
  | nil => exact h
  | cons a run ih => exact ih (h.next hne hrun.1 hrun.2.1) hrun.2.2

/-- From a fresh client, as long as no other task sends to it, every status it returns is
the one that the daemon sent in reply to that request. -/
theorem replies_matched (hne : client ≠ daemon) (hs : s.Fresh client daemon) {run : List Action}
    (hrun : s.Proceeds client daemon (Undisturbed client) run) :
    (s.after client daemon run).Matched :=
  (hs.inv.run hne hrun).matched

end

def readyRow : Row Mark := { (Row.empty : Row Mark) with state := .ready, caps := taskIpc }

def demoStart : Exchange :=
  ⟨fun i => if i.val < 3 then readyRow else .empty, 0, none, none, [], []⟩

def demoRun : List Action :=
  [.ask (typedWord 1 1 0 0), .take, .answer .ioFailure, .collect]

theorem demoStart_fresh : demoStart.Fresh clientTask virtioServiceTask where
  asked := rfl
  returned := rfl
  mail := rfl
  requests := fun m hm => by cases hm
  working := fun m hm => by cases hm

theorem replies_matched_failure :
    (demoStart.after clientTask virtioServiceTask demoRun).returned = [(0, Status.ioFailure.code)] ∧
      (demoStart.after clientTask virtioServiceTask demoRun).Matched :=
  ⟨by decide +kernel, replies_matched (by decide) demoStart_fresh (by decide +kernel)⟩

/-- Another task sends the client a word of success before the daemon has taken the
request; the daemon then reports a failure. -/
def forgedRun : List Action :=
  [.ask (typedWord 1 1 0 0), .other 2 0 (.send 1 0) (typedWord 1 1 0 0), .collect, .take,
    .answer .ioFailure]

/-- The client has returned success for a request that failed. -/
theorem reply_forged :
    demoStart.Proceeds clientTask virtioServiceTask (fun _ => True) forgedRun ∧
      (demoStart.after clientTask virtioServiceTask forgedRun).returned = [(0, Status.ok.code)] ∧
      (demoStart.after clientTask virtioServiceTask forgedRun).answered =
        [(0, Status.ioFailure.code)] ∧
      ¬ (demoStart.after clientTask virtioServiceTask forgedRun).Matched := by
  decide +kernel

end Dezh.ReplyMatching

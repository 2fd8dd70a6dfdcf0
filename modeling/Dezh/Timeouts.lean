import Dezh.Mailboxes
import Dezh.WakeUps

/-!
# Who is told of a timeout

A timed receive that parks raises a flag and notes a deadline; the picker answers every
parked task whose flag is up and whose deadline has passed. The flag comes down with a
message that wakes the task and with the timeout itself, but not with the wake-up of an
interrupt wait. An interrupt wait that ends by the count alone leaves its own flag up, and
the walk over it then wakes the task out of a later timed receive whose flag stays up. If
that receive then finds a message, a plain receive after it is parked under the old
deadline, and is answered with a timeout.
-/
namespace Dezh.Scheduler
open TaskTable PackageTasks

variable {H : Type}

instance (s : Section H) : Decidable s.Picks := by
  unfold Section.Picks
  rcases s with _ | _
  all_goals infer_instance

def Kernel.answers (k : Kernel H) (s : Section H) (i : Slot) : Option Answer :=
  match k.service s with
  | some (cur, r) => if cur = i then r.answer else none
  | none =>
    if s.Picks ∧ (k.tasks i).Expired k.ticks ∧ (k.tasks i).mailbox.count = 0 then some .timeout
    else none

def Unflagged (k : Kernel H) : Section H → Prop
  | .serve h _ => ∀ i, k.current h = some i → (k.tasks i).Calls .recvTimeout →
      (k.tasks i).irqWaiting = false
  | _ => True

instance (k : Kernel H) (s : Section H) : Decidable (Unflagged k s) := by
  unfold Unflagged
  rcases s with _ | _
  all_goals infer_instance

/-- A calm console, and timed receives with the interrupt flag down. -/
def Timely (k : Kernel H) (s : Section H) : Prop := Calm k s ∧ Unflagged k s

instance [Fintype H] [DecidableEq H] (k : Kernel H) (s : Section H) : Decidable (Timely k s) :=
  inferInstanceAs (Decidable (_ ∧ _))

/-- The flag of a timed receive is up only over a parked timed receive, with the deadline of
that receive; no call was made in the future. -/
structure Task.OnTime (ticks : ℕ) (t : Task) : Prop where
  waiting : t.recvWaiting = true → t.state = .blocked ∧ t.irqWaiting = false ∧
    t.Calls .recvTimeout ∧ ∃ t₀, t.calling = some t₀ ∧ min (t₀ + t.frame.a2) usizeMax ≤ t.recvDeadline
  called : ∀ t₀, t.calling = some t₀ → t₀ ≤ ticks

section
variable {ticks irqs caps : ℕ} {t t' : Task} {a : Option Answer}

theorem Task.OnTime.not_waiting (ht : t.OnTime ticks) (hfree : t.state ≠ .blocked) :
    t.recvWaiting = false :=
  Bool.eq_false_of_not_eq_true fun h => hfree (ht.waiting h).1

theorem onTime_of_not_waiting (hflag : t.recvWaiting = false)
    (hcalled : ∀ t₀, t.calling = some t₀ → t₀ ≤ ticks) : t.OnTime ticks := by
  refine ⟨fun h => ?_, hcalled⟩
  rw [hflag] at h
  cases h

theorem not_called (hnone : t.calling = none) : ∀ t₀, t.calling = some t₀ → t₀ ≤ ticks := by
  intro t₀ h
  rw [hnone] at h
  cases h

theorem expire_onTime (ht : t.OnTime ticks) : (t.expire ticks).OnTime ticks := by
  unfold Task.expire
  split_ifs
  · exact onTime_of_not_waiting rfl ht.called
  · exact onTime_of_not_waiting rfl (not_called rfl)
  · exact ht

theorem wakeIrq_onTime (ht : t.OnTime ticks) : t.wakeIrq.OnTime ticks := by
  by_cases hwaiting : t.irqWaiting = true
  · rw [Task.wakeIrq, if_pos hwaiting]
    refine onTime_of_not_waiting (Bool.eq_false_of_not_eq_true fun hflag => ?_) ht.called
    have hdown := (ht.waiting hflag).2.1
    rw [hwaiting] at hdown
    cases hdown
  · rw [Task.wakeIrq, if_neg hwaiting]
    exact ht

theorem trap_onTime (f : Frame) (ht : t.OnTime ticks) (hfree : t.state ≠ .blocked) :
    (t.trap f ticks).OnTime ticks := by
  refine onTime_of_not_waiting (ht.not_waiting hfree) fun t₀ h => ?_
  have heq := Option.some.inj h
  cases hcalling : t.calling with
  | none =>
    rw [hcalling] at heq
    exact heq.symm.le
  | some t1 =>
    rw [hcalling] at heq
    exact heq ▸ ht.called t1 hcalling

theorem push_waiting (msg : Message) (h : (t.push msg).recvWaiting = true) :
    t.recvWaiting = true := by
  unfold Task.push at h
  split_ifs at h
  · exact h
  · exact h

theorem push_calling (msg : Message) : (t.push msg).calling = t.calling := by
  unfold Task.push
  split_ifs <;> rfl

theorem push_onTime (msg : Message) (hroom : t.mailbox.count < mailboxDepth)
    (ht : t.OnTime ticks) : (t.push msg).OnTime ticks := by
  refine onTime_of_not_waiting (Bool.eq_false_of_not_eq_true fun hflag => ?_) ?_
  · have hblocked := (ht.waiting (push_waiting msg hflag)).1
    rw [Task.push, dif_pos hroom] at hflag
    dsimp only at hflag
    rw [if_pos hblocked] at hflag
    cases hflag
  · rw [push_calling]
    exact ht.called

theorem OwnStep.calling (h : OwnStep t ticks irqs caps a t') (ha : a.isSome) :
    t'.calling = none := by
  cases h with
  | took _ hmail =>
    rw [Task.take, dif_pos hmail]
    rfl
  | done | denied | sent | timeout => rfl
  | _ => cases ha

theorem OwnStep.waiting (h : OwnStep t ticks irqs caps a t') (ha : a.isSome)
    (hflag : t.recvWaiting = false) : t'.recvWaiting = false := by
  cases h with
  | took _ hmail =>
    rw [Task.take, dif_pos hmail]
    exact hflag
  | sent f msg =>
    refine Bool.eq_false_of_not_eq_true fun hup => ?_
    have := push_waiting msg hup
    rw [hflag] at this
    cases this
  | done | denied | timeout => exact hflag
  | _ => cases ha

theorem OwnStep.onTime (h : OwnStep t ticks irqs caps a t') (ht : t.OnTime ticks)
    (hfree : t.state ≠ .blocked) (hunflagged : t.Calls .recvTimeout → t.irqWaiting = false)
    (hcalled : t.calling ≠ none) : t'.OnTime ticks := by
  have hflag := ht.not_waiting hfree
  by_cases ha : a.isSome
  · exact onTime_of_not_waiting (h.waiting ha hflag) (not_called (h.calling ha))
  · cases h with
    | recv | irqWait => exact onTime_of_not_waiting hflag ht.called
    | recvTimeout h =>
      obtain ⟨t₀, ht₀⟩ := Option.ne_none_iff_exists'.mp hcalled
      have hle := ht.called t₀ ht₀
      refine ⟨fun _ => ⟨rfl, hunflagged h, h, t₀, ht₀, ?_⟩, ht.called⟩
      exact min_le_min_right _ (Nat.add_le_add_right hle _)
    | yield | exit => exact onTime_of_not_waiting hflag (not_called rfl)
    | _ => exact absurd rfl ha

theorem Reset.onTime (h : Reset t t') (ht : t.OnTime ticks) : t'.OnTime ticks := by
  have hwipe : t.wipe.OnTime ticks := by
    refine onTime_of_not_waiting rfl ?_
    unfold Task.wipe Task.reclaim
    split_ifs
    · exact ht.called
    · exact ht.called
  cases h with
  | reclaim =>
    unfold Task.reclaim
    split_ifs
    · exact ⟨ht.waiting, ht.called⟩
    · exact onTime_of_not_waiting rfl ht.called
  | wipe => exact hwipe
  | clearForeground => exact onTime_of_not_waiting rfl hwipe.called
  | spawn spec build =>
    cases build with
    | none => exact onTime_of_not_waiting rfl ht.called
    | some b => exact onTime_of_not_waiting rfl (not_called rfl)
  | bake spec => exact onTime_of_not_waiting rfl (not_called rfl)

end

section
variable [Fintype H] [DecidableEq H] {k : Kernel H} {s : Section H} {h : H} {i : Slot}

/-- All rows are on time, and a hart that serves a call serves an open one. -/
structure Punctual (k : Kernel H) : Prop where
  rows : ∀ i, (k.tasks i).OnTime k.ticks
  open_call : ∀ h i caps, k.current h = some i → k.phase h = .trap caps → (k.tasks i).calling ≠ none

theorem onTime_next (hk : Orderly k) (hp : Punctual k) (he : k.Enabled s) (hs : Timely k s) :
    ((k.next s).tasks i).OnTime k.ticks := by
  have ht := hp.rows i
  have hrow := next_row k s i
  generalize (k.next s).tasks i = t' at hrow ⊢
  cases hrow with
  | same => exact ht
  | expire => exact expire_onTime ht
  | wake => exact wakeIrq_onTime ht
  | trap h f hs hcur =>
    subst hs
    exact trap_onTime f ht (hk.running h i hcur (by rw [he.1]; trivial))
  | own h mem caps hserve hcur hphase =>
    subst hserve
    exact (serve_own k.tasks i k.ticks k.extIrqs caps mem).onTime ht
      (hk.running h i hcur (by rw [hphase]; trivial)) (hs.2 i hcur)
      (hp.open_call h i caps hcur hphase)
  | sent _ _ cur msg _ _ _ _ _ hrecv => exact push_onTime msg (receiver_spec hrecv).2.2.2 ht
  | kill h hfault hcur =>
    subst hfault
    have huser : k.phase h = .user := he
    have hfree := hk.running h i hcur (by rw [huser]; trivial)
    exact onTime_of_not_waiting (ht.not_waiting hfree) (not_called rfl)
  | launch spec build hlaunch =>
    subst hlaunch
    cases build with
    | none => exact ht
    | some b =>
      refine onTime_of_not_waiting (ht.not_waiting fun hblocked => ?_) (not_called rfl)
      exact TaskState.noConfusion (hs.1.2.symm.trans hblocked)
  | reset _ hreset => exact hreset.onTime ht

theorem ticks_next (k : Kernel H) (s : Section H) : k.ticks ≤ (k.next s).ticks := by
  rw [(next_counters k s).1]
  exact Nat.le_add_right _ _

theorem serve_not_trapped {mem : ℕ → UInt8} {caps caps' : ℕ} (hcur : k.current h = some i)
    (hphase : k.phase h = .trap caps) : (k.next (.serve h mem)).phase h ≠ .trap caps' := by
  rw [Kernel.next, hcur, hphase]
  simp only [Kernel.serveOn, Kernel.setPhase, Function.update_self]
  split_ifs
  · exact Phase.noConfusion
  · exact Phase.noConfusion

theorem expire_of_not_blocked {ticks : ℕ} {t : Task} (hfree : t.state ≠ .blocked) :
    t.expire ticks = t := by
  rw [Task.expire, if_neg]
  exact fun hexpired => hfree hexpired.2.1

theorem open_call_next (hk : Orderly k) (hp : Punctual k) (he : k.Enabled s) (hs : Calm k s)
    {caps : ℕ} (hcur' : (k.next s).current h = some i) (hphase' : (k.next s).phase h = .trap caps) :
    ((k.next s).tasks i).calling ≠ none := by
  obtain ⟨hcur, hphase | ⟨f, rfl⟩⟩ := next_trapped he hcur' hphase'
  · have hopen := hp.open_call h i caps hcur hphase
    have hrow := next_row k s i
    generalize (k.next s).tasks i = t' at hrow ⊢
    cases hrow with
    | same => exact hopen
    | expire =>
      rw [expire_of_not_blocked (hk.running h i hcur (by rw [hphase]; trivial))]
      exact hopen
    | wake =>
      unfold Task.wakeIrq
      split_ifs
      all_goals exact hopen
    | trap => exact Option.some_ne_none _
    | own h0 mem caps0 hserve hcur0 hphase0 =>
      subst hserve
      obtain rfl := hk.exclusive h0 h i hcur0 hcur
      exact absurd hphase' (serve_not_trapped hcur0 hphase0)
    | sent _ _ cur msg =>
      rw [push_calling]
      exact hopen
    | kill h0 hfault hcur0 =>
      subst hfault
      obtain rfl := hk.exclusive h0 h i hcur0 hcur
      exact Phase.noConfusion (hphase.symm.trans he)
    | launch _ _ hlaunch => exact absurd hcur (hs.1 i (hlaunch ▸ rfl) h)
    | reset hr => exact absurd hcur (hs.1 i hr h)
  · rw [Kernel.next, hcur]
    change ((k.setTask i _).tasks i).calling ≠ none
    rw [setTask_tasks, if_pos rfl]
    exact Option.some_ne_none _

theorem Punctual.next (hp : Punctual k) (hk : Orderly k) (he : k.Enabled s) (hs : Timely k s) :
    Punctual (k.next s) := by
  refine ⟨fun i => ?_, fun h i caps => open_call_next hk hp he hs.1⟩
  have hrow := onTime_next (i := i) hk hp he hs
  exact ⟨hrow.waiting, fun t₀ h => (hrow.called t₀ h).trans (ticks_next k s)⟩

theorem Reachable.punctual (hk : Reachable Timely k) : Punctual k := by
  induction hk with
  | boot b =>
    refine ⟨fun i => onTime_of_not_waiting rfl (not_called rfl), fun h i caps hcur => ?_⟩
    cases hcur
  | step s hk he hs ih => exact ih.next (hk.orderly fun _ _ hs => hs.1) he hs

theorem picks_row (hs : s.Picks) : (k.next s).tasks i = (k.tasks i).expire k.ticks := by
  cases s with
  | claimFirst | claimSecondary h => exact claimNext_tasks
  | peek h => rfl
  | pick h => exact reschedule_tasks
  | _ => exact hs.elim

omit [Fintype H] [DecidableEq H] in
theorem answers_expired (hs : s.Picks) (hexpired : (k.tasks i).Expired k.ticks)
    (hempty : (k.tasks i).mailbox.count = 0) : k.answers s i = some .timeout := by
  have hnone : k.service s = none := by
    cases s with
    | serve => exact hs.elim
    | _ => rfl
  rw [Kernel.answers, hnone]
  exact if_pos ⟨hs, hexpired, hempty⟩

theorem answers_cases {a : Answer} (ha : k.answers s i = some a) :
    (∃ h mem caps, s = .serve h mem ∧ k.current h = some i ∧ k.phase h = .trap caps ∧
      OwnStep (k.tasks i) k.ticks k.extIrqs caps (some a) ((k.next s).tasks i)) ∨
    a = .timeout ∧ (k.tasks i).Expired k.ticks ∧ (k.tasks i).mailbox.count = 0 ∧
      (k.next s).tasks i = (k.tasks i).expire k.ticks := by
  unfold Kernel.answers at ha
  rcases service_cases k s with hnone | ⟨h, mem, cur, caps, hs, hcur, hphase, heq⟩
  · rw [hnone] at ha
    dsimp only at ha
    split_ifs at ha with hexpired
    cases ha
    exact .inr ⟨rfl, hexpired.2.1, hexpired.2.2, picks_row hexpired.1⟩
  · rw [heq] at ha
    dsimp only at ha
    split_ifs at ha with hi
    subst hi
    have hown := serve_own k.tasks cur k.ticks k.extIrqs caps mem
    rw [ha, ← next_of_service heq] at hown
    exact .inl ⟨h, mem, caps, hs, hcur, hphase, hown⟩

/-- If every timed receive is made with the interrupt flag down: a plain receive returns
with a message, or is refused for want of the capability; a timeout is told to a timed
receive over an empty mailbox, after its own deadline; and every answer closes an open
call. -/
theorem timeout_correct (hk : Reachable Timely k) {a : Answer} (ha : k.answers s i = some a) :
    ((k.tasks i).Calls .recv → (∃ msg, a = .message msg) ∨ a = .denied ∧
      ∃ h caps, k.current h = some i ∧ k.phase h = .trap caps ∧ caps &&& taskIpc = 0) ∧
    (a = .timeout → (k.tasks i).Calls .recvTimeout ∧ (k.tasks i).mailbox.count = 0 ∧
      ∃ t₀, (k.tasks i).calling = some t₀ ∧ min (t₀ + (k.tasks i).frame.a2) usizeMax ≤ k.ticks) ∧
    (k.tasks i).calling ≠ none ∧ ((k.next s).tasks i).calling = none := by
  have hp := hk.punctual
  rcases answers_cases ha with ⟨h, mem, caps, -, hcur, hphase, hown⟩ | ⟨rfl, hexpired, hempty, hrow⟩
  · have hopen := hp.open_call h i caps hcur hphase
    refine ⟨fun hrecv => ?_, ?_, hopen, hown.calling rfl⟩
    · generalize (k.next s).tasks i = t' at hown
      cases hown with
      | done f hno => exact absurd hrecv hno
      | denied f hipc => exact .inr ⟨rfl, h, caps, hcur, hphase, hipc (.inl hrecv)⟩
      | sent f msg hsend => exact Sys.noConfusion (hsend.unique hrecv)
      | timeout htimed => exact Sys.noConfusion (htimed.unique hrecv)
      | took => exact .inl ⟨_, rfl⟩
    · rintro rfl
      generalize (k.next s).tasks i = t' at hown
      cases hown with
      | timeout htimed hempty hzero =>
        obtain ⟨t₀, ht₀⟩ := Option.ne_none_iff_exists'.mp hopen
        refine ⟨htimed, hempty, t₀, ht₀, (min_le_left _ _).trans ?_⟩
        rw [hzero]
        exact (hp.rows i).called t₀ ht₀
  · obtain ⟨-, -, htimed, t₀, ht₀, hdeadline⟩ := (hp.rows i).waiting hexpired.1
    refine ⟨fun hrecv => Sys.noConfusion (htimed.unique hrecv),
      fun _ => ⟨htimed, hempty, t₀, ht₀, hdeadline.trans hexpired.2.2⟩, ?_, ?_⟩
    · rw [ht₀]
      exact Option.some_ne_none _
    · rw [hrow, Task.expire, if_pos hexpired, if_neg (by omega)]
      rfl

end

def timedReceive : List (Section Hart) :=
  [.wipe, .launch 0 callSpec (some (callBuild 16)), .launch 1 callSpec (some (callBuild 32)),
    .claimFirst, .install 0] ++ call 0 (callFrame 9 0 64 1) ++ [.pick 0, .timer 0]

theorem timeout_correct_tick :
    Allowed Timely (Kernel.boot 0) timedReceive ∧
      ((Kernel.boot 0).after timedReceive).answers (.pick 0) 0 = some .timeout ∧
      (((Kernel.boot 0).after timedReceive).tasks 0).Calls .recvTimeout := by
  have hrun : Allowed Timely (Kernel.boot 0) timedReceive := by decide +kernel
  have ha : ((Kernel.boot 0).after timedReceive).answers (.pick 0) 0 = some .timeout :=
    answers_expired trivial (by decide +kernel) (by decide +kernel)
  exact ⟨hrun, ha, ((timeout_correct ((Reachable.boot 0).run hrun) ha).2.1 rfl).1⟩

/-- The task of row 0 waits for an interrupt. While its handler on hart 0 has counted but not
walked yet, a message wakes the task, its wait returns with the new count, it takes the
message and makes a timed receive. The walk wakes it from that; the message it then finds
leaves the flag up when it goes on to a plain receive. -/
def staleFlag : List (Section Hart) :=
  [.setSmp true, .wipe, .launch 0 callSpec (some (callBuild 16)),
    .launch 1 callSpec (some (callBuild 32)), .launch 2 callSpec (some (callBuild 48)),
    .claimFirst, .install 0] ++ call 0 (callFrame 10 0 0 0) ++
  [.pick 0, .check 1, .claimSecondary 1, .install 1, .interrupt 0] ++
  call 1 (callFrame 6 0 0 0) ++ call 1 (callFrame 3 0 0 0) ++ [.pick 1] ++
  call 1 (callFrame 10 0 0 0) ++ call 1 (callFrame 7 0 64 0) ++ call 1 (callFrame 9 0 64 1) ++
  [.walk 0, .pick 1] ++ call 1 (callFrame 6 0 0 0) ++ call 1 (callFrame 3 0 0 0) ++ [.pick 1] ++
  call 1 (callFrame 9 0 64 1) ++ call 1 (callFrame 7 0 64 0) ++ [.timer 0]

/-- The plain receive is answered with a timeout. -/
theorem plain_receive_times_out :
    Allowed (fun _ _ => True) (Kernel.boot 0) (staleFlag ++ [.pick 0]) ∧
      (((Kernel.boot 0).after staleFlag).tasks 0).Calls .recv ∧
      ((Kernel.boot 0).after staleFlag).answers (.pick 0) 0 = some .timeout ∧
      (((Kernel.boot 0).after (staleFlag ++ [.pick 0])).tasks 0).frame.a0 = ipcStatusTimeout := by
  refine ⟨by decide +kernel, by decide +kernel, answers_expired trivial ?_ ?_, by decide +kernel⟩
  · decide +kernel
  · decide +kernel

end Dezh.Scheduler

import Dezh.Harts

/-!
# What a step does to a row

Everything that can happen to one row of the tables in one step of a hart: it stays as
it is, it expires, is woken, trapped, served, sent a message, killed, or launched or reset
from the console. What a system call does to the row of its own task is said once more finely,
by what it answers.
-/
namespace Dezh.Scheduler
open TaskTable PackageTasks RingBuffer

section
variable {tasks : Tasks} {cur i : Slot} {ticks irqs caps : ℕ} {mem : ℕ → UInt8} {t : Task}

/-- A native call. -/
def Task.Calls (t : Task) (sys : Sys) : Prop := t.linux = false ∧ Sys.ofNumber t.frame.a7 = sys

instance (t : Task) (sys : Sys) : Decidable (t.Calls sys) :=
  inferInstanceAs (Decidable (_ ∧ _))

/-- What a call does to the row of its task, and what it answers. -/
inductive OwnStep (t : Task) (ticks irqs caps : ℕ) : Option Answer → Task → Prop
  | done (f : Frame) (hrecv : ¬ t.Calls .recv) (htimed : ¬ t.Calls .recvTimeout) :
      OwnStep t ticks irqs caps (some .done) (t.answered f)
  | denied (f : Frame)
      (h : t.Calls .recv ∨ t.Calls .recvTimeout → caps &&& taskIpc = 0) :
      OwnStep t ticks irqs caps (some .denied) (t.answered f)
  | sent (f : Frame) (msg : Message) (h : t.Calls .send) :
      OwnStep t ticks irqs caps (some .done) ((t.push msg).answered f)
  | timeout (h : t.Calls .recvTimeout) (hempty : t.mailbox.count = 0) (hzero : t.frame.a2 = 0) :
      OwnStep t ticks irqs caps (some .timeout) (t.answered t.frame.timeout)
  | took (h : t.Calls .recv ∨ t.Calls .recvTimeout) (hmail : 0 < t.mailbox.count)
      (hipc : caps &&& taskIpc ≠ 0) :
      OwnStep t ticks irqs caps (some (.message t.mailbox.front)) t.take
  | recv (h : t.Calls .recv) (hempty : t.mailbox.count = 0) :
      OwnStep t ticks irqs caps none t.park
  | recvTimeout (h : t.Calls .recvTimeout) (hempty : t.mailbox.count = 0)
      (htime : t.frame.a2 ≠ 0) :
      OwnStep t ticks irqs caps none
        { t.park with recvWaiting := true, recvDeadline := min (ticks + t.frame.a2) usizeMax }
  | irqWait (h : t.Calls .irqWait) (hsame : irqs % 2 ^ 64 = t.frame.a0) :
      OwnStep t ticks irqs caps none { t.park with irqWaiting := true, irqSeen := irqs }
  | yield (h : t.Calls .yield) :
      OwnStep t ticks irqs caps none { t with state := .ready, calling := none }
  | exit (code : ℕ) : OwnStep t ticks irqs caps none (t.kill code)

theorem reply_own (f : Frame) (a : Answer) (console : List UInt8) (access : List Access) :
    (reply tasks cur f a console access).tasks cur = (tasks cur).answered f :=
  Function.update_self ..

theorem reply_other (h : i ≠ cur) (f : Frame) (a : Answer) (console : List UInt8)
    (access : List Access) : (reply tasks cur f a console access).tasks i = tasks i :=
  Function.update_of_ne h ..

theorem leaveTask_own (t : Task) (console : List UInt8) :
    (leaveTask tasks cur t console).tasks cur = t :=
  Function.update_self ..

theorem leaveTask_other (h : i ≠ cur) (t : Task) (console : List UInt8) :
    (leaveTask tasks cur t console).tasks i = tasks i :=
  Function.update_of_ne h ..

theorem receiver_spec {dest : Slot} (h : receiver tasks cur = some dest) :
    (tasks cur).frame.a0 = dest.val ∧ (tasks dest).state ≠ .unused ∧
      (tasks dest).state ≠ .done ∧ (tasks dest).mailbox.count < mailboxDepth := by
  unfold receiver at h
  dsimp only at h
  split_ifs at h with hlt hstate hfull
  cases h
  refine ⟨rfl, fun hu => hstate (.inl hu), fun hd => hstate (.inr hd), ?_⟩
  exact Nat.lt_of_le_of_ne (Ring.count_le _) hfull

theorem Task.Calls.unique {s s' : Sys} (h : t.Calls s) (h' : t.Calls s') : s = s' :=
  h.2.symm.trans h'.2

theorem OwnStep.reply {sys : Sys} {f : Frame} (h : t.Calls sys) (hrecv : sys ≠ .recv)
    (htimed : sys ≠ .recvTimeout) : OwnStep t ticks irqs caps (some .done) (t.answered f) :=
  .done f (fun hr => hrecv (h.unique hr)) fun hr => htimed (h.unique hr)

theorem OwnStep.refuse {sys : Sys} {f : Frame} (h : t.Calls sys) (hrecv : sys ≠ .recv)
    (htimed : sys ≠ .recvTimeout) : OwnStep t ticks irqs caps (some .denied) (t.answered f) :=
  .denied f fun hr => hr.elim (fun hr => absurd (h.unique hr) hrecv)
    fun hr => absurd (h.unique hr) htimed

theorem linux_own (hlinux : (tasks cur).linux = true) :
    OwnStep (tasks cur) ticks irqs caps (linuxCall tasks cur caps mem).answer
      ((linuxCall tasks cur caps mem).tasks cur) := by
  have hnot : ∀ sys, ¬ (tasks cur).Calls sys := by
    intro sys h
    have := h.1
    rw [hlinux] at this
    cases this
  have hdone : ∀ f, OwnStep (tasks cur) ticks irqs caps (some .done) ((tasks cur).answered f) :=
    fun f => .done f (hnot _) (hnot _)
  have hdenied : ∀ f, OwnStep (tasks cur) ticks irqs caps (some .denied) ((tasks cur).answered f) :=
    fun f => .denied f fun h => h.elim (fun h => absurd h (hnot _)) fun h => absurd h (hnot _)
  unfold linuxCall
  dsimp only
  split
  · split_ifs
    · rw [reply_own]
      exact hdone _
    · rw [reply_own]
      exact hdenied _
    · rw [reply_own]
      exact hdenied _
  · rw [leaveTask_own]
    exact .exit _
  · rw [reply_own]
    exact hdenied _

theorem receive_own (h : (tasks cur).Calls .recv ∨ (tasks cur).Calls .recvTimeout)
    (hmail : 0 < (tasks cur).mailbox.count) (hipc : caps &&& taskIpc ≠ 0) :
    OwnStep (tasks cur) ticks irqs caps (receive tasks cur).answer ((receive tasks cur).tasks cur) := by
  have hrow : (receive tasks cur).tasks cur = (tasks cur).take := Function.update_self ..
  rw [hrow]
  exact .took h hmail hipc

theorem send_cases (tasks : Tasks) (cur : Slot) (caps : ℕ) (mem : ℕ → UInt8) :
    (∃ console, send tasks cur caps mem =
      reply tasks cur { (tasks cur).frame with a0 := sysDenied } .denied console []) ∨
    ∃ dest, receiver tasks cur = some dest ∧
      (send tasks cur caps mem).tasks = (reply (Function.update tasks dest ((tasks dest).push
        (outgoing tasks cur caps mem))) cur { (tasks cur).frame with a0 := 0 } .done [] []).tasks ∧
      (send tasks cur caps mem).answer = some .done ∧
      (send tasks cur caps mem).sent = some (dest, outgoing tasks cur caps mem) := by
  unfold send
  dsimp only
  by_cases hipc : caps &&& taskIpc = 0
  · rw [if_pos hipc]
    exact .inl ⟨_, rfl⟩
  · rw [if_neg hipc]
    cases hdest : receiver tasks cur with
    | none => exact .inl ⟨_, rfl⟩
    | some dest => exact .inr ⟨dest, rfl, rfl, rfl, rfl⟩

theorem send_own (h : (tasks cur).Calls .send) :
    OwnStep (tasks cur) ticks irqs caps (send tasks cur caps mem).answer
      ((send tasks cur caps mem).tasks cur) := by
  rcases send_cases tasks cur caps mem with
    ⟨console, hrefused⟩ | ⟨dest, -, htasks, hanswer, -⟩
  · rw [hrefused, reply_own]
    exact .refuse h (by decide) (by decide)
  · rw [htasks, hanswer, reply_own]
    by_cases hself : cur = dest
    · rw [← hself, Function.update_self]
      exact .sent _ _ h
    · rw [Function.update_of_ne hself]
      exact .reply h (by decide) (by decide)

theorem recv_own (h : (tasks cur).Calls .recv) :
    OwnStep (tasks cur) ticks irqs caps (recv tasks cur caps).answer
      ((recv tasks cur caps).tasks cur) := by
  unfold recv
  dsimp only
  split_ifs with hipc hmail
  · rw [reply_own]
    exact .denied _ fun _ => hipc
  · exact receive_own (.inl h) hmail hipc
  · rw [leaveTask_own]
    exact .recv h (Nat.eq_zero_of_not_pos hmail)

theorem recvTimeout_own (h : (tasks cur).Calls .recvTimeout) :
    OwnStep (tasks cur) ticks irqs caps (recvTimeout tasks cur ticks caps).answer
      ((recvTimeout tasks cur ticks caps).tasks cur) := by
  unfold recvTimeout
  dsimp only
  split_ifs with hipc hmail hzero
  · rw [reply_own]
    exact .denied _ fun _ => hipc
  · exact receive_own (.inr h) hmail hipc
  · rw [reply_own]
    exact .timeout h (Nat.eq_zero_of_not_pos hmail) hzero
  · rw [leaveTask_own]
    exact .recvTimeout h (Nat.eq_zero_of_not_pos hmail) hzero

theorem irqWait_own (h : (tasks cur).Calls .irqWait) :
    OwnStep (tasks cur) ticks irqs caps (irqWait tasks cur irqs).answer
      ((irqWait tasks cur irqs).tasks cur) := by
  unfold irqWait
  dsimp only
  split_ifs with hmoved
  · rw [reply_own]
    exact .reply h (by decide) (by decide)
  · rw [leaveTask_own]
    exact .irqWait h (Decidable.not_not.mp hmoved)

theorem native_own (hnative : (tasks cur).linux = false) :
    OwnStep (tasks cur) ticks irqs caps (native tasks cur ticks irqs caps mem).answer
      ((native tasks cur ticks irqs caps mem).tasks cur) := by
  unfold native
  dsimp only
  cases hsys : Sys.ofNumber (tasks cur).frame.a7 with
  | yield =>
    rw [leaveTask_own]
    exact .yield ⟨hnative, hsys⟩
  | exit =>
    rw [leaveTask_own]
    exact .exit _
  | print =>
    unfold print
    dsimp only
    split_ifs
    · rw [reply_own]
      exact .reply ⟨hnative, hsys⟩ (by decide) (by decide)
    · rw [reply_own]
      exact .refuse ⟨hnative, hsys⟩ (by decide) (by decide)
  | uptime =>
    unfold uptime
    dsimp only
    split_ifs
    · rw [reply_own]
      exact .reply ⟨hnative, hsys⟩ (by decide) (by decide)
    · rw [reply_own]
      exact .refuse ⟨hnative, hsys⟩ (by decide) (by decide)
  | null | printnum | report =>
    rw [reply_own]
    exact .reply ⟨hnative, hsys⟩ (by decide) (by decide)
  | send => exact send_own ⟨hnative, hsys⟩
  | recv => exact recv_own ⟨hnative, hsys⟩
  | recvTimeout => exact recvTimeout_own ⟨hnative, hsys⟩
  | irqWait => exact irqWait_own ⟨hnative, hsys⟩
  | unknown =>
    rw [reply_own]
    exact .refuse ⟨hnative, hsys⟩ (by decide) (by decide)

theorem serve_own (tasks : Tasks) (cur : Slot) (ticks irqs caps : ℕ) (mem : ℕ → UInt8) :
    OwnStep (tasks cur) ticks irqs caps (serve tasks cur ticks irqs caps mem).answer
      ((serve tasks cur ticks irqs caps mem).tasks cur) := by
  unfold serve
  split_ifs with hlinux
  · exact linux_own hlinux
  · exact native_own (Bool.eq_false_of_not_eq_true hlinux)

/-- The shapes of a system call: it is answered at once without a message, its task is left
with its mailbox as it is, a message is received, or it is a send. -/
inductive Form (tasks : Tasks) (cur : Slot) (caps : ℕ) (mem : ℕ → UInt8) : Served → Prop
  | reply (f : Frame) (a : Answer) (console : List UInt8) (access : List Access)
      (ha : ∀ msg, a ≠ .message msg) : Form tasks cur caps mem (reply tasks cur f a console access)
  | leave (t : Task) (console : List UInt8) (ht : t.mailbox = (tasks cur).mailbox) :
      Form tasks cur caps mem (leaveTask tasks cur t console)
  | receive (h : 0 < (tasks cur).mailbox.count) : Form tasks cur caps mem (receive tasks cur)
  | send (h : (tasks cur).Calls .send) : Form tasks cur caps mem (send tasks cur caps mem)

theorem Form.done (f : Frame) (console : List UInt8) (access : List Access) :
    Form tasks cur caps mem (Scheduler.reply tasks cur f .done console access) :=
  .reply f .done console access fun _ => Answer.noConfusion

theorem Form.denied (f : Frame) (console : List UInt8) (access : List Access) :
    Form tasks cur caps mem (Scheduler.reply tasks cur f .denied console access) :=
  .reply f .denied console access fun _ => Answer.noConfusion

theorem native_form (hnative : (tasks cur).linux = false) :
    Form tasks cur caps mem (native tasks cur ticks irqs caps mem) := by
  unfold native
  dsimp only
  cases hsys : Sys.ofNumber (tasks cur).frame.a7 with
  | yield | exit => exact .leave _ _ rfl
  | null | printnum | report => exact .done ..
  | unknown => exact .denied ..
  | print =>
    unfold print
    dsimp only
    split_ifs
    · exact .done ..
    · exact .denied ..
  | uptime =>
    unfold uptime
    dsimp only
    split_ifs
    · exact .done ..
    · exact .denied ..
  | send => exact .send ⟨hnative, hsys⟩
  | recv =>
    unfold recv
    dsimp only
    split_ifs with _ hmail
    · exact .denied ..
    · exact .receive hmail
    · exact .leave _ _ rfl
  | recvTimeout =>
    unfold recvTimeout
    dsimp only
    split_ifs with _ hmail
    · exact .denied ..
    · exact .receive hmail
    · exact .reply _ _ _ _ fun _ => Answer.noConfusion
    · exact .leave _ _ rfl
  | irqWait =>
    unfold irqWait
    dsimp only
    split_ifs
    · exact .done ..
    · exact .leave _ _ rfl

theorem serve_form (tasks : Tasks) (cur : Slot) (ticks irqs caps : ℕ) (mem : ℕ → UInt8) :
    Form tasks cur caps mem (serve tasks cur ticks irqs caps mem) := by
  unfold serve
  split_ifs with hlinux
  · unfold linuxCall
    dsimp only
    split
    · split_ifs
      · exact .done ..
      · exact .denied ..
      · exact .denied ..
    · exact .leave _ _ rfl
    · exact .denied ..
  · exact native_form (Bool.eq_false_of_not_eq_true hlinux)

theorem serve_other (ticks irqs caps : ℕ) (mem : ℕ → UInt8) (hne : i ≠ cur) :
    (serve tasks cur ticks irqs caps mem).tasks i = tasks i ∨
    receiver tasks cur = some i ∧ (serve tasks cur ticks irqs caps mem).tasks i =
      (tasks i).push (outgoing tasks cur caps mem) := by
  have hform := serve_form tasks cur ticks irqs caps mem
  generalize serve tasks cur ticks irqs caps mem = r at hform ⊢
  cases hform with
  | reply => exact .inl (reply_other hne ..)
  | leave => exact .inl (leaveTask_other hne ..)
  | receive => exact .inl (Function.update_of_ne hne ..)
  | send =>
    rcases send_cases tasks cur caps mem with ⟨console, hrefused⟩ | ⟨dest, hdest, htasks, -⟩
    · rw [hrefused]
      exact .inl (reply_other hne ..)
    · rw [htasks, reply_other hne]
      by_cases hi : i = dest
      · rw [hi, Function.update_self]
        exact .inr ⟨hdest, rfl⟩
      · rw [Function.update_of_ne hi]
        exact .inl rfl

end

/-- How the console clears a row or loads it anew. -/
inductive Reset (t : Task) : Task → Prop
  | reclaim : Reset t t.reclaim
  | wipe : Reset t t.wipe
  | clearForeground : Reset t t.clearForeground
  | spawn (spec : ProcessSpec) (build : Option Build) : Reset t (t.spawn spec build)
  | bake (spec : BakedSpec) : Reset t (t.bake spec)

variable {H : Type}

def Section.Picks : Section H → Prop
  | .claimFirst | .claimSecondary _ | .peek _ | .pick _ => True
  | _ => False

def Kernel.Resets (k : Kernel H) : Section H → Slot → Prop
  | .wipe, _ | .runTasks _, _ => True
  | .launch j _ _, i | .reclaim j, i | .spawn j _ _, i => i = j
  | .clearForeground, i => firstForegroundTask ≤ i.val
  | .reclaimDone first, i => first ≤ i.val ∧ (k.tasks i).state = .done
  | _, _ => False

instance (k : Kernel H) (s : Section H) (i : Slot) : Decidable (k.Resets s i) := by
  unfold Kernel.Resets
  rcases s with _ | _
  all_goals infer_instance

/-- Everything a step can do to row `i`. -/
inductive RowStep (k : Kernel H) (s : Section H) (i : Slot) : Task → Prop
  | same : RowStep k s i (k.tasks i)
  | expire (hs : s.Picks) : RowStep k s i ((k.tasks i).expire k.ticks)
  | wake (h : H) (hs : s = .walk h) : RowStep k s i (k.tasks i).wakeIrq
  | trap (h : H) (f : Frame) (hs : s = .trap h f) (hcur : k.current h = some i) :
      RowStep k s i ((k.tasks i).trap f k.ticks)
  | own (h : H) (mem : ℕ → UInt8) (caps : ℕ) (hs : s = .serve h mem) (hcur : k.current h = some i)
      (hphase : k.phase h = .trap caps) :
      RowStep k s i ((serve k.tasks i k.ticks k.extIrqs caps mem).tasks i)
  | sent (h : H) (mem : ℕ → UInt8) (cur : Slot) (msg : Message) (caps : ℕ) (hs : s = .serve h mem)
      (hcur : k.current h = some cur) (hphase : k.phase h = .trap caps) (hne : i ≠ cur)
      (hrecv : receiver k.tasks cur = some i) :
      RowStep k s i ((k.tasks i).push msg)
  | kill (h : H) (hs : s = .fault h) (hcur : k.current h = some i) :
      RowStep k s i ((k.tasks i).kill sysDenied)
  | launch (spec : ProcessSpec) (build : Option Build) (hs : s = .launch i spec build) :
      RowStep k s i ((k.tasks i).launch spec build)
  | reset {t : Task} (hr : k.Resets s i) (ht : Reset (k.tasks i) t) : RowStep k s i t

section
variable [Fintype H] [DecidableEq H] {k : Kernel H} {i j : Slot} {h : H}

omit [Fintype H] [DecidableEq H] in
theorem setTask_tasks (t : Task) :
    (k.setTask j t).tasks i = if i = j then t else k.tasks i := Function.update_apply ..

theorem claimNext_tasks : (k.claimNext h).tasks i = (k.tasks i).expire k.ticks := by
  unfold Kernel.claimNext
  dsimp only
  split <;> rfl

theorem reschedule_tasks : (k.reschedule h).tasks i = (k.tasks i).expire k.ticks := by
  unfold Kernel.reschedule
  dsimp only
  split <;> rfl

theorem next_row (k : Kernel H) (s : Section H) (i : Slot) :
    RowStep k s i ((k.next s).tasks i) := by
  cases s with
  | setSmp on | enter j | tick | timer h | interrupt h | leave h => exact .same
  | wipe => exact .reset trivial .wipe
  | launch j spec build =>
    rw [Kernel.next, setTask_tasks]
    split_ifs with hi
    · subst hi
      exact .launch spec build rfl
    · exact .same
  | claimFirst | claimSecondary h =>
    rw [Kernel.next, claimNext_tasks]
    exact .expire trivial
  | runTasks specs =>
    simp only [Kernel.next, Kernel.claim, Kernel.setPhase]
    cases specs[i.val]? with
    | none => exact .reset trivial .wipe
    | some spec => exact .reset trivial (.bake spec)
  | reclaim j =>
    rw [Kernel.next, setTask_tasks]
    split_ifs with hi
    · subst hi
      exact .reset rfl .reclaim
    · exact .same
  | spawn j spec build =>
    rw [Kernel.next, setTask_tasks]
    split_ifs with hi
    · subst hi
      exact .reset rfl (.spawn spec build)
    · exact .same
  | clearForeground =>
    rw [Kernel.next]
    dsimp only
    split_ifs with hi
    · exact .reset hi .clearForeground
    · exact .same
  | reclaimDone first =>
    rw [Kernel.next]
    dsimp only
    split_ifs with hi
    · exact .reset hi .reclaim
    · exact .same
  | check h =>
    rw [Kernel.next]
    split_ifs <;> exact .same
  | install h =>
    rw [Kernel.next]
    split <;> exact .same
  | trap h f =>
    rw [Kernel.next]
    cases hcur : k.current h with
    | none => exact .same
    | some j =>
      change RowStep k _ i ((k.setTask j ((k.tasks j).trap f k.ticks)).tasks i)
      rw [setTask_tasks]
      split_ifs with hi
      · subst hi
        exact .trap h f rfl hcur
      · exact .same
  | serve h mem =>
    rw [Kernel.next]
    cases hcur : k.current h with
    | none => exact .same
    | some cur =>
      cases hphase : k.phase h with
      | trap caps =>
        change RowStep k _ i ((serve k.tasks cur k.ticks k.extIrqs caps mem).tasks i)
        by_cases hi : i = cur
        · subst hi
          exact .own h mem caps rfl hcur hphase
        · rcases serve_other k.ticks k.extIrqs caps mem hi with hsame | ⟨hrecv, hpush⟩
          · rw [hsame]
            exact .same
          · rw [hpush]
            exact .sent h mem cur _ caps rfl hcur hphase hi hrecv
      | _ => exact .same
  | fault h =>
    rw [Kernel.next]
    cases hcur : k.current h with
    | none => exact .same
    | some j =>
      change RowStep k _ i ((k.setTask j ((k.tasks j).kill sysDenied)).tasks i)
      rw [setTask_tasks]
      split_ifs with hi
      · subst hi
        exact .kill h rfl hcur
      · exact .same
  | walk h =>
    rw [Kernel.next]
    cases hphase : k.phase h with
    | handling resume => exact .wake h rfl
    | _ => exact .same
  | peek h => exact .expire trivial
  | pick h =>
    rw [Kernel.next, reschedule_tasks]
    exact .expire trivial

end

end Dezh.Scheduler

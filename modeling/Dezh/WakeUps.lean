import Dezh.HartSteps

/-!
# No wake-up is lost

A task is parked by the same section that finds nothing for it: a receive parks over an
empty mailbox, an interrupt wait over the count it was given. Afterwards a message wakes
the task in the section that queues it, and an interrupt that is counted wakes it in the
walk that its handler still owes. So a parked receiver has an empty mailbox, and a parked
interrupt waiter that the count has passed has a handler on the way to it.
-/
namespace Dezh.Scheduler
open TaskTable

variable {i : Slot} {ticks caps : ℕ}

variable {H : Type}

/-- The console resets and enters only rows that no hart runs, and launches into unused
rows. -/
def Calm (k : Kernel H) (s : Section H) : Prop :=
  (∀ i, k.Resets s i → ∀ h, k.current h ≠ some i) ∧
    match s with
    | .enter i => (k.tasks i).state = .ready ∧ ∀ h, k.current h ≠ some i
    | .launch i _ _ => (k.tasks i).state = .unused
    | _ => True

instance [Fintype H] [DecidableEq H] (k : Kernel H) (s : Section H) : Decidable (Calm k s) := by
  unfold Calm
  rcases s with _ | _
  all_goals infer_instance

def Phase.Runs : Phase → Prop
  | .entering _ | .user | .trap _ | .handling .user => True
  | _ => False

/-- Claims are exclusive, and a task that a hart runs is not parked. -/
structure Orderly (k : Kernel H) : Prop where
  exclusive : Exclusive k
  running : ∀ h i, k.current h = some i → (k.phase h).Runs → (k.tasks i).state ≠ .blocked

section
variable [Fintype H] [DecidableEq H] {k : Kernel H} {s : Section H} {h : H}

omit [Fintype H] [DecidableEq H] in
theorem Calm.unclaimed (hs : Calm k s) : Unclaimed k s := by
  intro i hname h _
  cases s with
  | enter j =>
    cases hname
    exact hs.2.2 h
  | runTasks specs => exact hs.1 i trivial h
  | _ => cases hname

omit [Fintype H] [DecidableEq H] in
theorem Moves.runs {p q : Phase} (hm : Moves s h p q) (hq : q.Runs) : p.Runs := by
  cases hm with
  | install | trap | answered => trivial
  | interrupt r | walk r =>
    cases r with
    | user => trivial
    | _ => exact hq
  | _ => exact hq.elim

theorem Calm.named_state (hs : Calm k s) (hname : s.named = some i) :
    ((k.next s).tasks i).state ≠ .blocked := by
  cases s with
  | enter j =>
    cases hname
    exact fun hblocked => TaskState.noConfusion (hs.2.1.symm.trans hblocked)
  | runTasks specs =>
    cases hname
    simp only [Kernel.next, Kernel.claim, Kernel.setPhase]
    cases specs[(0 : Slot).val]? with
    | none | some spec => exact TaskState.noConfusion
  | _ => cases hname

theorem next_runs (hs : Calm k s) (he : k.Enabled s) (hcur : (k.next s).current h = some i)
    (hruns : ((k.next s).phase h).Runs) :
    k.current h = some i ∧ (k.phase h).Runs ∨ ((k.next s).tasks i).state ≠ .blocked := by
  have hstep := next_hart he h
  rw [hcur] at hstep
  generalize hc : some i = c at hstep
  generalize (k.next s).phase h = p at hstep hruns
  cases hstep with
  | same => exact .inl ⟨rfl, hruns⟩
  | move p hm => exact .inl ⟨rfl, hm.runs hruns⟩
  | pick j p _ _ hready =>
    cases hc
    refine .inr fun hblocked => ?_
    exact TaskState.noConfusion (hready.symm.trans hblocked)
  | name j p _ _ hname =>
    cases hc
    exact .inr (hs.named_state hname)
  | drop => cases hc

theorem Task.expire_of_blocked {t : Task} (h : (t.expire ticks).state = .blocked) :
    t.expire ticks = t := by
  by_cases hexpired : t.Expired ticks
  · rw [Task.expire, if_pos hexpired] at h
    split_ifs at h
  · rw [Task.expire, if_neg hexpired]

theorem Task.wakeIrq_of_blocked {t : Task} (h : t.wakeIrq.state = .blocked) :
    t.wakeIrq = t ∧ t.irqWaiting = false := by
  by_cases hwaiting : t.irqWaiting = true
  · rw [Task.wakeIrq, if_pos hwaiting] at h
    dsimp only at h
    split_ifs at h with hstate
    exact absurd h hstate
  · rw [Task.wakeIrq, if_neg hwaiting]
    exact ⟨rfl, Bool.eq_false_of_not_eq_true hwaiting⟩

theorem Task.push_not_blocked {t : Task} (msg : Message) (hroom : t.mailbox.count < mailboxDepth) :
    (t.push msg).state ≠ .blocked := by
  rw [Task.push, dif_pos hroom]
  dsimp only
  split_ifs with hstate
  · exact TaskState.noConfusion
  · exact hstate

theorem push_state_of_blocked {t : Task} (msg : Message) (h : (t.push msg).state = .blocked) :
    t.state = .blocked := by
  by_cases hroom : t.mailbox.count < mailboxDepth
  · exact absurd h (Task.push_not_blocked msg hroom)
  · rwa [Task.push, dif_neg hroom] at h

theorem OwnStep.not_blocked {t t' : Task} {irqs : ℕ} {a : Option Answer}
    (h : OwnStep t ticks irqs caps a t') (ha : a.isSome) (ht : t.state ≠ .blocked) :
    t'.state ≠ .blocked := by
  cases h with
  | done | denied | timeout => exact ht
  | sent f msg => exact fun hb => ht (push_state_of_blocked msg hb)
  | took =>
    unfold Task.take
    split_ifs
    all_goals exact ht
  | _ => cases ha

theorem serve_runs {mem : ℕ → UInt8} (hcur : k.current h = some i)
    (hphase : k.phase h = .trap caps) (hruns : ((k.next (.serve h mem)).phase h).Runs) :
    (serve k.tasks i k.ticks k.extIrqs caps mem).answer.isSome := by
  rw [Kernel.next, hcur, hphase] at hruns
  simp only [Kernel.serveOn, Kernel.setPhase, Function.update_self] at hruns
  split_ifs at hruns with hsome
  · exact hsome
  · exact hruns.elim

theorem Orderly.next (hk : Orderly k) (hs : Calm k s) (he : k.Enabled s) : Orderly (k.next s) := by
  refine ⟨hk.exclusive.next_iff.mpr hs.unclaimed, fun h i hcur hruns => ?_⟩
  rcases next_runs hs he hcur hruns with ⟨hold, hran⟩ | hfree
  · have hstate := hk.running h i hold hran
    have hrow := next_row k s i
    generalize (k.next s).tasks i = t' at hrow ⊢
    cases hrow with
    | same | trap => exact hstate
    | expire => exact fun hb => hstate (Task.expire_of_blocked hb ▸ hb)
    | wake => exact fun hb => hstate ((Task.wakeIrq_of_blocked hb).1 ▸ hb)
    | own h0 mem caps hserve hcur0 hphase =>
      subst hserve
      -- the hart that serves the call is the only one with this task
      obtain rfl := hk.exclusive h0 h i hcur0 hold
      exact (serve_own k.tasks i k.ticks k.extIrqs caps mem).not_blocked
        (serve_runs hcur0 hphase hruns) hstate
    | sent _ _ cur msg _ _ _ _ _ hrecv => exact Task.push_not_blocked msg (receiver_spec hrecv).2.2.2
    | kill => exact TaskState.noConfusion
    | launch _ _ hlaunch => exact absurd hold (hs.1 i (hlaunch ▸ rfl) h)
    | reset hr => exact absurd hold (hs.1 i hr h)
  · exact hfree

omit [Fintype H] in
theorem orderly_boot (b : H) : Orderly (Kernel.boot b) :=
  ⟨exclusive_boot b, fun _ _ hcur => by cases hcur⟩

theorem Reachable.orderly {Q : Kernel H → Section H → Prop} (hQ : ∀ k s, Q k s → Calm k s)
    (hk : Reachable Q k) : Orderly k := by
  induction hk with
  | boot b => exact orderly_boot b
  | step s _ he hs ih => exact ih.next (hQ _ _ hs) he

end

section

/-- An interrupt is counted and its walk is to come. -/
def Kernel.Pending (k : Kernel H) : Prop := ∃ h, (k.phase h).IsHandling

variable [Fintype H] [DecidableEq H] {k : Kernel H} {s : Section H} {h : H}

theorem handling_next (he : k.Enabled s) (hw : ∀ h, s ≠ .walk h) (hh : (k.phase h).IsHandling) :
    ((k.next s).phase h).IsHandling := by
  have hstep := next_hart he h
  generalize (k.next s).current h = c at hstep
  generalize (k.next s).phase h = p at hstep ⊢
  cases hstep with
  | same => exact hh
  | move p hm =>
    generalize k.phase h = q at hm hh
    cases hm with
    | interrupt => trivial
    | walk r hs => exact absurd hs (hw h)
    | _ => exact hh.elim
  | pick _ _ hfrom | name _ _ hfrom | drop hfrom => exact absurd hh hfrom

theorem extIrqs_next (k : Kernel H) (s : Section H) :
    (k.next s).extIrqs = k.extIrqs ∨ (k.next s).Pending := by
  have hcount := (next_counters k s).2
  cases s with
  | interrupt h =>
    refine .inr ⟨h, ?_⟩
    simp only [Kernel.next, Kernel.setPhase, Function.update_self]
    trivial
  | _ => exact .inl hcount

theorem owed_next {seen : ℕ} (he : k.Enabled s) (hw : ∀ h, s ≠ .walk h)
    (howed : seen < k.extIrqs → k.Pending) (hseen : seen < (k.next s).extIrqs) :
    (k.next s).Pending := by
  rcases extIrqs_next k s with hsame | hpending
  · obtain ⟨h, hh⟩ := howed (hsame ▸ hseen)
    exact ⟨h, handling_next he hw hh⟩
  · exact hpending

end

/-- Every parked task is attended to. -/
structure Attended (k : Kernel H) (t : Task) : Prop where
  native : t.state = .blocked → t.linux = false
  mail : t.state = .blocked → t.Calls .recv ∨ t.Calls .recvTimeout → t.mailbox.count = 0
  irq : t.state = .blocked → t.Calls .irqWait →
    t.irqWaiting = true ∧ (t.irqSeen < k.extIrqs → k.Pending)

section
variable [Fintype H] [DecidableEq H] {k : Kernel H} {s : Section H} {h : H} {t t' : Task}

omit [Fintype H] [DecidableEq H] in
theorem attended_of_not_blocked (h : t.state ≠ .blocked) : Attended k t :=
  ⟨fun hb => absurd hb h, fun hb => absurd hb h, fun hb => absurd hb h⟩

theorem OwnStep.attended {a : Option Answer}
    (h : OwnStep t ticks k.extIrqs caps a t') (hk : (k.next s).extIrqs = k.extIrqs)
    (ht : t.state ≠ .blocked) : Attended (k.next s) t' := by
  by_cases ha : a.isSome
  · exact attended_of_not_blocked (h.not_blocked ha ht)
  · cases h with
    | recv h hempty | recvTimeout h hempty =>
      refine ⟨fun _ => h.1, fun _ _ => hempty, fun _ hirq => ?_⟩
      exact Sys.noConfusion (h.unique hirq)
    | irqWait h =>
      refine ⟨fun _ => h.1, fun _ hrecv => ?_, fun _ _ => ⟨rfl, fun hlt => ?_⟩⟩
      · rcases hrecv with hrecv | hrecv
        · exact Sys.noConfusion (h.unique hrecv)
        · exact Sys.noConfusion (h.unique hrecv)
      · rw [hk] at hlt
        exact absurd hlt (Nat.lt_irrefl _)
    | yield | exit => exact attended_of_not_blocked TaskState.noConfusion
    | _ => exact absurd rfl ha

theorem Attended.keep (ht : Attended k t) (he : k.Enabled s) (hw : ∀ h, s ≠ .walk h) :
    Attended (k.next s) t :=
  ⟨ht.native, ht.mail, fun hb hcalls =>
    ⟨(ht.irq hb hcalls).1, owed_next he hw (ht.irq hb hcalls).2⟩⟩

omit [Fintype H] [DecidableEq H] in
theorem Reset.attended (h : Reset t t') (ht : Attended k t) : Attended k t' := by
  cases h with
  | reclaim =>
    unfold Task.reclaim
    split_ifs
    · exact ⟨ht.native, ht.mail, ht.irq⟩
    · exact ⟨fun _ => rfl, fun _ _ => rfl,
        fun hb hcalls => ht.irq hb ⟨ht.native hb, hcalls.2⟩⟩
  | wipe | clearForeground | bake spec => exact attended_of_not_blocked TaskState.noConfusion
  | spawn spec build =>
    cases build with
    | none | some b => exact attended_of_not_blocked TaskState.noConfusion

theorem walk_row (he : k.Enabled (.walk h)) : (k.next (.walk h)).tasks i = (k.tasks i).wakeIrq := by
  have hhandling : (k.phase h).IsHandling := he
  rw [Kernel.next]
  cases hphase : k.phase h with
  | handling resume => rfl
  | _ =>
    rw [hphase] at hhandling
    exact hhandling.elim

omit [Fintype H] [DecidableEq H] in
theorem wakeIrq_attended {k' : Kernel H} (ht : Attended k t) : Attended k' t.wakeIrq := by
  by_cases hb : t.wakeIrq.state = .blocked
  · obtain ⟨hsame, hnot⟩ := Task.wakeIrq_of_blocked hb
    rw [hsame] at hb ⊢
    refine ⟨ht.native, ht.mail, fun _ hcalls => ?_⟩
    have hwaiting := (ht.irq hb hcalls).1
    rw [hnot] at hwaiting
    cases hwaiting
  · exact attended_of_not_blocked hb

theorem attended_next (hk : Orderly k) (ht : Attended k (k.tasks i)) (he : k.Enabled s) :
    Attended (k.next s) ((k.next s).tasks i) := by
  by_cases hw : ∃ h, s = .walk h
  · obtain ⟨h, rfl⟩ := hw
    rw [walk_row he]
    exact wakeIrq_attended ht
  · have hw : ∀ h, s ≠ .walk h := fun h hs => hw ⟨h, hs⟩
    have hrow := next_row k s i
    generalize (k.next s).tasks i = t' at hrow ⊢
    cases hrow with
    | same => exact ht.keep he hw
    | expire =>
      by_cases hb : ((k.tasks i).expire k.ticks).state = .blocked
      · rw [Task.expire_of_blocked hb]
        exact ht.keep he hw
      · exact attended_of_not_blocked hb
    | wake h hs => exact absurd hs (hw h)
    | trap h f hs hcur =>
      subst hs
      refine attended_of_not_blocked (hk.running h i hcur ?_)
      rw [he.1]
      trivial
    | own h mem caps hs hcur hphase =>
      subst hs
      refine (serve_own k.tasks i k.ticks k.extIrqs caps mem).attended ?_
        (hk.running h i hcur (by rw [hphase]; trivial))
      rw [Kernel.next, hcur, hphase]
      rfl
    | sent _ _ cur msg _ _ _ _ _ hrecv =>
      exact attended_of_not_blocked (Task.push_not_blocked msg (receiver_spec hrecv).2.2.2)
    | kill => exact attended_of_not_blocked TaskState.noConfusion
    | launch spec build =>
      cases build with
      | none => exact ht.keep he hw
      | some b => exact attended_of_not_blocked TaskState.noConfusion
    | reset hr hreset => exact hreset.attended (ht.keep he hw)

theorem Reachable.attended (hk : Reachable Calm k) (i : Slot) : Attended k (k.tasks i) := by
  induction hk with
  | boot b => exact attended_of_not_blocked TaskState.noConfusion
  | step s hk he hs ih => exact attended_next (hk.orderly fun _ _ hs => hs) ih he

/-- In every reachable state a task parked in a receive has an empty mailbox, and a task
parked for an interrupt that has been counted since has a handler that owes its walk. -/
theorem no_lost_wakeup (hk : Reachable Calm k) (i : Slot) (hb : (k.tasks i).state = .blocked) :
    ((k.tasks i).Calls .recv ∨ (k.tasks i).Calls .recvTimeout → (k.tasks i).mailbox.count = 0) ∧
      ((k.tasks i).Calls .irqWait → (k.tasks i).irqSeen < k.extIrqs →
        ∃ h, (k.phase h).IsHandling) :=
  ⟨(hk.attended i).mail hb, fun hcalls => ((hk.attended i).irq hb hcalls).2⟩

end

def irqWaiter : List (Section Hart) :=
  [.wipe, .launch 0 callSpec (some (callBuild 16)), .claimFirst, .install 0] ++
    call 0 (callFrame 10 0 0 0) ++ [.peek 0, .interrupt 0]

theorem no_lost_wakeup_waiter :
    Allowed Calm (Kernel.boot 0) irqWaiter ∧
      (((Kernel.boot 0).after irqWaiter).tasks 0).state = .blocked ∧
      (((Kernel.boot 0).after irqWaiter).tasks 0).Calls .irqWait ∧
      (((Kernel.boot 0).after irqWaiter).tasks 0).irqSeen < ((Kernel.boot 0).after irqWaiter).extIrqs ∧
      ∃ h, (((Kernel.boot 0).after irqWaiter).phase h).IsHandling := by
  have hrun : Allowed Calm (Kernel.boot 0) irqWaiter := by decide +kernel
  have hb : (((Kernel.boot 0).after irqWaiter).tasks 0).state = .blocked := by decide +kernel
  have hcalls : (((Kernel.boot 0).after irqWaiter).tasks 0).Calls .irqWait := by decide +kernel
  have hseen : (((Kernel.boot 0).after irqWaiter).tasks 0).irqSeen <
      ((Kernel.boot 0).after irqWaiter).extIrqs := by decide +kernel
  exact ⟨hrun, hb, hcalls, hseen,
    (no_lost_wakeup ((Reachable.boot 0).run hrun) 0 hb).2 hcalls hseen⟩

end Dezh.Scheduler

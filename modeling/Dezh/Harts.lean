import Dezh.Scheduler

/-!
# Harts in the scheduler

What each hart does around the tables: the boot hart sets up rows from the console and
enters the scheduler, secondary harts join it while it is open, and a hart in it traps,
serves, reschedules and leaves. A hart's phase says where it is between two sections;
its current task is its claim, and its root is the address space it works in. The claim
and the root do not change together: a hart that enters claims first, and a hart that
leaves drops its claim first.
-/
namespace Dezh.Scheduler
open TaskTable PackageTasks

/-- Where a hart goes back to from a device interrupt: the console, its task, or its wait
for a device. -/
inductive Resume where
  | out
  | user
  | idle
  deriving DecidableEq, Repr

/-- Where a hart is between two sections. -/
inductive Phase where
  /-- On the console, or a secondary outside the scheduler. -/
  | out
  /-- A secondary that has found the scheduler open. -/
  | passed
  /-- A task is claimed, its address space is not installed yet. -/
  | entering (root : Root)
  | user
  /-- A system call has read the capabilities of its task. -/
  | trap (caps : ℕ)
  | resched
  | idle
  /-- A device interrupt is counted, its walk is to come. -/
  | handling (resume : Resume)
  /-- The claim is dropped, the address space is still installed. -/
  | leaving
  deriving DecidableEq, Repr

namespace Phase

def IsEntering : Phase → Prop
  | entering _ => True
  | _ => False

def IsTrap : Phase → Prop
  | trap _ => True
  | _ => False

def IsHandling : Phase → Prop
  | handling _ => True
  | _ => False

instance (p : Phase) : Decidable p.IsEntering := by
  cases p
  all_goals
    unfold IsEntering
    infer_instance

instance (p : Phase) : Decidable p.IsTrap := by
  cases p
  all_goals
    unfold IsTrap
    infer_instance

instance (p : Phase) : Decidable p.IsHandling := by
  cases p
  all_goals
    unfold IsHandling
    infer_instance

def resume : Phase → Resume
  | user => .user
  | idle => .idle
  | _ => .out

end Phase

def Resume.phase : Resume → Phase
  | out => .out
  | user => .user
  | idle => .idle

/-- The tasks, and what each hart runs and does. -/
structure Kernel (H : Type) where
  bootHart : H
  tasks : Tasks
  ticks : ℕ
  extIrqs : ℕ
  current : H → Option Slot
  phase : H → Phase
  satp : H → Root
  smpOn : Bool

/-- The steps of the harts. -/
inductive Section (H : Type) where
  | setSmp (on : Bool)
  | wipe
  | launch (i : Slot) (spec : ProcessSpec) (build : Option Build)
  | claimFirst
  | runTasks (specs : List BakedSpec)
  | reclaim (i : Slot)
  | spawn (i : Slot) (spec : ProcessSpec) (build : Option Build)
  | clearForeground
  | enter (i : Slot)
  | reclaimDone (first : ℕ)
  | tick
  | check (h : H)
  | claimSecondary (h : H)
  | install (h : H)
  | trap (h : H) (f : Frame)
  | serve (h : H) (mem : ℕ → UInt8)
  | fault (h : H)
  | timer (h : H)
  | interrupt (h : H)
  | walk (h : H)
  | peek (h : H)
  | pick (h : H)
  | leave (h : H)

variable {H : Type}

namespace Kernel

def boot (b : H) [DecidableEq H] : Kernel H where
  bootHart := b
  tasks := fun _ => .empty
  ticks := 0
  extIrqs := 0
  current := fun _ => none
  phase := fun _ => .out
  satp := fun h => if h = b then .kernel else .bare
  smpOn := false

def expireRecvTimeouts (k : Kernel H) : Kernel H :=
  { k with tasks := fun i => (k.tasks i).expire k.ticks }

section
variable [Fintype H] [DecidableEq H]

def ClaimedElsewhere (k : Kernel H) (h : H) (i : Slot) : Prop :=
  ∃ h', h' ≠ h ∧ k.current h' = some i

instance (k : Kernel H) (h : H) (i : Slot) : Decidable (k.ClaimedElsewhere h i) :=
  inferInstanceAs (Decidable (∃ h', h' ≠ h ∧ k.current h' = some i))

/-- Only the boot hart runs a task in the kernel's address space. -/
def RunnableHere (k : Kernel H) (h : H) (i : Slot) : Prop :=
  h = k.bootHart ∨ (k.tasks i).satp ≠ .kernel

instance (k : Kernel H) (h : H) (i : Slot) : Decidable (k.RunnableHere h i) :=
  inferInstanceAs (Decidable (_ ∨ _))

def candidates (k : Kernel H) (h : H) : List Slot :=
  let start := match k.current h with
    | none => 0
    | some cur => cur.val + 1
  (List.range maxTasks).map fun off => Fin.ofNat maxTasks (start + off)

def pickNext (k : Kernel H) (h : H) : Option Slot :=
  (k.candidates h).find? fun i =>
    decide ((k.tasks i).state = .ready ∧ ¬ k.ClaimedElsewhere h i ∧ k.RunnableHere h i)

theorem pickNext_spec {k : Kernel H} {h : H} {i : Slot} (hpick : k.pickNext h = some i) :
    (k.tasks i).state = .ready ∧ ¬ k.ClaimedElsewhere h i ∧ k.RunnableHere h i := by
  have hfound := List.find?_some hpick
  exact of_decide_eq_true hfound

end

def anyIrqWaiting (k : Kernel H) : Bool :=
  (List.finRange maxTasks).any fun i => (k.tasks i).irqWaiting && (k.tasks i).state == .blocked

section
variable [DecidableEq H]

def setTask (k : Kernel H) (i : Slot) (t : Task) : Kernel H :=
  { k with tasks := Function.update k.tasks i t }

def setPhase (k : Kernel H) (h : H) (p : Phase) : Kernel H :=
  { k with phase := Function.update k.phase h p }

def claim (k : Kernel H) (h : H) (i : Option Slot) : Kernel H :=
  { k with current := Function.update k.current h i }

def installRoot (k : Kernel H) (h : H) (r : Root) : Kernel H :=
  { k with satp := Function.update k.satp h r }

def claimNext [Fintype H] (k : Kernel H) (h : H) : Kernel H :=
  let k := k.expireRecvTimeouts
  match k.pickNext h with
  | some i => (k.claim h (some i)).setPhase h (.entering (k.tasks i).satp)
  | none => k.setPhase h .out

def reschedule [Fintype H] (k : Kernel H) (h : H) : Kernel H :=
  let k := k.expireRecvTimeouts
  match k.pickNext h with
  | some i => ((k.claim h (some i)).installRoot h (k.tasks i).satp).setPhase h .user
  | none => (k.claim h none).setPhase h .leaving

def homeRoot (k : Kernel H) (h : H) : Root := if h = k.bootHart then .kernel else .bare

def serveOn (k : Kernel H) (h : H) (cur : Slot) (caps : ℕ) (mem : ℕ → UInt8) : Kernel H :=
  let r := serve k.tasks cur k.ticks k.extIrqs caps mem
  { k with tasks := r.tasks }.setPhase h (if r.answer.isSome then .user else .resched)

def next [Fintype H] (k : Kernel H) : Section H → Kernel H
  | .setSmp on => { k with smpOn := on }
  | .wipe => { k with tasks := fun i => (k.tasks i).wipe }
  | .launch i spec build => k.setTask i ((k.tasks i).launch spec build)
  | .claimFirst => k.claimNext k.bootHart
  | .runTasks specs =>
    ({ k with tasks := fun i => match specs[i.val]? with
        | some spec => (k.tasks i).bake spec
        | none => (k.tasks i).wipe }.claim k.bootHart (some 0)).setPhase k.bootHart .user
  | .reclaim i => k.setTask i (k.tasks i).reclaim
  | .spawn i spec build => k.setTask i ((k.tasks i).spawn spec build)
  | .clearForeground =>
    { k with tasks := fun i =>
        if firstForegroundTask ≤ i.val then (k.tasks i).clearForeground else k.tasks i }
  | .enter i =>
    (k.claim k.bootHart (some i)).setPhase k.bootHart (.entering (k.tasks i).satp)
  | .reclaimDone first =>
    { k with tasks := fun i =>
        if first ≤ i.val ∧ (k.tasks i).state = .done then (k.tasks i).reclaim else k.tasks i }
  | .tick => { k with ticks := k.ticks + 1 }
  | .check h => if k.smpOn then k.setPhase h .passed else k
  | .claimSecondary h => k.claimNext h
  | .install h =>
    match k.phase h with
    | .entering r => (k.installRoot h r).setPhase h .user
    | _ => k
  | .trap h f =>
    match k.current h with
    | some i => (k.setTask i ((k.tasks i).trap f k.ticks)).setPhase h (.trap (k.tasks i).caps)
    | none => k
  | .serve h mem =>
    match k.current h, k.phase h with
    | some i, .trap caps => k.serveOn h i caps mem
    | _, _ => k
  | .fault h =>
    match k.current h with
    | some i => (k.setTask i ((k.tasks i).kill sysDenied)).setPhase h .resched
    | none => k
  | .timer h => { k with ticks := k.ticks + 1 }.setPhase h .resched
  | .interrupt h =>
    { k with extIrqs := k.extIrqs + 1 }.setPhase h (.handling (k.phase h).resume)
  | .walk h =>
    match k.phase h with
    | .handling resume =>
      { k with tasks := fun i => (k.tasks i).wakeIrq }.setPhase h resume.phase
    | _ => k
  | .peek h =>
    let k := k.expireRecvTimeouts
    k.setPhase h (if k.pickNext h = none ∧ k.anyIrqWaiting then .idle else .resched)
  | .pick h => k.reschedule h
  | .leave h => (k.installRoot h (k.homeRoot h)).setPhase h .out

def Enabled (k : Kernel H) : Section H → Prop
  | .setSmp _ | .wipe | .launch _ _ _ | .claimFirst | .runTasks _ | .reclaim _ | .spawn _ _ _
  | .clearForeground | .enter _ | .reclaimDone _ | .tick => k.phase k.bootHart = .out
  | .check h => h ≠ k.bootHart ∧ k.phase h = .out
  | .claimSecondary h => h ≠ k.bootHart ∧ k.phase h = .passed
  | .install h => (k.phase h).IsEntering
  | .trap h f => k.phase h = .user ∧ ∃ i, k.current h = some i ∧ (k.tasks i).CanTrap f
  | .serve h _ => (k.phase h).IsTrap
  | .fault h | .timer h => k.phase h = .user
  | .interrupt h => k.phase h = .user ∨ h = k.bootHart ∧ (k.phase h = .idle ∨ k.phase h = .out)
  | .walk h => (k.phase h).IsHandling
  | .peek h => h = k.bootHart ∧ (k.phase h = .resched ∨ k.phase h = .idle)
  | .pick h => k.phase h = .resched ∨ h = k.bootHart ∧ k.phase h = .idle
  | .leave h => k.phase h = .leaving

instance (k : Kernel H) (s : Section H) : Decidable (k.Enabled s) := by
  cases s
  all_goals
    unfold Enabled
    infer_instance

end

end Kernel

section
variable [Fintype H] [DecidableEq H]

/-- The kernels that steps with property `Q` lead to, from boot. -/
inductive Reachable (Q : Kernel H → Section H → Prop) : Kernel H → Prop
  | boot (b : H) : Reachable Q (.boot b)
  | step {k : Kernel H} (s : Section H) : Reachable Q k → k.Enabled s → Q k s →
      Reachable Q (k.next s)

def Allowed (Q : Kernel H → Section H → Prop) (k : Kernel H) : List (Section H) → Prop
  | [] => True
  | s :: run => k.Enabled s ∧ Q k s ∧ Allowed Q (k.next s) run

instance {Q : Kernel H → Section H → Prop} [∀ k s, Decidable (Q k s)] (k : Kernel H)
    (run : List (Section H)) : Decidable (Allowed Q k run) := by
  induction run generalizing k with
  | nil => exact isTrue trivial
  | cons s run ih => exact @instDecidableAnd _ _ _ (@instDecidableAnd _ _ _ (ih _))

def Kernel.after (k : Kernel H) (run : List (Section H)) : Kernel H := run.foldl Kernel.next k

theorem Reachable.run {Q : Kernel H → Section H → Prop} {k : Kernel H} {run : List (Section H)}
    (h : Reachable Q k) (ha : Allowed Q k run) : Reachable Q (k.after run) := by
  induction run generalizing k with
  | nil => exact h
  | cons s run ih => exact ih (h.step s ha.1 ha.2.1) ha.2.2

end

end Dezh.Scheduler

import Dezh.Harts

/-!
# The scheduler works on the task table

A task of the scheduler has a row of the task table: its registers and its address space
are left out, and its ring of messages is the list of them. What a step of a hart does to
the tasks is an operation of the table on their rows, and a system call is the system call
of the table.
-/
namespace Dezh.Scheduler
open Function TaskTable PackageTasks RingBuffer

namespace Task

def row (t : Task) : Row (List UInt8) where
  state := t.state
  caps := t.caps
  mailbox := t.mailbox.toList
  exit := t.exit
  recvWaiting := t.recvWaiting
  recvDeadline := t.recvDeadline
  irqWaiting := t.irqWaiting
  frames := t.frames.length

/-- The system call of the table that the registers of a task ask for. -/
def call (t : Task) (irqs : ℕ) : Syscall :=
  let f := t.frame
  if t.linux then
    match LinuxSys.ofNumber f.a7 with
    | .exit => .exit f.a0
    | _ => .other
  else
    match Sys.ofNumber f.a7 with
    | .yield => .yield
    | .exit => .exit f.a0
    | .send => .send f.a0 f.a3
    | .recv => .recv
    | .recvTimeout => .recvTimeout f.a2
    | .irqWait => .irqWait (irqs % 2 ^ 64 ≠ f.a0)
    | _ => .other

section
variable (t : Task)

theorem mailbox_row_eq_nil : t.row.mailbox = [] ↔ ¬ 0 < t.mailbox.count := by
  rw [row, ← List.length_eq_zero_iff, Ring.length_toList, Nat.pos_iff_ne_zero, not_not]

theorem row_reclaim : t.reclaim.row = t.row.reclaim := by
  have hiff : t.row.frames = 0 ↔ t.frames = [] := List.length_eq_zero_iff
  rw [reclaim, Row.reclaim]
  by_cases h : t.frames = []
  · rw [if_pos h, if_pos (hiff.mpr h)]
    rfl
  · rw [if_neg h, if_neg (mt hiff.mp h)]
    rfl

theorem row_wipe : t.wipe.row = t.row.wipe := by
  rw [Row.wipe, ← row_reclaim]
  rfl

theorem row_clearForeground : t.clearForeground.row = t.row.clearForeground := by
  rw [Row.clearForeground, ← row_wipe]
  rfl

theorem row_bake (spec : BakedSpec) : (t.bake spec).row = t.row.bake spec.caps := by
  rw [Row.bake, ← row_wipe]
  rfl

theorem row_spawn (spec : ProcessSpec) (build : Option Build) :
    (t.spawn spec build).row = t.row.spawn (build.map (·.frames.length)) spec.caps := by
  cases build <;> rfl

theorem row_launch (spec : ProcessSpec) (build : Option Build) :
    (t.launch spec build).row = t.row.launch (build.map (·.frames.length)) spec.caps := by
  cases build <;> rfl

theorem row_expire (ticks : ℕ) : (t.expire ticks).row = t.row.expire ticks := by
  have hiff : t.Expired ticks ↔ t.row.recvWaiting = true ∧ t.row.state = .blocked ∧
    t.row.recvDeadline ≤ ticks := .rfl
  rw [expire, Row.expire]
  by_cases h : t.Expired ticks
  · rw [if_pos h, if_pos (hiff.mp h)]
    by_cases hcount : 0 < t.mailbox.count
    · rw [if_pos hcount, if_neg (mt t.mailbox_row_eq_nil.mp (not_not.mpr hcount))]
      rfl
    · rw [if_neg hcount, if_pos (t.mailbox_row_eq_nil.mpr hcount)]
      rfl
  · rw [if_neg h, if_neg (mt hiff.mpr h)]

theorem row_wakeIrq : t.wakeIrq.row = t.row.wakeIrq := by
  have hirq : t.row.irqWaiting = t.irqWaiting := rfl
  rw [wakeIrq, Row.wakeIrq, hirq]
  by_cases h : t.irqWaiting = true
  · rw [if_pos h, if_pos h]
    rfl
  · rw [if_neg h, if_neg h]

theorem row_push (msg : Message) (h : t.mailbox.count < mailboxDepth) :
    (t.push msg).row = t.row.push msg := by
  rw [push, dif_pos h, row, Row.push, Ring.toList_push]
  rfl

theorem row_take {msg : Message} {rest : List Message} (h : t.row.mailbox = msg :: rest) :
    0 < t.mailbox.count ∧ t.take.row = t.row.take msg rest := by
  have hcount : 0 < t.mailbox.count := by
    by_contra hnot
    rw [t.mailbox_row_eq_nil.mpr hnot] at h
    cases h
  rw [row, Ring.toList_pop _ emptyIpcMessage hcount] at h
  obtain ⟨rfl, rfl⟩ := List.cons.inj h
  rw [take, dif_pos hcount]
  exact ⟨hcount, rfl⟩

end

end Task

/-- The task table of the scheduler. -/
def rows (tasks : Tasks) : Table (List UInt8) := fun i => (tasks i).row

theorem rows_update (tasks : Tasks) (i : Slot) (t : Task) :
    rows (update tasks i t) = update (rows tasks) i t.row := by
  funext j
  by_cases hj : j = i
  · rw [hj, rows, update_self, update_self]
  · rw [rows, update_of_ne hj, update_of_ne hj, rows]

section
variable (tasks : Tasks) (cur : Slot) (ticks irqs caps : ℕ) (mem : ℕ → UInt8)

/-- The message and the registers of a task are no part of its row. -/
theorem rows_answered (f : Frame) : rows (update tasks cur ((tasks cur).answered f)) = rows tasks := by
  rw [rows_update]
  exact update_eq_self_iff.mpr rfl

theorem sendMessage_rows : sendMessage (rows tasks) cur caps (tasks cur).frame.a0
    (tasks cur).frame.a3 (tasks cur).frame.a4 (outgoing tasks cur caps mem).tag =
      (receiver tasks cur).map fun dest =>
        update (rows tasks) dest ((tasks dest).push (outgoing tasks cur caps mem)).row := by
  have hstate (i : Slot) : (rows tasks i).state = (tasks i).state := rfl
  have hlen (i : Slot) : (rows tasks i).mailbox.length = (tasks i).mailbox.count :=
    Ring.length_toList _
  simp only [sendMessage, receiver, hstate, hlen]
  split_ifs with hlt hgone hfull
  · rfl
  · rfl
  · rw [Option.map_some, Task.row_push _ _ (lt_of_le_of_ne (Ring.count_le _) hfull)]
    rfl
  · rfl

theorem receive_rows {msg : Message} {rest : List Message}
    (h : (rows tasks cur).mailbox = msg :: rest) :
    rows (receive tasks cur).tasks = update (rows tasks) cur ((rows tasks cur).take msg rest) :=
  (rows_update tasks cur _).trans (congrArg _ ((tasks cur).row_take h).2)

/-- A system call of the scheduler is the system call of the task table. -/
theorem serve_rows :
    rows (serve tasks cur ticks irqs caps mem).tasks =
      (syscall (rows tasks) ticks cur caps ((tasks cur).call irqs) (tasks cur).frame.a4
        (outgoing tasks cur caps mem).tag).2 := by
  unfold serve Task.call
  dsimp only
  by_cases hlinux : (tasks cur).linux = true
  · rw [if_pos hlinux, if_pos hlinux, linuxCall]
    cases hsys : LinuxSys.ofNumber (tasks cur).frame.a7 with
    | exit => exact rows_update tasks cur _
    | write =>
      dsimp only
      split_ifs <;> exact rows_answered tasks cur _
    | unknown => exact rows_answered tasks cur _
  · rw [if_neg hlinux, if_neg hlinux, native]
    cases hsys : Sys.ofNumber (tasks cur).frame.a7 with
    | yield | exit => exact rows_update tasks cur _
    | null | printnum | report | unknown => exact rows_answered tasks cur _
    | print | uptime =>
      simp only [print, uptime]
      split_ifs <;> exact rows_answered tasks cur _
    | send =>
      simp only [send, syscall]
      by_cases hipc : caps &&& taskIpc = 0
      · rw [if_pos hipc, if_pos hipc]
        exact rows_answered tasks cur _
      · rw [if_neg hipc, if_neg hipc, sendMessage_rows]
        cases receiver tasks cur with
        | none => exact rows_answered tasks cur _
        | some dest => exact (rows_answered _ cur _).trans (rows_update tasks dest _)
    | recv =>
      simp only [recv, syscall]
      by_cases hipc : caps &&& taskIpc = 0
      · rw [if_pos hipc, if_pos hipc]
        exact rows_answered tasks cur _
      · rw [if_neg hipc, if_neg hipc, eq_comm]
        split
        · next msg rest heq =>
          rw [if_pos ((tasks cur).row_take heq).1, receive_rows tasks cur heq]
        · next heq =>
          rw [if_neg ((tasks cur).mailbox_row_eq_nil.mp heq), eq_comm]
          exact rows_update tasks cur _
    | recvTimeout =>
      simp only [recvTimeout, syscall]
      by_cases hipc : caps &&& taskIpc = 0
      · rw [if_pos hipc, if_pos hipc]
        exact rows_answered tasks cur _
      · rw [if_neg hipc, if_neg hipc, eq_comm]
        split
        · next msg rest heq =>
          rw [if_pos ((tasks cur).row_take heq).1, receive_rows tasks cur heq]
        · next heq =>
          rw [if_neg ((tasks cur).mailbox_row_eq_nil.mp heq), eq_comm]
          split_ifs with htimeout
          · exact rows_answered tasks cur _
          · exact rows_update tasks cur _
    | irqWait =>
      simp only [irqWait, syscall, decide_eq_true_eq]
      split_ifs with hmoved
      · exact rows_answered tasks cur _
      · exact rows_update tasks cur _

end

variable {H : Type}

/-- What a step does to the task table. -/
def Kernel.tableStep (k : Kernel H) (t : Table (List UInt8)) : Section H → Table (List UInt8)
  | .wipe => fun i => (t i).wipe
  | .launch i spec build => update t i ((t i).launch (build.map (·.frames.length)) spec.caps)
  | .runTasks specs => fun i => match specs[i.val]? with
    | some spec => (t i).bake spec.caps
    | none => (t i).wipe
  | .reclaim i => update t i (t i).reclaim
  | .spawn i spec build => update t i ((t i).spawn (build.map (·.frames.length)) spec.caps)
  | .clearForeground => fun i =>
    if firstForegroundTask ≤ i.val then (t i).clearForeground else t i
  | .reclaimDone first => fun i =>
    if first ≤ i.val ∧ (t i).state = .done then (t i).reclaim else t i
  | .claimFirst | .claimSecondary _ | .peek _ | .pick _ => fun i => (t i).expire k.ticks
  | .serve h mem =>
    match k.current h, k.phase h with
    | some i, .trap caps => (syscall t k.ticks i caps ((k.tasks i).call k.extIrqs)
        (k.tasks i).frame.a4 (outgoing k.tasks i caps mem).tag).2
    | _, _ => t
  | .fault h =>
    match k.current h with
    | some i => update t i (t i).fault
    | none => t
  | .walk h =>
    match k.phase h with
    | .handling _ => fun i => (t i).wakeIrq
    | _ => t
  | _ => t

variable (k : Kernel H)

theorem rows_expireRecvTimeouts :
    rows k.expireRecvTimeouts.tasks = fun i => (rows k.tasks i).expire k.ticks :=
  funext fun i => (k.tasks i).row_expire k.ticks

/-- The tasks after a step have the rows that the table has after it. -/
theorem next_rows [Fintype H] [DecidableEq H] (s : Section H) :
    rows (k.next s).tasks = k.tableStep (rows k.tasks) s := by
  cases s with
  | setSmp | enter | tick | timer | interrupt | leave => rfl
  | wipe => exact funext fun i => (k.tasks i).row_wipe
  | launch i spec build =>
    exact (rows_update _ i _).trans (congrArg _ ((k.tasks i).row_launch spec build))
  | reclaim i => exact (rows_update _ i _).trans (congrArg _ (k.tasks i).row_reclaim)
  | spawn i spec build =>
    exact (rows_update _ i _).trans (congrArg _ ((k.tasks i).row_spawn spec build))
  | runTasks specs =>
    funext i
    simp only [Kernel.next, Kernel.tableStep, Kernel.claim, Kernel.setPhase, rows]
    cases specs[i.val]? with
    | some spec => exact (k.tasks i).row_bake spec
    | none => exact (k.tasks i).row_wipe
  | clearForeground =>
    funext i
    simp only [Kernel.next, Kernel.tableStep, rows]
    split
    · exact (k.tasks i).row_clearForeground
    · rfl
  | reclaimDone first =>
    funext i
    have hstate : (rows k.tasks i).state = (k.tasks i).state := rfl
    simp only [Kernel.next, Kernel.tableStep, hstate]
    simp only [rows]
    split
    · exact (k.tasks i).row_reclaim
    · rfl
  | claimFirst | claimSecondary | peek | pick =>
    simp only [Kernel.next, Kernel.claimNext, Kernel.reschedule]
    rw [Kernel.tableStep, ← rows_expireRecvTimeouts]
    first | rfl | (split <;> rfl)
  | check | install =>
    simp only [Kernel.next]
    split <;> rfl
  | trap h f =>
    simp only [Kernel.next]
    split
    · exact (rows_update _ _ _).trans (update_eq_self_iff.mpr rfl)
    · rfl
  | serve h mem =>
    simp only [Kernel.next, Kernel.tableStep]
    cases k.current h with
    | none => rfl
    | some i =>
      cases k.phase h with
      | trap caps => exact serve_rows k.tasks i k.ticks k.extIrqs caps mem
      | _ => rfl
  | fault h =>
    simp only [Kernel.next, Kernel.tableStep]
    cases k.current h with
    | none => rfl
    | some i => exact rows_update _ i _
  | walk h =>
    simp only [Kernel.next, Kernel.tableStep]
    cases k.phase h with
    | handling => exact funext fun i => (k.tasks i).row_wakeIrq
    | _ => rfl

end Dezh.Scheduler

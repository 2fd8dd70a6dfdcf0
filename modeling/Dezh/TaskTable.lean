import Mathlib.Algebra.GroupWithZero.Nat
import Dezh.PackageTasks

/-!
# The task table

The rows of the kernel's task table and what each section under the scheduler
lock does to them: clearing and launching rows, the mailbox operations, and the
second half of every system call. A message carries a grant cut down to the
capabilities its sender holds; receiving it adds the grant to the receiver's row.
-/
namespace Dezh.TaskTable
open Function PackageTasks

def maxTasks : ℕ := 4

instance : NeZero maxTasks := ⟨by decide⟩

def mailboxDepth : ℕ := 4

def sysDenied : ℕ := 2 ^ 64 - 1

abbrev Slot := Fin maxTasks

inductive TaskState where
  | unused | ready | blocked | done
  deriving DecidableEq, Repr

structure IpcMessage (τ : Type) where
  sender : Slot
  grant : ℕ
  senderCaps : ℕ
  word : ℕ
  tag : τ

/-- What the system calls read and write of a task. -/
structure Row (τ : Type) where
  state : TaskState
  caps : ℕ
  mailbox : List (IpcMessage τ)
  exit : ℕ
  recvWaiting : Bool
  recvDeadline : ℕ
  irqWaiting : Bool
  frames : ℕ

abbrev Table (τ : Type) := Slot → Row τ

variable {τ : Type}

namespace Row

def empty : Row τ := ⟨.unused, 0, [], 0, false, 0, false, 0⟩

def clearMailbox (t : Row τ) : Row τ :=
  { t with mailbox := [], recvWaiting := false, recvDeadline := 0 }

def reclaim (t : Row τ) : Row τ :=
  if t.frames = 0 then t else { t.clearMailbox with frames := 0, caps := 0 }

/-- The row of a process after its launch; `build` is the number of frames of its
address space, or `none` when the frames did not suffice. -/
def spawn (t : Row τ) (build : Option ℕ) (caps : ℕ) : Row τ :=
  match build with
  | some frames => { t.clearMailbox with state := .ready, caps, exit := 0, frames }
  | none => { t.clearMailbox with state := .unused }

def wipe (t : Row τ) : Row τ := { t.reclaim.clearMailbox with state := .unused }

def clearForeground (t : Row τ) : Row τ := { t.wipe with caps := 0, exit := 0 }

/-- The launch inside `run_processes`, after the table setup. It does not touch
the mailbox. -/
def launch (t : Row τ) (build : Option ℕ) (caps : ℕ) : Row τ :=
  match build with
  | some frames => { t with state := .ready, caps, frames }
  | none => t

def bake (t : Row τ) (caps : ℕ) : Row τ := { t.wipe with state := .ready, caps, frames := 0 }

def expire (ticks : ℕ) (t : Row τ) : Row τ :=
  if t.recvWaiting ∧ t.state = .blocked ∧ t.recvDeadline ≤ ticks then
    { t with recvWaiting := false, state := .ready,
             recvDeadline := if t.mailbox = [] then 0 else t.recvDeadline }
  else t

def wakeIrq (t : Row τ) : Row τ :=
  if t.irqWaiting then
    { t with irqWaiting := false, state := if t.state = .blocked then .ready else t.state }
  else t

def fault (t : Row τ) : Row τ := { t with state := .done, exit := sysDenied }

def push (t : Row τ) (msg : IpcMessage τ) : Row τ :=
  { t with
    mailbox := t.mailbox ++ [msg]
    recvWaiting := if t.state = .blocked then false else t.recvWaiting
    state := if t.state = .blocked then .ready else t.state }

def take (t : Row τ) (msg : IpcMessage τ) (rest : List (IpcMessage τ)) : Row τ :=
  { t with mailbox := rest, caps := t.caps ||| msg.grant }

section
variable (t : Row τ)

@[simp]
theorem wakeIrq_mailbox : t.wakeIrq.mailbox = t.mailbox := by
  unfold wakeIrq
  split <;> rfl

@[simp]
theorem wakeIrq_caps : t.wakeIrq.caps = t.caps := by
  unfold wakeIrq
  split <;> rfl

@[simp]
theorem wakeIrq_exit : t.wakeIrq.exit = t.exit := by
  unfold wakeIrq
  split <;> rfl

theorem wakeIrq_state {state : TaskState} (hb : state ≠ .blocked) (hr : state ≠ .ready) :
    t.wakeIrq.state = state ↔ t.state = state := by
  unfold wakeIrq
  split
  · dsimp only
    split_ifs with hs
    · rw [hs]
      exact iff_of_false hr.symm hb.symm
    · exact .rfl
  · exact .rfl

end

end Row

instance {t : Row τ} : Decidable (t.mailbox = []) :=
  decidable_of_iff (t.mailbox.isEmpty = true) List.isEmpty_iff

/-- What a system call asks for. The number of device interrupts has moved on or
not when a task asks to wait for one. -/
inductive Syscall where
  | yield
  | exit (code : ℕ)
  | send (dest requested : ℕ)
  | recv
  | recvTimeout (timeout : ℕ)
  | irqWait (moved : Bool)
  | other

/-- What the calling task finds when it runs again. -/
inductive Reply (τ : Type) where
  | resumed
  | gone
  | sent
  | denied
  | message (msg : IpcMessage τ)
  | parked
  | timeout

/-- The enqueueing section of a send, with the capabilities that the calling task
was found to hold in the section before. -/
def sendMessage (t : Table τ) (cur : Slot) (caps dest requested word : ℕ) (tag : τ) :
    Option (Table τ) :=
  if h : dest < maxTasks then
    let r := t ⟨dest, h⟩
    if r.state = .unused ∨ r.state = .done then none
    else if r.mailbox.length = mailboxDepth then none
    else some (update t ⟨dest, h⟩ (r.push ⟨cur, requested &&& caps, caps, word, tag⟩))
  else none

def syscall (t : Table τ) (ticks : ℕ) (cur : Slot) (caps : ℕ) (call : Syscall) (word : ℕ)
    (tag : τ) : Reply τ × Table τ :=
  match call with
  | .yield => (.resumed, update t cur { t cur with state := .ready })
  | .exit code => (.gone, update t cur { t cur with state := .done, exit := code })
  | .send dest requested =>
    if caps &&& taskIpc = 0 then (.denied, t)
    else match sendMessage t cur caps dest requested word tag with
      | some t' => (.sent, t')
      | none => (.denied, t)
  | .recv =>
    if caps &&& taskIpc = 0 then (.denied, t)
    else match (t cur).mailbox with
      | msg :: rest => (.message msg, update t cur ((t cur).take msg rest))
      | [] => (.parked, update t cur { t cur with state := .blocked })
  | .recvTimeout timeout =>
    if caps &&& taskIpc = 0 then (.denied, t)
    else match (t cur).mailbox with
      | msg :: rest => (.message msg, update t cur ((t cur).take msg rest))
      | [] =>
        if timeout = 0 then (.timeout, t)
        else (.parked, update t cur
          { t cur with
            recvWaiting := true
            recvDeadline := min (ticks + timeout) (2 ^ 64 - 1)
            state := .blocked })
  | .irqWait moved =>
    if moved then (.resumed, t)
    else (.parked, update t cur { t cur with irqWaiting := true, state := .blocked })
  | .other => (.resumed, t)

section
variable (t : Table τ) (ticks : ℕ) (cur : Slot) (caps : ℕ) (word : ℕ) (tag : τ)

theorem syscall_send_cases (dest requested : ℕ) :
    (∃ d : Slot, dest = d.val ∧ (t d).state ≠ .unused ∧ (t d).state ≠ .done ∧
        syscall t ticks cur caps (.send dest requested) word tag = (.sent, update t d
          ((t d).push ⟨cur, requested &&& caps, caps, word, tag⟩))) ∨
      syscall t ticks cur caps (.send dest requested) word tag = (.denied, t) := by
  simp only [syscall, sendMessage]
  split_ifs with hipc hlt hstate hfull
  · exact .inr rfl
  · exact .inr rfl
  · exact .inr rfl
  · exact .inl ⟨⟨dest, hlt⟩, rfl, fun h => hstate (.inl h), fun h => hstate (.inr h), rfl⟩
  · exact .inr rfl

theorem syscall_recv_cases :
    (∃ msg rest, (t cur).mailbox = msg :: rest ∧ syscall t ticks cur caps .recv word tag =
        (.message msg, update t cur ((t cur).take msg rest))) ∨
      syscall t ticks cur caps .recv word tag =
        (.parked, update t cur { t cur with state := .blocked }) ∨
      syscall t ticks cur caps .recv word tag = (.denied, t) := by
  simp only [syscall]
  split_ifs with hipc
  · exact .inr (.inr rfl)
  · cases hm : (t cur).mailbox with
    | nil => exact .inr (.inl rfl)
    | cons msg rest => exact .inl ⟨msg, rest, rfl, rfl⟩

end

end Dezh.TaskTable

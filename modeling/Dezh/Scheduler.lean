import Mathlib.Data.Fintype.Basic
import Dezh.RingBuffer
import Dezh.TaskTable

/-!
# The scheduler

The tables of the scheduler with their saved registers, ring mailboxes and address
spaces, and the harts that work on them. Every section under the scheduler lock is one
step; what happens between two sections and matters to another hart is a step of its
own: the enable check of a secondary hart, and the switch of the address space.
-/
namespace Dezh.Scheduler
open Function TaskTable PackageTasks RingBuffer ByteLayout

/-- The root of an address space: none, the kernel's own, or that of a process. -/
inductive Root where
  | bare
  | kernel
  | proc (frame : ℕ)
  deriving DecidableEq, Repr

/-- The saved registers that the kernel looks at. -/
structure Frame where
  a0 : ℕ
  a1 : ℕ
  a2 : ℕ
  a3 : ℕ
  a4 : ℕ
  a7 : ℕ
  sepc : ℕ
  deriving DecidableEq, Repr

abbrev Message := IpcMessage (List UInt8)

def emptyIpcMessage : Message := ⟨0, 0, 0, 0, []⟩

abbrev Mailbox := Ring Message mailboxDepth

def emptyMailbox : Mailbox := .empty emptyIpcMessage (by decide)

/-- A loaded program: its root, its frames, its entry, and where its text has a system
call. -/
structure Build where
  root : ℕ
  frames : List ℕ
  entry : ℕ
  text : ℕ → Bool

structure ProcessSpec where
  caps : ℕ
  linux : Bool
  arg0 : ℕ
  arg1 : ℕ
  arg2 : ℕ
  arg3 : ℕ

/-- A task of the kernel image. -/
structure BakedSpec where
  entry : ℕ
  caps : ℕ
  linux : Bool
  text : ℕ → Bool

/-- A task with its registers and its address space. -/
structure Task where
  state : TaskState
  caps : ℕ
  linux : Bool
  exit : ℕ
  mailbox : Mailbox
  recvWaiting : Bool
  recvDeadline : ℕ
  irqWaiting : Bool
  frame : Frame
  satp : Root
  frames : List ℕ
  text : ℕ → Bool
  /-- The tick at which the open call was made. -/
  calling : Option ℕ
  /-- The interrupts counted when the task was parked for one. -/
  irqSeen : ℕ

abbrev Tasks := Slot → Task

/-- The native system calls. -/
inductive Sys where
  | exit | print | uptime | yield | null | report | send | recv | printnum | recvTimeout | irqWait
  | unknown
  deriving DecidableEq, Repr

def Sys.ofNumber : ℕ → Sys
  | 0 => .exit
  | 1 => .print
  | 2 => .uptime
  | 3 => .yield
  | 4 => .null
  | 5 => .report
  | 6 => .send
  | 7 => .recv
  | 8 => .printnum
  | 9 => .recvTimeout
  | 10 => .irqWait
  | _ => .unknown

inductive LinuxSys where
  | write | exit | unknown
  deriving DecidableEq, Repr

def LinuxSys.ofNumber : ℕ → LinuxSys
  | 64 => .write
  | 93 | 94 => .exit
  | _ => .unknown

def ipcStatusTimeout : ℕ := 3

def usizeMax : ℕ := 2 ^ 64 - 1

def timeoutWord : ℕ := BlockDaemon.ipcProtoV1 <<< 56 ||| 2 <<< 40 ||| ipcStatusTimeout <<< 16

namespace Frame

def timeout (f : Frame) : Frame := { f with a0 := ipcStatusTimeout, a1 := usizeMax, a2 := timeoutWord }

def rewind (f : Frame) : Frame := { f with sepc := f.sepc - 4 }

def entering (entry : ℕ) (spec : ProcessSpec) : Frame :=
  ⟨spec.arg0, spec.arg1, spec.arg2, spec.arg3, 0, 0, entry⟩

end Frame

namespace Task

def empty : Task where
  state := .unused
  caps := 0
  linux := false
  exit := 0
  mailbox := emptyMailbox
  recvWaiting := false
  recvDeadline := 0
  irqWaiting := false
  frame := ⟨0, 0, 0, 0, 0, 0, 0⟩
  satp := .bare
  frames := []
  text := fun _ => false
  calling := none
  irqSeen := 0

def clearMailbox (t : Task) : Task :=
  { t with mailbox := emptyMailbox, recvWaiting := false, recvDeadline := 0 }

def reclaim (t : Task) : Task :=
  if t.frames = [] then { t with satp := .bare }
  else { t.clearMailbox with frames := [], satp := .bare, caps := 0, linux := false }

def wipe (t : Task) : Task := { t.reclaim with state := .unused }.clearMailbox

def clearForeground (t : Task) : Task := { t.wipe with caps := 0, exit := 0 }

def load (t : Task) (spec : ProcessSpec) (b : Build) : Task :=
  { t with
    state := .ready, caps := spec.caps, linux := spec.linux, frame := .entering b.entry spec
    satp := .proc b.root, frames := b.frames, text := b.text, calling := none }

def spawn (t : Task) (spec : ProcessSpec) : Option Build → Task
  | some b => { t.load spec b with exit := 0 }.clearMailbox
  | none => { t with state := .unused }.clearMailbox

def launch (t : Task) (spec : ProcessSpec) : Option Build → Task
  | some b => t.load spec b
  | none => t

def bake (t : Task) (spec : BakedSpec) : Task :=
  { t.wipe with
    state := .ready, caps := spec.caps, linux := spec.linux
    frame := ⟨0, 0, 0, 0, 0, 0, spec.entry⟩, satp := .kernel, frames := [], text := spec.text
    calling := none }

/-- The deadline of a timed receive has passed. -/
def Expired (ticks : ℕ) (t : Task) : Prop :=
  t.recvWaiting = true ∧ t.state = .blocked ∧ t.recvDeadline ≤ ticks

instance (ticks : ℕ) (t : Task) : Decidable (t.Expired ticks) :=
  inferInstanceAs (Decidable (_ ∧ _ ∧ _))

def answered (t : Task) (f : Frame) : Task := { t with frame := f, calling := none }

def expire (ticks : ℕ) (t : Task) : Task :=
  if t.Expired ticks then
    if 0 < t.mailbox.count then { t with recvWaiting := false, state := .ready }
    else
      { t.answered { t.frame.timeout with sepc := t.frame.sepc + 4 } with
        recvWaiting := false, recvDeadline := 0, state := .ready }
  else t

def wakeIrq (t : Task) : Task :=
  if t.irqWaiting then
    { t with irqWaiting := false, state := if t.state = .blocked then .ready else t.state }
  else t

def push (t : Task) (msg : Message) : Task :=
  if h : t.mailbox.count < mailboxDepth then
    { t with
      mailbox := t.mailbox.push msg h
      recvWaiting := if t.state = .blocked then false else t.recvWaiting
      state := if t.state = .blocked then .ready else t.state }
  else t

def take (t : Task) : Task :=
  if h : 0 < t.mailbox.count then
    let msg := t.mailbox.front
    { t.answered { t.frame with
        a0 := min msg.tag.length t.frame.a1, a1 := msg.sender, a2 := msg.word, a3 := msg.senderCaps }
      with
      mailbox := t.mailbox.pop emptyIpcMessage h
      caps := t.caps ||| msg.grant }
  else t

/-- The task gives up the hart until something wakes it, and then makes its call again. -/
def park (t : Task) : Task := { t with frame := t.frame.rewind, state := .blocked }

def kill (t : Task) (code : ℕ) : Task := { t with state := .done, exit := code, calling := none }

/-- A trap with registers `f`. A call that is made again keeps the tick of its first time. -/
def trap (t : Task) (f : Frame) (ticks : ℕ) : Task :=
  { t with frame := { f with sepc := f.sepc + 4 }, calling := some (t.calling.getD ticks) }

/-- The registers a task can trap with: a system call that its program counter stands on
is made as it is. -/
def CanTrap (t : Task) (f : Frame) : Prop :=
  t.text f.sepc = true ∧ (t.text t.frame.sepc = true → f = t.frame)

instance (t : Task) (f : Frame) : Decidable (t.CanTrap f) :=
  inferInstanceAs (Decidable (_ ∧ (_ → _)))

end Task

/-- What a call returns to its task. -/
inductive Answer where
  | done
  | denied
  | timeout
  | message (msg : Message)

/-- Memory the kernel touches through a pointer of the task. -/
structure Access where
  write : Bool
  addr : ℕ
  len : ℕ
  deriving DecidableEq, Repr

/-- The outcome of a system call. Without an answer the hart looks for another task. -/
structure Served where
  tasks : Tasks
  answer : Option Answer
  console : List UInt8
  access : List Access
  sent : Option (Slot × Message)

section
variable (tasks : Tasks) (cur : Slot)

def reply (f : Frame) (a : Answer) (console : List UInt8) (access : List Access) : Served :=
  ⟨update tasks cur ((tasks cur).answered f), some a, console, access, none⟩

def leaveTask (t : Task) (console : List UInt8) : Served :=
  ⟨update tasks cur t, none, console, [], none⟩

def receive : Served :=
  let t := tasks cur
  let msg := t.mailbox.front
  let n := min msg.tag.length t.frame.a1
  ⟨update tasks cur t.take, some (.message msg), [],
    if n = 0 then [] else [⟨true, t.frame.a0, n⟩], none⟩

def deniedLine (what cap : String) : List UInt8 :=
  ascii ("  [kernel] DENIED " ++ what ++ ": task " ++ toString cur.val ++ " holds no " ++ cap ++
    " capability\n")

def bytesAt (mem : ℕ → UInt8) (addr n : ℕ) : List UInt8 :=
  (List.range n).map fun j => mem (addr + j)

/-- The message of a send: who sends, what is granted and held, the word and the payload. -/
def outgoing (caps : ℕ) (mem : ℕ → UInt8) : Message :=
  let f := (tasks cur).frame
  ⟨cur, f.a3 &&& caps, caps, f.a4, bytesAt mem f.a1 (min f.a2 64)⟩

def receiver : Option Slot :=
  let dest := (tasks cur).frame.a0
  if h : dest < maxTasks then
    let t := tasks ⟨dest, h⟩
    if t.state = .unused ∨ t.state = .done then none
    else if t.mailbox.count = mailboxDepth then none
    else some ⟨dest, h⟩
  else none

def send (caps : ℕ) (mem : ℕ → UInt8) : Served :=
  let f := (tasks cur).frame
  if caps &&& taskIpc = 0 then
    reply tasks cur { f with a0 := sysDenied } .denied (deniedLine cur "send" "IPC") []
  else
    match receiver tasks cur with
    | none => reply tasks cur { f with a0 := sysDenied } .denied [] []
    | some dest =>
      let msg := outgoing tasks cur caps mem
      let pushed := update tasks dest ((tasks dest).push msg)
      let n := min f.a2 64
      { reply pushed cur { f with a0 := 0 } .done []
          (if n = 0 then [] else [⟨false, f.a1, n⟩]) with sent := some (dest, msg) }

def recv (caps : ℕ) : Served :=
  let t := tasks cur
  if caps &&& taskIpc = 0 then
    reply tasks cur { t.frame with a0 := sysDenied } .denied (deniedLine cur "recv" "IPC") []
  else if 0 < t.mailbox.count then receive tasks cur
  else leaveTask tasks cur t.park []

def recvTimeout (ticks caps : ℕ) : Served :=
  let t := tasks cur
  if caps &&& taskIpc = 0 then
    reply tasks cur { t.frame with a0 := sysDenied } .denied (deniedLine cur "recv-timeout" "IPC") []
  else if 0 < t.mailbox.count then receive tasks cur
  else if t.frame.a2 = 0 then reply tasks cur t.frame.timeout .timeout [] []
  else
    leaveTask tasks cur
      { t.park with recvWaiting := true, recvDeadline := min (ticks + t.frame.a2) usizeMax } []

def irqWait (irqs : ℕ) : Served :=
  let t := tasks cur
  if irqs % 2 ^ 64 ≠ t.frame.a0 then
    reply tasks cur { t.frame with a0 := irqs % 2 ^ 64 } .done [] []
  else leaveTask tasks cur { t.park with irqWaiting := true, irqSeen := irqs } []

def print (caps : ℕ) (mem : ℕ → UInt8) : Served :=
  let f := (tasks cur).frame
  if caps &&& taskPrint ≠ 0 then
    reply tasks cur { f with a0 := 0 } .done (bytesAt mem f.a0 f.a1) [⟨false, f.a0, f.a1⟩]
  else reply tasks cur { f with a0 := sysDenied } .denied (deniedLine cur "print" "PRINT") []

def uptime (ticks caps : ℕ) : Served :=
  let f := (tasks cur).frame
  if caps &&& taskTime ≠ 0 then reply tasks cur { f with a0 := ticks } .done [] []
  else reply tasks cur { f with a0 := sysDenied } .denied [] []

def reportLine (ticks iters : ℕ) : List UInt8 :=
  ascii ("  [bench] ecall round-trip: ~" ++ toString (min (ticks * 100) usizeMax / iters) ++
    " ns/call  (" ++ toString ticks ++ " ticks / " ++ toString iters ++
    " calls, QEMU-emulated)\n")

def native (ticks irqs caps : ℕ) (mem : ℕ → UInt8) : Served :=
  let t := tasks cur
  let f := t.frame
  match Sys.ofNumber f.a7 with
  | .yield => leaveTask tasks cur { t with state := .ready, calling := none } []
  | .exit =>
    leaveTask tasks cur (t.kill f.a0) (ascii ("  [kernel] task " ++ toString cur.val ++
      " exited (code " ++ toString f.a0 ++ ")\n"))
  | .print => print tasks cur caps mem
  | .uptime => uptime tasks cur ticks caps
  | .null => reply tasks cur f .done [] []
  | .printnum => reply tasks cur { f with a0 := 0 } .done (ascii (toString f.a0 ++ "\n")) []
  | .report => reply tasks cur { f with a0 := 0 } .done (reportLine f.a0 f.a1) []
  | .send => send tasks cur caps mem
  | .recv => recv tasks cur caps
  | .recvTimeout => recvTimeout tasks cur ticks caps
  | .irqWait => irqWait tasks cur irqs
  | .unknown => reply tasks cur { f with a0 := sysDenied } .denied [] []

def linuxEbadf : ℕ := 2 ^ 64 - 9

def linuxEacces : ℕ := 2 ^ 64 - 13

def linuxEnosys : ℕ := 2 ^ 64 - 38

def linuxCall (caps : ℕ) (mem : ℕ → UInt8) : Served :=
  let t := tasks cur
  let f := t.frame
  match LinuxSys.ofNumber f.a7 with
  | .write =>
    if f.a0 = 1 ∨ f.a0 = 2 then
      if caps &&& taskPrint ≠ 0 then
        reply tasks cur { f with a0 := f.a2 } .done (bytesAt mem f.a1 f.a2) [⟨false, f.a1, f.a2⟩]
      else
        reply tasks cur { f with a0 := linuxEacces } .denied
          (ascii ("  [pol/linux] write(fd=" ++ toString f.a0 ++
            ") DENIED: task lacks PRINT capability -> -EACCES\n")) []
    else reply tasks cur { f with a0 := linuxEbadf } .denied [] []
  | .exit =>
    leaveTask tasks cur (t.kill f.a0)
      (ascii ("  [pol/linux] app exit (code " ++ toString f.a0 ++ ")\n"))
  | .unknown =>
    reply tasks cur { f with a0 := linuxEnosys } .denied
      (ascii ("  [pol/linux] unsupported syscall " ++ toString f.a7 ++ " -> ENOSYS\n")) []

def serve (ticks irqs caps : ℕ) (mem : ℕ → UInt8) : Served :=
  if (tasks cur).linux then linuxCall tasks cur caps mem
  else native tasks cur ticks irqs caps mem

end

end Dezh.Scheduler

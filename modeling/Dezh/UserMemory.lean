import Dezh.Mailboxes

/-!
# The memory a system call touches

Five system calls pass a pointer: a print and a Linux write are read from, a send is read
from, and the two receives are written to. The kernel runs in the address space of the
caller with access to user pages allowed, and takes the pointer as it is. What it touches
follows from the registers, the capabilities and the message at hand: a range in the
caller's own pages is never left, and one in the kernel's is read or written just so.
-/
namespace Dezh.Scheduler
open TaskTable PackageTasks

/-- The pages of an address space that its user may access, and which of them may be
written. -/
structure UserPages where
  user : ℕ → Bool
  writable : ℕ → Bool

/-- All addresses are in user pages, and in writable ones for a write. -/
def Access.Within (pages : UserPages) (a : Access) : Prop :=
  ∀ j < a.len, pages.user ((a.addr + j) % 2 ^ 64 / 4096) = true ∧
    (a.write = true → pages.writable ((a.addr + j) % 2 ^ 64 / 4096) = true)

instance (pages : UserPages) (a : Access) : Decidable (a.Within pages) :=
  inferInstanceAs (Decidable (∀ j < a.len, _))

/-- The memory that a call of the task uses under the capabilities `caps`: nothing if the call
is refused or parked, and no more of a receive buffer than the message fills. -/
def used (tasks : Tasks) (cur : Slot) (caps : ℕ) : List Access :=
  let t := tasks cur
  let f := t.frame
  if t.linux then
    match LinuxSys.ofNumber f.a7 with
    | .write =>
      if (f.a0 = 1 ∨ f.a0 = 2) ∧ caps &&& taskPrint ≠ 0 then [⟨false, f.a1, f.a2⟩] else []
    | _ => []
  else
    match Sys.ofNumber f.a7 with
    | .print => if caps &&& taskPrint ≠ 0 then [⟨false, f.a0, f.a1⟩] else []
    | .send =>
      if caps &&& taskIpc ≠ 0 ∧ (receiver tasks cur).isSome then [⟨false, f.a1, min f.a2 64⟩] else []
    | .recv | .recvTimeout =>
      if caps &&& taskIpc ≠ 0 ∧ 0 < t.mailbox.count then
        [⟨true, f.a0, min t.mailbox.front.tag.length f.a1⟩]
      else []
    | _ => []

section
variable {tasks : Tasks} {cur : Slot} {ticks irqs caps : ℕ} {mem : ℕ → UInt8} {pages : UserPages}

/-- A call touches what it uses, up to empty ranges, and nothing if it is refused. -/
structure Touches (r : Served) (uses : List Access) : Prop where
  access : r.access = uses ∨ r.access = [] ∧ ∀ a ∈ uses, a.len = 0
  refused : r.answer = some .denied → r.access = []

theorem Touches.within_iff {r : Served} {uses : List Access} (h : Touches r uses) :
    (∀ a ∈ r.access, a.Within pages) ↔ ∀ a ∈ uses, a.Within pages := by
  rcases h.access with heq | ⟨hnil, hempty⟩
  · rw [heq]
  · rw [hnil]
    refine iff_of_true (fun a ha => by cases ha) fun a ha j hj => ?_
    rw [hempty a ha] at hj
    cases hj

theorem touches_nil {r : Served} (h : r.access = []) : Touches r [] := ⟨.inl h, fun _ => h⟩

theorem touches_of_answer {r : Served} {a : Access} (haccess : r.access = [a] ∨ r.access = [] ∧ a.len = 0)
    (hanswer : r.answer ≠ some .denied) : Touches r [a] :=
  ⟨haccess.imp_right fun h => ⟨h.1, by simpa using h.2⟩, fun h => absurd h hanswer⟩

theorem receive_touches : Touches (receive tasks cur)
    [⟨true, (tasks cur).frame.a0, min (tasks cur).mailbox.front.tag.length (tasks cur).frame.a1⟩] := by
  refine touches_of_answer ?_ (fun h => by cases h)
  unfold receive
  dsimp only
  split_ifs with hn
  · exact .inr ⟨rfl, hn⟩
  · exact .inl rfl

theorem send_touches : Touches (send tasks cur caps mem)
    (if caps &&& taskIpc ≠ 0 ∧ (receiver tasks cur).isSome then
      [⟨false, (tasks cur).frame.a1, min (tasks cur).frame.a2 64⟩] else []) := by
  unfold send
  dsimp only
  by_cases hipc : caps &&& taskIpc = 0
  · rw [if_pos hipc, if_neg fun h => h.1 hipc]
    exact touches_nil rfl
  · rw [if_neg hipc]
    cases receiver tasks cur with
    | none =>
      have hno : ¬ (caps &&& taskIpc ≠ 0 ∧ (none : Option Slot).isSome) := fun h => by cases h.2
      rw [if_neg hno]
      exact touches_nil rfl
    | some dest =>
      have hyes : caps &&& taskIpc ≠ 0 ∧ (some dest).isSome := ⟨hipc, rfl⟩
      rw [if_pos hyes]
      refine touches_of_answer ?_ (fun h => by cases h)
      dsimp only [reply]
      split_ifs with hn
      · exact .inr ⟨rfl, hn⟩
      · exact .inl rfl

theorem linuxCall_touches (hlinux : (tasks cur).linux = true) :
    Touches (linuxCall tasks cur caps mem) (used tasks cur caps) := by
  unfold linuxCall used
  dsimp only
  rw [if_pos hlinux]
  cases LinuxSys.ofNumber (tasks cur).frame.a7 with
  | write =>
    dsimp only
    by_cases hfd : (tasks cur).frame.a0 = 1 ∨ (tasks cur).frame.a0 = 2
    · rw [if_pos hfd]
      by_cases hprint : caps &&& taskPrint ≠ 0
      · rw [if_pos hprint, if_pos ⟨hfd, hprint⟩]
        exact touches_of_answer (.inl rfl) (fun h => by cases h)
      · rw [if_neg hprint, if_neg fun h => hprint h.2]
        exact touches_nil rfl
    · rw [if_neg hfd, if_neg fun h => hfd h.1]
      exact touches_nil rfl
  | exit | unknown => exact touches_nil rfl

theorem native_touches (hnative : (tasks cur).linux = false) :
    Touches (native tasks cur ticks irqs caps mem) (used tasks cur caps) := by
  unfold native used
  dsimp only
  rw [if_neg (by rw [hnative]; exact Bool.false_ne_true)]
  cases Sys.ofNumber (tasks cur).frame.a7 with
  | yield | exit | null | printnum | report | unknown => exact touches_nil rfl
  | print =>
    unfold print
    dsimp only
    split_ifs
    · exact touches_of_answer (.inl rfl) (fun h => by cases h)
    · exact touches_nil rfl
  | uptime =>
    unfold uptime
    dsimp only
    split_ifs
    all_goals exact touches_nil rfl
  | send => exact send_touches
  | recv =>
    unfold recv
    dsimp only
    by_cases hipc : caps &&& taskIpc = 0
    · rw [if_pos hipc, if_neg fun h => h.1 hipc]
      exact touches_nil rfl
    · rw [if_neg hipc]
      by_cases hmail : 0 < (tasks cur).mailbox.count
      · rw [if_pos hmail, if_pos ⟨hipc, hmail⟩]
        exact receive_touches
      · rw [if_neg hmail, if_neg fun h => hmail h.2]
        exact touches_nil rfl
  | recvTimeout =>
    unfold recvTimeout
    dsimp only
    by_cases hipc : caps &&& taskIpc = 0
    · rw [if_pos hipc, if_neg fun h => h.1 hipc]
      exact touches_nil rfl
    · rw [if_neg hipc]
      by_cases hmail : 0 < (tasks cur).mailbox.count
      · rw [if_pos hmail, if_pos ⟨hipc, hmail⟩]
        exact receive_touches
      · have hno : ¬ (caps &&& taskIpc ≠ 0 ∧ 0 < (tasks cur).mailbox.count) := fun h => hmail h.2
        rw [if_neg hmail, if_neg hno]
        split_ifs
        all_goals exact touches_nil rfl
  | irqWait =>
    unfold irqWait
    dsimp only
    split_ifs
    all_goals exact touches_nil rfl

theorem serve_touches (tasks : Tasks) (cur : Slot) (ticks irqs caps : ℕ) (mem : ℕ → UInt8) :
    Touches (serve tasks cur ticks irqs caps mem) (used tasks cur caps) := by
  unfold serve
  split_ifs with hlinux
  · exact linuxCall_touches hlinux
  · exact native_touches (Bool.eq_false_of_not_eq_true hlinux)

end

variable {H : Type}

/-- A call touches memory of its caller's own pages only, exactly if the range it uses lies in
them; and a refused call touches nothing. A receive that was parked is such a call again when
it is made again. -/
theorem touches_own_memory (pages : UserPages) {k : Kernel H} {h : H} {cur : Slot} {caps : ℕ}
    {mem : ℕ → UInt8} {r : Served} (hphase : k.phase h = .trap caps)
    (hs : k.service (.serve h mem) = some (cur, r)) :
    ((∀ a ∈ r.access, a.Within pages) ↔ ∀ a ∈ used k.tasks cur caps, a.Within pages) ∧
      (r.answer = some .denied → r.access = []) := by
  have htouches : Touches r (used k.tasks cur caps) := by
    rcases service_cases k (.serve h mem) with hnone | ⟨h', mem', cur', caps', heq, -, htrap, hserve⟩
    · rw [hnone] at hs
      cases hs
    · cases heq
      obtain rfl : caps' = caps := Phase.trap.inj (htrap.symm.trans hphase)
      rw [hserve] at hs
      cases hs
      exact serve_touches k.tasks cur k.ticks k.extIrqs caps' mem
  exact ⟨htouches.within_iff, htouches.refused⟩

def onePage : UserPages := ⟨fun page => page == 16, fun page => page == 16⟩

def printSpec : ProcessSpec := ⟨taskPrint ||| taskIpc, false, 0, 0, 0, 0⟩

def oneTask : List (Section Hart) :=
  [.wipe, .launch 0 printSpec (some (callBuild 16)), .claimFirst, .install 0]

def calling (f : Frame) : Kernel Hart := (Kernel.boot 0).after (oneTask ++ [.trap 0 f])

def touched (k : Kernel Hart) : List Access :=
  match k.service (.serve 0 fun _ => 7) with
  | some (_, r) => r.access
  | none => []

/-- A page of the caller's own is printed; without the capability no address is touched,
whatever the caller names. -/
theorem touches_own_memory_page :
    (touched (calling (callFrame 1 65536 16 0))).length = 1 ∧
      (∀ a ∈ touched (calling (callFrame 1 65536 16 0)), a.Within onePage) ∧
      ∀ a ∈ (serve (calling (callFrame 1 0x80200000 16 0)).tasks 0 0 0 0 fun _ => 7).access,
        a.Within onePage := by
  have hs : (calling (callFrame 1 65536 16 0)).service (.serve 0 fun _ => 7) =
      some (0, serve (calling (callFrame 1 65536 16 0)).tasks 0 0 0 (taskPrint ||| taskIpc)
        fun _ => 7) := rfl
  let k := { calling (callFrame 1 0x80200000 16 0) with phase := fun _ => .trap 0 }
  have hbare : k.service (.serve 0 fun _ => 7) = some (0, serve k.tasks 0 0 0 0 fun _ => 7) := rfl
  exact ⟨by decide +kernel, (touches_own_memory onePage rfl hs).1.mpr (by decide +kernel),
    (touches_own_memory onePage rfl hbare).1.mpr (by decide +kernel)⟩

def kernelBase : ℕ := 0x80200000

def selfSend : List (Section Hart) :=
  oneTask ++ call 0 (callFrame 6 0 65536 8) ++ [.trap 0 (callFrame 7 kernelBase 64 0)]

/-- A print reads the kernel image, and a receive writes it. -/
theorem touches_kernel_memory :
    touched (calling (callFrame 1 kernelBase 16 0)) = [⟨false, kernelBase, 16⟩] ∧
      ¬ (⟨false, kernelBase, 16⟩ : Access).Within onePage ∧
      Allowed (fun _ _ => True) (Kernel.boot 0) selfSend ∧
      touched ((Kernel.boot 0).after selfSend) = [⟨true, kernelBase, 8⟩] ∧
      ¬ (⟨true, kernelBase, 8⟩ : Access).Within onePage := by
  decide +kernel

end Dezh.Scheduler

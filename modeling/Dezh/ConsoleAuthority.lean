import Dezh.HartSteps
import Dezh.Timeouts

/-!
# What a task can print without the capability

Without the print capability a native task still makes the kernel write: the refusals of
print, send and receive are announced, with the row of the task and nothing else. These
lines follow from the number of the call and from whether the task may use messages, which
never changes while it lives. Two calls print their arguments without a look at the
capabilities: the number of `SYS_PRINTNUM` and the measurement of `SYS_REPORT`. Without
these two, all that a task prints is determined by the numbers of its calls.
-/
namespace Dezh.Scheduler
open TaskTable PackageTasks

variable {ipc : Bool}

def Sys.refusal (cur : Slot) (ipc : Bool) : Sys → List UInt8
  | .print => deniedLine cur "print" "PRINT"
  | .send => if ipc then [] else deniedLine cur "send" "IPC"
  | .recv => if ipc then [] else deniedLine cur "recv" "IPC"
  | .recvTimeout => if ipc then [] else deniedLine cur "recv-timeout" "IPC"
  | _ => []

def refusalLine (cur : Slot) (ipc : Bool) (number : ℕ) : List UInt8 :=
  (Sys.ofNumber number).refusal cur ipc

/-- The capabilities allow messages exactly if `ipc`. -/
def HoldsIpc (ipc : Bool) (caps : ℕ) : Prop := (caps &&& taskIpc ≠ 0) ↔ ipc = true

section
variable {tasks : Tasks} {cur : Slot} {ticks irqs caps : ℕ} {mem : ℕ → UInt8}

/-- The console line of a call is the line of its number, and a call that is not answered
has none. -/
def Announced (tasks : Tasks) (cur : Slot) (ipc : Bool) (r : Served) : Prop :=
  r.console = refusalLine cur ipc (tasks cur).frame.a7 ∧ (r.answer.isSome ∨ r.console = [])

theorem HoldsIpc.cases (h : HoldsIpc ipc caps) :
    caps &&& taskIpc = 0 ∧ ipc = false ∨ caps &&& taskIpc ≠ 0 ∧ ipc = true := by
  by_cases hcaps : caps &&& taskIpc = 0
  · exact .inl ⟨hcaps, Bool.eq_false_of_not_eq_true fun hyes => h.mpr hyes hcaps⟩
  · exact .inr ⟨hcaps, h.mp hcaps⟩

theorem send_announced (hsys : Sys.ofNumber (tasks cur).frame.a7 = .send)
    (hipc : HoldsIpc ipc caps) :
    Announced tasks cur ipc (send tasks cur caps mem) := by
  rw [Announced, refusalLine, hsys, send]
  rcases hipc.cases with ⟨hcaps, rfl⟩ | ⟨hcaps, rfl⟩
  · rw [if_pos hcaps]
    exact ⟨rfl, .inl rfl⟩
  · rw [if_neg hcaps]
    cases receiver tasks cur with
    | none | some dest => exact ⟨rfl, .inl rfl⟩

theorem recv_announced (hsys : Sys.ofNumber (tasks cur).frame.a7 = .recv)
    (hipc : HoldsIpc ipc caps) :
    Announced tasks cur ipc (recv tasks cur caps) := by
  rw [Announced, refusalLine, hsys, recv]
  rcases hipc.cases with ⟨hcaps, rfl⟩ | ⟨hcaps, rfl⟩
  · rw [if_pos hcaps]
    exact ⟨rfl, .inl rfl⟩
  · rw [if_neg hcaps]
    split_ifs
    all_goals exact ⟨rfl, .inr rfl⟩

theorem recvTimeout_announced (hsys : Sys.ofNumber (tasks cur).frame.a7 = .recvTimeout)
    (hipc : HoldsIpc ipc caps) : Announced tasks cur ipc (recvTimeout tasks cur ticks caps) := by
  rw [Announced, refusalLine, hsys, recvTimeout]
  rcases hipc.cases with ⟨hcaps, rfl⟩ | ⟨hcaps, rfl⟩
  · rw [if_pos hcaps]
    exact ⟨rfl, .inl rfl⟩
  · rw [if_neg hcaps]
    split_ifs
    all_goals exact ⟨rfl, .inr rfl⟩

theorem serve_announced (hnative : (tasks cur).linux = false) (hprint : caps &&& taskPrint = 0)
    (hipc : HoldsIpc ipc caps) (hexit : ¬ (tasks cur).Calls .exit)
    (hnum : ¬ (tasks cur).Calls .printnum) (hreport : ¬ (tasks cur).Calls .report) :
    Announced tasks cur ipc (serve tasks cur ticks irqs caps mem) := by
  rw [serve, if_neg (by rw [hnative]; exact Bool.false_ne_true), native]
  cases hsys : Sys.ofNumber (tasks cur).frame.a7 with
  | exit => exact absurd ⟨hnative, hsys⟩ hexit
  | printnum => exact absurd ⟨hnative, hsys⟩ hnum
  | report => exact absurd ⟨hnative, hsys⟩ hreport
  | send => exact send_announced hsys hipc
  | recv => exact recv_announced hsys hipc
  | recvTimeout => exact recvTimeout_announced hsys hipc
  | print =>
    rw [Announced, refusalLine, hsys, print, if_neg (Decidable.not_not.mpr hprint)]
    exact ⟨rfl, .inl rfl⟩
  | uptime =>
    rw [Announced, refusalLine, hsys, uptime]
    split_ifs
    all_goals exact ⟨rfl, .inr rfl⟩
  | irqWait =>
    rw [Announced, refusalLine, hsys, irqWait]
    split_ifs
    all_goals exact ⟨rfl, .inr rfl⟩
  | yield | null | unknown =>
    rw [Announced, refusalLine, hsys]
    exact ⟨rfl, .inr rfl⟩

end

variable {H : Type}

namespace Kernel

def prints (k : Kernel H) (s : Section H) (i : Slot) : List UInt8 :=
  match k.service s with
  | some (cur, r) => if cur = i then r.console else []
  | none => []

/-- The number of the call that row `i` has left its hart in, if it is in one. -/
def leaves (k : Kernel H) (s : Section H) (i : Slot) (left : Option ℕ) : Option ℕ :=
  match k.service s with
  | some (cur, r) =>
    if cur = i then if r.answer.isSome then none else some (k.tasks i).frame.a7 else left
  | none => if (k.answers s i).isSome then none else left

/-- The number of the call that returns to row `i`: one that is answered, a yield, or the one
that it has left its hart in, when the deadline of that has passed. -/
def returns (k : Kernel H) (s : Section H) (i : Slot) (left : Option ℕ) : List ℕ :=
  match k.service s with
  | some (cur, r) =>
    if cur = i ∧ (r.answer.isSome ∨ (k.tasks i).Calls .yield) then [(k.tasks i).frame.a7] else []
  | none => if (k.answers s i).isSome then left.toList else []

variable [Fintype H] [DecidableEq H]

def console (k : Kernel H) (i : Slot) : List (Section H) → List UInt8
  | [] => []
  | s :: run => k.prints s i ++ (k.next s).console i run

def numbersFrom (k : Kernel H) (i : Slot) (left : Option ℕ) : List (Section H) → List ℕ
  | [] => []
  | s :: run => k.returns s i left ++ (k.next s).numbersFrom i (k.leaves s i left) run

/-- The numbers of the calls that return to row `i`, in order. -/
def numbers (k : Kernel H) (i : Slot) (run : List (Section H)) : List ℕ := k.numbersFrom i none run

end Kernel

/-- The task of row `i` lives on, native and without the print capability. -/
def Unprivileged (i : Slot) (k : Kernel H) (s : Section H) : Prop :=
  ¬ k.Resets s i ∧
    match s with
    | .serve h _ => k.current h = some i → (k.tasks i).linux = false ∧ ¬ (k.tasks i).Calls .exit ∧
        match k.phase h with
        | .trap caps => caps &&& taskPrint = 0
        | _ => True
    | .fault h => k.current h ≠ some i
    | _ => True

/-- The task makes neither of the two calls that print their arguments. -/
def Silent (i : Slot) (k : Kernel H) (s : Section H) : Prop :=
  match s with
  | .serve h _ => k.current h = some i →
      ¬ (k.tasks i).Calls .printnum ∧ ¬ (k.tasks i).Calls .report
  | _ => True

instance (i : Slot) (k : Kernel H) (s : Section H) : Decidable (Unprivileged i k s) := by
  unfold Unprivileged
  rcases s with _ | _
  case serve h mem =>
    dsimp only
    rcases k.phase h with _ | _
    all_goals infer_instance
  all_goals infer_instance

instance (i : Slot) (k : Kernel H) (s : Section H) : Decidable (Silent i k s) := by
  unfold Silent
  rcases s with _ | _
  all_goals infer_instance

/-- Row `i` may use messages exactly if `ipc`, and so may every call of it. -/
structure KeepsIpc (ipc : Bool) (i : Slot) (k : Kernel H) : Prop where
  row : HoldsIpc ipc (k.tasks i).caps
  calls : ∀ h caps, k.current h = some i → k.phase h = .trap caps → HoldsIpc ipc caps

section
variable [Fintype H] [DecidableEq H] {k : Kernel H} {s : Section H} {i : Slot}

theorem holdsIpc_or {caps grant : ℕ} (h : caps &&& taskIpc ≠ 0) :
    (caps ||| grant) &&& taskIpc ≠ 0 := by
  intro hzero
  rw [Nat.and_or_distrib_right] at hzero
  exact h (Nat.or_eq_zero_iff.mp hzero).1

theorem OwnStep.holdsIpc {t t' : Task} {ticks irqs caps : ℕ} {a : Option Answer}
    (h : OwnStep t ticks irqs caps a t') (hrow : HoldsIpc ipc t.caps) (hcaps : HoldsIpc ipc caps) :
    HoldsIpc ipc t'.caps := by
  cases h with
  | took _ hmail hipc =>
    have hyes := hcaps.mp hipc
    rw [Task.take, dif_pos hmail]
    exact ⟨fun _ => hyes, fun _ => holdsIpc_or (hrow.mpr hyes)⟩
  | sent f msg =>
    have hsame : ((t.push msg).answered f).caps = t.caps := by
      change (t.push msg).caps = t.caps
      unfold Task.push
      split_ifs <;> rfl
    rwa [hsame]
  | _ => exact hrow

theorem KeepsIpc.next (hk : KeepsIpc ipc i k) (he : k.Enabled s) (hr : ¬ k.Resets s i) :
    KeepsIpc ipc i (k.next s) := by
  constructor
  · have hrow := next_row k s i
    generalize (k.next s).tasks i = t' at hrow ⊢
    cases hrow with
    | expire =>
      unfold Task.expire
      split_ifs
      all_goals exact hk.row
    | wake =>
      unfold Task.wakeIrq
      split_ifs
      all_goals exact hk.row
    | own h mem caps _ hcur hphase =>
      exact (serve_own k.tasks i k.ticks k.extIrqs caps mem).holdsIpc hk.row
        (hk.calls h caps hcur hphase)
    | sent _ _ cur msg =>
      unfold Task.push
      split_ifs
      all_goals exact hk.row
    | launch spec build hs => exact absurd (hs ▸ rfl : k.Resets s i) hr
    | reset hreset => exact absurd hreset hr
    | _ => exact hk.row
  · intro h caps hcur hphase
    obtain ⟨hold, htrap | ⟨f, rfl⟩⟩ := next_trapped he hcur hphase
    · exact hk.calls h caps hold htrap
    · rw [Kernel.next, hold] at hphase
      simp only [Kernel.setPhase, Function.update_self] at hphase
      cases hphase
      exact hk.row

omit [Fintype H] [DecidableEq H] in
/-- A call that the task has left its hart in has no line, so nothing is missing when it is
answered later. -/
theorem prints_eq {left : Option ℕ} (hk : KeepsIpc ipc i k) (hs : Unprivileged i k s)
    (hsilent : Silent i k s) (hleft : ∀ n ∈ left, refusalLine i ipc n = []) :
    k.prints s i = (k.returns s i left).flatMap (refusalLine i ipc) ∧
      ∀ n ∈ k.leaves s i left, refusalLine i ipc n = [] := by
  unfold Kernel.prints Kernel.returns Kernel.leaves
  rcases service_cases k s with hnone | ⟨h, mem, cur, caps, rfl, hcur, hphase, heq⟩
  · rw [hnone]
    dsimp only
    split
    · refine ⟨?_, nofun⟩
      cases left with
      | none => rfl
      | some n => exact (hleft n rfl).symm.trans (List.flatMap_singleton ..).symm
    · exact ⟨rfl, hleft⟩
  · rw [heq]
    dsimp only
    by_cases hi : cur = i
    · subst hi
      obtain ⟨hnative, hexit, hprint⟩ := hs.2 hcur
      rw [hphase] at hprint
      obtain ⟨hnum, hreport⟩ := hsilent hcur
      obtain ⟨hline, hsome⟩ : Announced k.tasks cur ipc (serve k.tasks cur k.ticks k.extIrqs caps mem) :=
        serve_announced hnative hprint (hk.calls h caps hcur hphase) hexit hnum hreport
      rw [if_pos rfl, if_pos rfl]
      by_cases ha : (serve k.tasks cur k.ticks k.extIrqs caps mem).answer.isSome
      · rw [if_pos ha, if_pos ⟨rfl, .inl ha⟩, List.flatMap_singleton]
        exact ⟨hline, nofun⟩
      · have hnil := hsome.resolve_left ha
        rw [hnil] at hline ⊢
        rw [if_neg ha]
        refine ⟨?_, fun n hn => ?_⟩
        · split
          · rw [List.flatMap_singleton]
            exact hline
          · rfl
        · cases hn
          exact hline.symm
    · rw [if_neg hi, if_neg fun h => hi h.1, if_neg hi]
      exact ⟨rfl, hleft⟩

theorem console_eq {run : List (Section H)} {left : Option ℕ} (hk : KeepsIpc ipc i k)
    (hleft : ∀ n ∈ left, refusalLine i ipc n = [])
    (hrun : Allowed (fun k s => Unprivileged i k s ∧ Silent i k s) k run) :
    k.console i run = (k.numbersFrom i left run).flatMap (refusalLine i ipc) := by
  induction run generalizing k left with
  | nil => rfl
  | cons s run ih =>
    obtain ⟨he, ⟨hs, hsilent⟩, hrun⟩ := hrun
    obtain ⟨hprints, hleaves⟩ := prints_eq hk hs hsilent hleft
    rw [Kernel.console, Kernel.numbersFrom, List.flatMap_append, hprints,
      ih (hk.next he hs.1) hleaves hrun]

/-- Two runs of a native task without the print capability, from the same capabilities and
with the same numbers of the calls that return to it, print the same, if it makes neither
`SYS_PRINTNUM` nor `SYS_REPORT`. -/
theorem console_same {k' : Kernel H} {run run' : List (Section H)}
    (hcaps : (k'.tasks i).caps = (k.tasks i).caps) (hfree : ∀ h, k.current h ≠ some i)
    (hfree' : ∀ h, k'.current h ≠ some i)
    (hrun : Allowed (fun k s => Unprivileged i k s ∧ Silent i k s) k run)
    (hrun' : Allowed (fun k s => Unprivileged i k s ∧ Silent i k s) k' run')
    (hnumbers : k'.numbers i run' = k.numbers i run) : k'.console i run' = k.console i run := by
  have hrow : HoldsIpc (decide ((k.tasks i).caps &&& taskIpc ≠ 0)) (k.tasks i).caps :=
    decide_eq_true_iff.symm
  have hk : KeepsIpc _ i k := ⟨hrow, fun h _ hcur => absurd hcur (hfree h)⟩
  have hk' : KeepsIpc (decide ((k.tasks i).caps &&& taskIpc ≠ 0)) i k' :=
    ⟨hcaps ▸ hrow, fun h _ hcur => absurd hcur (hfree' h)⟩
  have hnone {ipc : Bool} : ∀ n ∈ (none : Option ℕ), refusalLine i ipc n = [] := nofun
  have hnumbers : k'.numbersFrom i none run' = k.numbersFrom i none run := hnumbers
  rw [console_eq hk hnone hrun, console_eq hk' hnone hrun', hnumbers]

end

def bareSpec : ProcessSpec := ⟨0, false, 0, 0, 0, 0⟩

def bareTask : List (Section Hart) := [.wipe, .launch 0 bareSpec (some (callBuild 16))]

def oneCall (f : Frame) : List (Section Hart) := [.claimFirst, .install 0] ++ call 0 f

def listeners : List (Section Hart) :=
  [.wipe, .launch 0 callSpec (some (callBuild 16)), .launch 1 callSpec (some (callBuild 32))]

/-- A timed receive that does not wait, and one whose deadline passes, each with a call after
it. -/
def polled : List (Section Hart) :=
  oneCall (callFrame 9 0 64 0) ++ call 0 (callFrame 4 0 0 0)

def waited : List (Section Hart) :=
  oneCall (callFrame 9 0 64 1) ++ [.pick 0, .timer 0, .pick 0] ++ call 0 (callFrame 4 0 0 0)

theorem console_same_timeout :
    ((Kernel.boot 0).after listeners).numbers 0 polled = [9, 4] ∧
      ((Kernel.boot 0).after listeners).numbers 0 waited = [9, 4] ∧
      ((Kernel.boot 0).after listeners).console 0 waited =
        ((Kernel.boot 0).after listeners).console 0 polled := by
  refine ⟨by decide +kernel, by decide +kernel, console_same rfl ?_ ?_ ?_ ?_ ?_⟩
  all_goals decide +kernel

/-- A number of the task's choice on the console, without any capability. -/
theorem console_differs :
    Allowed (Unprivileged 0) ((Kernel.boot 0).after bareTask) (oneCall (callFrame 8 1 0 0)) ∧
      Allowed (Unprivileged 0) ((Kernel.boot 0).after bareTask) (oneCall (callFrame 8 2 0 0)) ∧
      ((Kernel.boot 0).after bareTask).numbers 0 (oneCall (callFrame 8 1 0 0)) =
        ((Kernel.boot 0).after bareTask).numbers 0 (oneCall (callFrame 8 2 0 0)) ∧
      ((Kernel.boot 0).after bareTask).console 0 (oneCall (callFrame 8 1 0 0)) ≠
        ((Kernel.boot 0).after bareTask).console 0 (oneCall (callFrame 8 2 0 0)) := by
  decide +kernel

end Dezh.Scheduler

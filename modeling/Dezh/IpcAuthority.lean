import Mathlib.Data.Fintype.Basic
import Dezh.TaskTable

/-!
# Authority passed between tasks

Any number of harts serve one task table. Every section under the scheduler lock
is one step, so a system call is two: the first reads the capabilities of the
calling task, the second acts on what was read. The console clears and launches
rows in between, on its own hart.
-/
namespace Dezh.IpcAuthority
open Function TaskTable PackageTasks

variable {bit : ℕ} {i : Slot}

structure Occupant where
  slot : Slot
  gen : ℕ
  deriving DecidableEq, Repr

variable {o : Occupant}

/-- Who sent a message, what the row of the sender held when the message was
queued, and which occupant of the receiving row it was queued for. -/
structure Tag where
  origin : Occupant
  held : ℕ
  target : ℕ

/-- What a hart carries from the first section of a system call to the second. -/
structure Pending where
  caps : ℕ
  gen : ℕ

variable {H : Type}

/-- The task table, and who was launched and has received what. -/
structure Kernel (H : Type) where
  task : Table Tag
  current : H → Option Slot
  pending : H → Option Pending
  /-- The row that `run_processes` launches next, while it does. -/
  launching : Option ℕ
  ticks : ℕ
  gen : Slot → ℕ
  launches : List (Occupant × ℕ)
  received : List (Occupant × Occupant × ℕ)

namespace Kernel

def boot : Kernel H :=
  ⟨fun _ => .empty, fun _ => none, fun _ => none, none, 0, fun _ => 0, [], []⟩

def occupant (k : Kernel H) (i : Slot) : Occupant := ⟨i, k.gen i⟩

def occupy (k : Kernel H) (i : Slot) (caps : ℕ) : Kernel H :=
  { k with gen := update k.gen i (k.gen i + 1),
           launches := (⟨i, k.gen i + 1⟩, caps) :: k.launches }

def setTask (k : Kernel H) (i : Slot) (t : Row Tag) : Kernel H :=
  { k with task := update k.task i t }

def spawn (k : Kernel H) (i : Slot) (build : Option ℕ) (caps : ℕ) : Kernel H :=
  let k' := k.setTask i ((k.task i).spawn build caps)
  if build.isSome then k'.occupy i caps else k'

def bake (k : Kernel H) (i : Slot) (caps : ℕ) : Kernel H :=
  (k.setTask i ((k.task i).bake caps)).occupy i caps

def launch (k : Kernel H) (i : Slot) (build : Option ℕ) (caps : ℕ) : Kernel H :=
  let k' := k.setTask i ((k.task i).launch build caps)
  if build.isSome then k'.occupy i caps else k'

/-- The tag of a message that `cur` sends: the occupant whose capabilities were
read, what the row holds now, and the occupant of the receiving row. -/
def tagFor (k : Kernel H) (cur : Slot) (p : Pending) : Syscall → Tag
  | .send dest _ =>
    ⟨⟨cur, p.gen⟩, (k.task cur).caps, if h : dest < maxTasks then k.gen ⟨dest, h⟩ else 0⟩
  | _ => ⟨⟨cur, p.gen⟩, (k.task cur).caps, 0⟩

def answer (k : Kernel H) (cur : Slot) : Reply Tag × Table Tag → Kernel H
  | (.message msg, t) =>
    { k with task := t, received := (msg.tag.origin, k.occupant cur, msg.grant) :: k.received }
  | (_, t) => { k with task := t }

def serve (k : Kernel H) (cur : Slot) (p : Pending) (call : Syscall) (word : ℕ) : Kernel H :=
  k.answer cur (syscall k.task k.ticks cur p.caps call word (k.tagFor cur p call))

end Kernel

/-- The sections that run under the scheduler lock. -/
inductive Section (H : Type) where
  | reclaim (i : Slot)
  | spawn (i : Slot) (build : Option ℕ) (caps : ℕ)
  | clearForeground
  | runTasks (caps : List ℕ)
  | wipe
  | launch (build : Option ℕ) (caps : ℕ)
  | launched
  | reclaimDone (first : ℕ)
  | pick (h : H) (choice : Option Slot)
  | enter (h : H) (i : Slot)
  | trap (h : H)
  | serve (h : H) (call : Syscall) (word : ℕ)
  | fault (h : H)
  | tick
  | wakeIrq

namespace Kernel

/-- When a section can come next. The console does one thing at a time; a hart
picks a ready row that no other hart runs, and only the hart that runs a row
traps from it. -/
def Enabled (k : Kernel H) : Section H → Prop
  | .reclaim _ | .spawn _ _ _ | .clearForeground | .runTasks _ | .wipe | .reclaimDone _ =>
    k.launching = none
  | .launch _ _ => ∃ n < maxTasks, k.launching = some n
  | .launched => k.launching ≠ none
  | .pick h choice => k.pending h = none ∧ ∀ i, choice = some i →
      ((k.task i).expire k.ticks).state = .ready ∧ ∀ h', h' ≠ h → k.current h' ≠ some i
  | .enter h i => k.pending h = none ∧ k.current h = none ∧ k.launching = none ∧
      (k.task i).state ≠ .unused
  | .trap h | .fault h => k.pending h = none ∧ k.current h ≠ none
  | .serve h _ _ => k.pending h ≠ none
  | .tick | .wakeIrq => True

def next [DecidableEq H] (k : Kernel H) : Section H → Kernel H
  | .reclaim i => k.setTask i (k.task i).reclaim
  | .spawn i build caps => k.spawn i build caps
  | .clearForeground =>
    { k with task := fun i =>
        if firstForegroundTask ≤ i.val then (k.task i).clearForeground else k.task i }
  | .runTasks caps =>
    let wiped := { k with task := fun i => (k.task i).wipe }
    (List.finRange maxTasks).foldl (fun k' i => match caps[i.val]? with
      | some c => k'.bake i c
      | none => k') wiped
  | .wipe => { k with task := fun i => (k.task i).wipe, launching := some 0 }
  | .launch build caps =>
    match k.launching with
    | some n =>
      if h : n < maxTasks then { k.launch ⟨n, h⟩ build caps with launching := some (n + 1) }
      else k
    | none => k
  | .launched => { k with launching := none }
  | .reclaimDone first =>
    { k with task := fun i =>
        if first ≤ i.val ∧ (k.task i).state = .done then (k.task i).reclaim else k.task i }
  | .pick h choice =>
    { k with task := fun i => (k.task i).expire k.ticks,
             current := update k.current h choice }
  | .enter h i => { k with current := update k.current h (some i) }
  | .trap h =>
    match k.current h with
    | some cur => { k with pending := update k.pending h
                            (some ⟨(k.task cur).caps, k.gen cur⟩) }
    | none => k
  | .serve h call word =>
    match k.current h, k.pending h with
    | some cur, some p =>
      { k.serve cur p call word with pending := update k.pending h none }
    | _, _ => k
  | .fault h =>
    match k.current h with
    | some cur => k.setTask cur (k.task cur).fault
    | none => k
  | .tick => { k with ticks := k.ticks + 1 }
  | .wakeIrq => { k with task := fun i => (k.task i).wakeIrq }

def Resets (k : Kernel H) : Section H → Slot → Prop
  | .reclaim i, j | .spawn i _ _, j => j = i
  | .clearForeground, j => firstForegroundTask ≤ j.val
  | .runTasks _, _ | .wipe, _ => True
  | .launch _ _, j => k.launching = some j.val
  | .reclaimDone first, j => first ≤ j.val ∧ (k.task j).state = .done
  | _, _ => False

/-- No hart runs a row that the section clears or launches. -/
def Quiet (k : Kernel H) (s : Section H) : Prop :=
  ∀ i, k.Resets s i → ∀ h, k.current h ≠ some i

instance (k : Kernel H) (s : Section H) (i : Slot) : Decidable (k.Resets s i) := by
  cases s
  all_goals
    unfold Resets
    infer_instance

instance [Fintype H] (k : Kernel H) (s : Section H) : Decidable (k.Quiet s) :=
  inferInstanceAs (Decidable (∀ i, k.Resets s i → ∀ h, k.current h ≠ some i))

instance [Fintype H] [DecidableEq H] (k : Kernel H) (s : Section H) : Decidable (k.Enabled s) := by
  cases s
  all_goals
    unfold Enabled
    infer_instance

end Kernel

/-- The kernels that sections with property `Q` lead to, from boot. -/
inductive Arises [DecidableEq H] (Q : Kernel H → Section H → Prop) : Kernel H → Prop
  | boot : Arises Q .boot
  | step {k : Kernel H} (s : Section H) : Arises Q k → k.Enabled s → Q k s →
      Arises Q (k.next s)

section
variable [DecidableEq H] {k : Kernel H}

def Admits (Q : Kernel H → Section H → Prop) (k : Kernel H) : List (Section H) → Prop
  | [] => True
  | s :: run => k.Enabled s ∧ Q k s ∧ Admits Q (k.next s) run

instance {Q : Kernel H → Section H → Prop} [Fintype H] [∀ k s, Decidable (Q k s)]
    (k : Kernel H) (run : List (Section H)) : Decidable (Admits Q k run) := by
  induction run generalizing k with
  | nil => exact isTrue trivial
  | cons s run ih => exact @instDecidableAnd _ _ _ (@instDecidableAnd _ _ _ (ih _))

theorem Arises.run {Q : Kernel H → Section H → Prop} {run : List (Section H)}
    (h : Arises Q k) (ha : Admits Q k run) : Arises Q (run.foldl Kernel.next k) := by
  induction run generalizing k with
  | nil => exact h
  | cons s run ih => exact ih (h.step s ha.1 ha.2.1) ha.2.2

end

/-- Every capability of `a` is one of `b`. -/
def Sub (a b : ℕ) : Prop := ∀ bit, a.testBit bit = true → b.testBit bit = true

theorem Sub.refl (a : ℕ) : Sub a a := fun _ h => h

theorem Sub.trans {a b c : ℕ} (hab : Sub a b) (hbc : Sub b c) : Sub a c :=
  fun bit h => hbc bit (hab bit h)

theorem sub_zero (a : ℕ) : Sub 0 a := fun bit h => by
  rw [Nat.zero_testBit] at h
  cases h

theorem sub_or_left (a b : ℕ) : Sub a (a ||| b) := fun bit h => by
  rw [Nat.testBit_or, h, Bool.true_or]

theorem and_sub_right (a b : ℕ) : Sub (a &&& b) b := fun bit h => by
  rw [Nat.testBit_and, Bool.and_eq_true] at h
  exact h.2

/-- A bit an occupant has from its launch, or from a received grant of an
occupant that had it. -/
inductive Derived (k : Kernel H) (bit : ℕ) : Occupant → Prop
  | launch {o : Occupant} {caps : ℕ} :
      (o, caps) ∈ k.launches → caps.testBit bit = true → Derived k bit o
  | grant {o o' : Occupant} {g : ℕ} :
      (o', o, g) ∈ k.received → g.testBit bit = true → Derived k bit o' → Derived k bit o

/-- The bits an occupant was launched with or has received. -/
def Own (k : Kernel H) (o : Occupant) (bit : ℕ) : Prop :=
  (∃ caps, (o, caps) ∈ k.launches ∧ caps.testBit bit = true) ∨
    ∃ o' g, (o', o, g) ∈ k.received ∧ g.testBit bit = true

/-- Passing messages does not amplify authority. -/
structure Sound (k : Kernel H) : Prop where
  attenuated : ∀ i, ∀ msg ∈ (k.task i).mailbox, Sub msg.grant msg.tag.held
  chained : ∀ i bit, (k.task i).caps.testBit bit = true → Derived k bit (k.occupant i)
  queued : ∀ i, ∀ msg ∈ (k.task i).mailbox, ∀ bit, msg.grant.testBit bit = true →
    Derived k bit msg.tag.origin
  own_bits : ∀ i bit, (k.task i).caps.testBit bit = true → Own k (k.occupant i) bit
  own_grants : ∀ i, ∀ msg ∈ (k.task i).mailbox, msg.tag.target = k.gen i ∧
    msg.tag.origin.slot = msg.sender ∧ (msg.sender = i → msg.tag.origin = k.occupant i)

section
variable {t : Table Tag} {ticks caps word : ℕ} {cur : Slot} {call : Syscall} {tag : Tag}

theorem syscall_cases (t : Table Tag) (ticks : ℕ) (cur : Slot) (caps : ℕ) (call : Syscall)
    (word : ℕ) (tag : Tag) :
    (∃ requested, ∃ dest : Slot, call = .send dest.val requested ∧ (t dest).state ≠ .unused ∧
        syscall t ticks cur caps call word tag = (.sent, update t dest
          ((t dest).push ⟨cur, requested &&& caps, caps, word, tag⟩))) ∨
      (∃ msg rest, (t cur).mailbox = msg :: rest ∧ syscall t ticks cur caps call word tag =
        (.message msg, update t cur ((t cur).take msg rest))) ∨
      (∀ msg, (syscall t ticks cur caps call word tag).1 ≠ .message msg) ∧
        ∃ row : Row Tag, (syscall t ticks cur caps call word tag).2 = update t cur row ∧
          row.mailbox = (t cur).mailbox ∧ row.caps = (t cur).caps := by
  have hself : t = update t cur (t cur) := (update_eq_self cur t).symm
  cases call with
  | yield | exit code => exact .inr (.inr ⟨nofun, _, rfl, rfl, rfl⟩)
  | other => exact .inr (.inr ⟨nofun, t cur, hself, rfl, rfl⟩)
  | irqWait moved =>
    cases moved
    · exact .inr (.inr ⟨nofun, _, rfl, rfl, rfl⟩)
    · exact .inr (.inr ⟨nofun, t cur, hself, rfl, rfl⟩)
  | send dest requested =>
    rcases syscall_send_cases t ticks cur caps word tag dest requested with
      ⟨d, rfl, hstate, -, heq⟩ | heq
    · exact .inl ⟨requested, d, rfl, hstate, heq⟩
    · rw [heq]
      exact .inr (.inr ⟨nofun, t cur, hself, rfl, rfl⟩)
  | recv =>
    rcases syscall_recv_cases t ticks cur caps word tag with ⟨msg, rest, hm, heq⟩ | heq | heq
    · exact .inr (.inl ⟨msg, rest, hm, heq⟩)
    · rw [heq]
      exact .inr (.inr ⟨nofun, _, rfl, rfl, rfl⟩)
    · rw [heq]
      exact .inr (.inr ⟨nofun, t cur, hself, rfl, rfl⟩)
  | recvTimeout timeout =>
    simp only [syscall]
    split_ifs with hipc hzero
    · exact .inr (.inr ⟨(fun _ h => by cases h), t cur, hself, rfl, rfl⟩)
    · cases hm : (t cur).mailbox with
      | nil => exact .inr (.inr ⟨(fun _ h => by cases h), t cur, hself, hm, rfl⟩)
      | cons msg rest => exact .inr (.inl ⟨msg, rest, rfl, rfl⟩)
    · cases hm : (t cur).mailbox with
      | nil => exact .inr (.inr ⟨(fun _ h => by cases h), _, rfl, rfl, rfl⟩)
      | cons msg rest => exact .inr (.inl ⟨msg, rest, rfl, rfl⟩)

/-- A row loses messages or capabilities and gains none. -/
structure Shrinks (t t' : Row Tag) : Prop where
  mailbox : ∀ msg ∈ t'.mailbox, msg ∈ t.mailbox
  caps : Sub t'.caps t.caps

theorem Shrinks.refl (t : Row Tag) : Shrinks t t := ⟨fun _ h => h, .refl _⟩

theorem shrinks_reclaim (t : Row Tag) : Shrinks t t.reclaim := by
  unfold Row.reclaim
  split
  · exact .refl t
  · exact ⟨nofun, sub_zero _⟩

theorem shrinks_wipe (t : Row Tag) : Shrinks t t.wipe :=
  ⟨nofun, (shrinks_reclaim t).caps⟩

theorem shrinks_clearForeground (t : Row Tag) : Shrinks t t.clearForeground :=
  ⟨nofun, sub_zero _⟩

theorem expire_same (ticks : ℕ) (t : Row Tag) :
    (t.expire ticks).mailbox = t.mailbox ∧ (t.expire ticks).caps = t.caps ∧
      (t.state = .unused → (t.expire ticks).state = .unused) := by
  unfold Row.expire
  split
  · next h => exact ⟨rfl, rfl, fun hu => absurd (hu.symm.trans h.2.1) (by decide)⟩
  · exact ⟨rfl, rfl, fun hu => hu⟩

end

section
variable {k k' : Kernel H}

theorem Derived.mono (h : Derived k bit o)
    (hl : ∀ e ∈ k.launches, e ∈ k'.launches) (hr : ∀ e ∈ k.received, e ∈ k'.received) :
    Derived k' bit o := by
  induction h with
  | launch hmem hbit => exact .launch (hl _ hmem) hbit
  | grant hmem hbit _ ih => exact .grant (hr _ hmem) hbit ih

theorem Own.mono (h : Own k o bit)
    (hl : ∀ e ∈ k.launches, e ∈ k'.launches) (hr : ∀ e ∈ k.received, e ∈ k'.received) :
    Own k' o bit := by
  rcases h with ⟨caps, hmem, hbit⟩ | ⟨o', g, hmem, hbit⟩
  · exact .inl ⟨caps, hl _ hmem, hbit⟩
  · exact .inr ⟨o', g, hr _ hmem, hbit⟩

/-- What every step keeps, as long as no running row is reset: a hart between the
two sections of a call knows no more capabilities than its row holds. -/
structure Core (k : Kernel H) : Prop where
  attenuated : ∀ i, ∀ msg ∈ (k.task i).mailbox, Sub msg.grant msg.tag.held
  queued : ∀ i, ∀ msg ∈ (k.task i).mailbox, ∀ bit, msg.grant.testBit bit = true →
    Derived k bit msg.tag.origin
  logged : ∀ o' o g, (o', o, g) ∈ k.received → ∀ bit, g.testBit bit = true → Derived k bit o'
  own_bits : ∀ i bit, (k.task i).caps.testBit bit = true → Own k (k.occupant i) bit
  own_grants : ∀ i, ∀ msg ∈ (k.task i).mailbox, msg.tag.target = k.gen i ∧
    msg.tag.origin.slot = msg.sender ∧ (msg.sender = i → msg.tag.origin = k.occupant i)
  pend : ∀ h p, k.pending h = some p →
    ∃ c, k.current h = some c ∧ Sub p.caps (k.task c).caps ∧ p.gen = k.gen c

section
variable (h : Core k)
include h

theorem Core.derived (ho : Own k o bit) : Derived k bit o := by
  rcases ho with ⟨caps, hmem, hbit⟩ | ⟨o', g, hmem, hbit⟩
  · exact .launch hmem hbit
  · exact .grant hmem hbit (h.logged _ _ _ hmem bit hbit)

theorem Core.sound : Sound k where
  attenuated := h.attenuated
  chained := fun i bit hbit => h.derived (h.own_bits i bit hbit)
  queued := h.queued
  own_bits := h.own_bits
  own_grants := h.own_grants

theorem Core.shrink {t : Table Tag} (hs : ∀ i, Shrinks (k.task i) (t i))
    (hcaps : ∀ h' c, k.current h' = some c → Sub (k.task c).caps (t c).caps) :
    Core { k with task := t } where
  attenuated := fun i msg hm => h.attenuated i msg ((hs i).mailbox msg hm)
  queued := fun i msg hm bit hbit =>
    (h.queued i msg ((hs i).mailbox msg hm) bit hbit).mono (fun _ he => he) fun _ he => he
  logged := fun o' o g hmem bit hbit =>
    (h.logged o' o g hmem bit hbit).mono (fun _ he => he) fun _ he => he
  own_bits := fun i bit hbit =>
    (h.own_bits i bit ((hs i).caps bit hbit)).mono (fun _ he => he) fun _ he => he
  own_grants := fun i msg hm => h.own_grants i msg ((hs i).mailbox msg hm)
  pend := fun h' p hp => by
    obtain ⟨c, hc, hsub, hgen⟩ := h.pend h' p hp
    exact ⟨c, hc, hsub.trans (hcaps h' c hc), hgen⟩

theorem Core.occupy {caps : ℕ} {t : Row Tag} (hcaps : t.caps = caps)
    (hmail : t.mailbox = []) (hfree : ∀ h', k.current h' ≠ some i) :
    Core ((k.setTask i t).occupy i caps) := by
  have hl : ∀ e ∈ k.launches, e ∈ ((k.setTask i t).occupy i caps).launches :=
    fun e he => List.mem_cons_of_mem _ he
  have hr : ∀ e ∈ k.received, e ∈ ((k.setTask i t).occupy i caps).received := fun e he => he
  have hother : ∀ j, j ≠ i → ((k.setTask i t).occupy i caps).task j = k.task j ∧
      ((k.setTask i t).occupy i caps).gen j = k.gen j :=
    fun j hj => ⟨update_of_ne hj _ _, update_of_ne hj _ _⟩
  have hself : ((k.setTask i t).occupy i caps).task i = t := update_self _ _ _
  have hgen : ((k.setTask i t).occupy i caps).gen i = k.gen i + 1 := update_self _ _ _
  have hold : ∀ j, ∀ msg ∈ (((k.setTask i t).occupy i caps).task j).mailbox,
      j ≠ i ∧ msg ∈ (k.task j).mailbox := by
    intro j msg hm
    by_cases hj : j = i
    · rw [hj, hself, hmail] at hm
      cases hm
    · rw [(hother j hj).1] at hm
      exact ⟨hj, hm⟩
  constructor
  · exact fun j msg hm => h.attenuated j msg (hold j msg hm).2
  · exact fun j msg hm bit hbit => (h.queued j msg (hold j msg hm).2 bit hbit).mono hl hr
  · exact fun o' o g hmem bit hbit => (h.logged o' o g hmem bit hbit).mono hl hr
  · intro j bit hbit
    by_cases hj : j = i
    · subst hj
      rw [hself, hcaps] at hbit
      refine .inl ⟨caps, ?_, hbit⟩
      rw [Kernel.occupant, hgen]
      exact List.mem_cons_self
    · rw [(hother j hj).1] at hbit
      have := (h.own_bits j bit hbit).mono hl hr
      rwa [Kernel.occupant, ← (hother j hj).2] at this
  · intro j msg hm
    obtain ⟨hj, hm⟩ := hold j msg hm
    rw [Kernel.occupant, (hother j hj).2]
    exact h.own_grants j msg hm
  · intro h' p hp
    obtain ⟨c, hc, hsub, hpg⟩ := h.pend h' p hp
    have hci : c ≠ i := fun he => hfree h' (he ▸ hc)
    refine ⟨c, hc, ?_, ?_⟩
    · rwa [(hother c hci).1]
    · rwa [(hother c hci).2]

theorem Core.push {cur dest : Slot} {msg : IpcMessage Tag} (hsender : msg.sender = cur)
    (horigin : msg.tag.origin = k.occupant cur) (hheld : msg.tag.held = (k.task cur).caps)
    (htarget : msg.tag.target = k.gen dest) (hgrant : Sub msg.grant (k.task cur).caps) :
    Core { k with task := update k.task dest ((k.task dest).push msg) } := by
  have hmail : ∀ i, ∀ m ∈ (update k.task dest ((k.task dest).push msg) i).mailbox,
      m ∈ (k.task i).mailbox ∨ i = dest ∧ m = msg := by
    intro i m hm
    by_cases hi : i = dest
    · rw [hi, update_self] at hm
      rcases List.mem_append.mp hm with hm | hm
      · exact .inl (hi ▸ hm)
      · exact .inr ⟨hi, List.mem_singleton.mp hm⟩
    · rw [update_of_ne hi] at hm
      exact .inl hm
  have hcaps : ∀ i, (update k.task dest ((k.task dest).push msg) i).caps =
      (k.task i).caps := by
    intro i
    by_cases hi : i = dest
    · rw [hi, update_self]
      rfl
    · rw [update_of_ne hi]
  have hsame : ∀ {bit o}, Derived k bit o →
      Derived { k with task := update k.task dest ((k.task dest).push msg) } bit o :=
    fun hd => hd.mono (fun _ he => he) fun _ he => he
  constructor
  · intro i m hm
    rcases hmail i m hm with hm | ⟨-, rfl⟩
    · exact h.attenuated i m hm
    · rwa [hheld]
  · intro i m hm bit hbit
    rcases hmail i m hm with hm | ⟨-, rfl⟩
    · exact hsame (h.queued i m hm bit hbit)
    · rw [horigin]
      exact hsame (h.derived (h.own_bits cur bit (hgrant bit hbit)))
  · exact fun o' o g hmem bit hbit => hsame (h.logged o' o g hmem bit hbit)
  · intro i bit hbit
    rw [hcaps] at hbit
    exact (h.own_bits i bit hbit).mono (fun _ he => he) fun _ he => he
  · intro i m hm
    rcases hmail i m hm with hm | ⟨rfl, rfl⟩
    · exact h.own_grants i m hm
    · refine ⟨htarget, by rw [horigin, hsender]; rfl, fun hi => ?_⟩
      rw [horigin, ← hsender, hi]
      rfl
  · intro h' p hp
    obtain ⟨c, hc, hsub, hgen⟩ := h.pend h' p hp
    exact ⟨c, hc, by rwa [hcaps], hgen⟩

theorem Core.take {cur : Slot} {msg : IpcMessage Tag} {rest : List (IpcMessage Tag)}
    (hm : (k.task cur).mailbox = msg :: rest) :
    Core { k with
      task := update k.task cur ((k.task cur).take msg rest)
      received := (msg.tag.origin, k.occupant cur, msg.grant) :: k.received } := by
  have hmsg : msg ∈ (k.task cur).mailbox := hm ▸ List.mem_cons_self
  have hmail : ∀ i, ∀ m ∈ (update k.task cur ((k.task cur).take msg rest) i).mailbox,
      m ∈ (k.task i).mailbox := by
    intro i m hmem
    by_cases hi : i = cur
    · rw [hi, update_self] at hmem
      rw [hi, hm]
      exact List.mem_cons_of_mem _ hmem
    · rwa [update_of_ne hi] at hmem
  have hl : ∀ e ∈ k.launches, e ∈ k.launches := fun _ he => he
  have hr : ∀ e ∈ k.received, e ∈ (msg.tag.origin, k.occupant cur, msg.grant) :: k.received :=
    fun _ he => List.mem_cons_of_mem _ he
  constructor
  · exact fun i m hmem => h.attenuated i m (hmail i m hmem)
  · exact fun i m hmem bit hbit => (h.queued i m (hmail i m hmem) bit hbit).mono hl hr
  · intro o' o g hmem bit hbit
    rcases List.mem_cons.mp hmem with heq | hmem
    · cases heq
      exact (h.queued cur msg hmsg bit hbit).mono hl hr
    · exact (h.logged o' o g hmem bit hbit).mono hl hr
  · intro i bit hbit
    by_cases hi : i = cur
    · subst hi
      change (update k.task i ((k.task i).take msg rest) i).caps.testBit bit = true at hbit
      rw [update_self, Row.take, Nat.testBit_or, Bool.or_eq_true] at hbit
      rcases hbit with hbit | hbit
      · exact (h.own_bits i bit hbit).mono hl hr
      · exact .inr ⟨_, _, List.mem_cons_self, hbit⟩
    · change (update k.task cur ((k.task cur).take msg rest) i).caps.testBit bit = true
        at hbit
      rw [update_of_ne hi] at hbit
      exact (h.own_bits i bit hbit).mono hl hr
  · exact fun i m hmem => h.own_grants i m (hmail i m hmem)
  · intro h' p hp
    obtain ⟨c, hc, hsub, hgen⟩ := h.pend h' p hp
    refine ⟨c, hc, ?_, hgen⟩
    by_cases hcc : c = cur
    · subst hcc
      change Sub p.caps (update k.task c ((k.task c).take msg rest) c).caps
      rw [update_self]
      exact hsub.trans (sub_or_left _ _)
    · change Sub p.caps (update k.task cur ((k.task cur).take msg rest) c).caps
      rwa [update_of_ne hcc]

theorem Core.setRow {cur : Slot} {row : Row Tag}
    (hmail : row.mailbox = (k.task cur).mailbox) (hcaps : row.caps = (k.task cur).caps) :
    Core (k.setTask cur row) := by
  have hrow : ∀ i, (update k.task cur row i).mailbox = (k.task i).mailbox ∧
      (update k.task cur row i).caps = (k.task i).caps := by
    intro i
    by_cases hi : i = cur
    · rw [hi, update_self]
      exact ⟨hmail, hcaps⟩
    · rw [update_of_ne hi]
      exact ⟨rfl, rfl⟩
  apply h.shrink
  · intro i
    exact ⟨fun msg hm => (hrow i).1 ▸ hm, (hrow i).2 ▸ Sub.refl _⟩
  · intro h' c _
    exact (hrow c).2 ▸ Sub.refl _

end

theorem answer_of_ne {cur : Slot} {r : Reply Tag × Table Tag} (h : ∀ msg, r.1 ≠ .message msg) :
    k.answer cur r = { k with task := r.2 } := by
  obtain ⟨reply, t⟩ := r
  cases reply with
  | message msg => exact absurd rfl (h msg)
  | _ => rfl

theorem answer_harts (cur : Slot) (r : Reply Tag × Table Tag) :
    (k.answer cur r).pending = k.pending ∧ (k.answer cur r).current = k.current ∧
      (k.answer cur r).launching = k.launching ∧ (k.answer cur r).task = r.2 := by
  obtain ⟨reply, t⟩ := r
  cases reply
  all_goals exact ⟨rfl, rfl, rfl, rfl⟩

theorem Core.serve (h : Core k) {cur : Slot} {p : Pending} (hsub : Sub p.caps (k.task cur).caps)
    (hgen : p.gen = k.gen cur) (call : Syscall) (word : ℕ) : Core (k.serve cur p call word) := by
  rw [Kernel.serve]
  rcases syscall_cases k.task k.ticks cur p.caps call word (k.tagFor cur p call) with
    ⟨requested, dest, hcall, -, heq⟩ | ⟨msg, rest, hm, heq⟩ | ⟨hno, row, heq, hmail, hcaps⟩
  · rw [heq]
    subst hcall
    refine h.push (show _ = cur from rfl) ?_ rfl ?_ ((and_sub_right _ _).trans hsub)
    · change (⟨cur, p.gen⟩ : Occupant) = k.occupant cur
      rw [Kernel.occupant, hgen]
    · exact dif_pos dest.isLt
  · rw [heq]
    exact h.take hm
  · rw [answer_of_ne hno, heq]
    exact h.setRow hmail hcaps

/-- While rows are being launched, those that are still to come are unused, empty
and not run by any hart. -/
def Idle (k : Kernel H) : Prop :=
  ∀ n, k.launching = some n → ∀ i : Slot, n ≤ i.val →
    (k.task i).state = .unused ∧ (k.task i).mailbox = [] ∧ ∀ h, k.current h ≠ some i

theorem idle_of_none (h : k.launching = none) : Idle k := fun n hn => by
  rw [h] at hn
  cases hn

theorem Idle.keep (h : Idle k) (hl : k'.launching = k.launching)
    (hrow : ∀ i : Slot, (k.task i).state = .unused → (∀ h', k.current h' ≠ some i) →
      (k'.task i).state = .unused ∧ (k'.task i).mailbox = (k.task i).mailbox ∧
        ∀ h', k'.current h' ≠ some i) : Idle k' := by
  intro n hn i hi
  obtain ⟨hu, hm, hc⟩ := h n (hl ▸ hn) i hi
  obtain ⟨hu', hm', hc'⟩ := hrow i hu hc
  exact ⟨hu', hm'.trans hm, hc'⟩

end

section
variable {k k' : Kernel H}

theorem Core.bakeAll (caps : List ℕ) {l : List Slot} (h : Core k)
    (hfree : ∀ i h', k.current h' ≠ some i) :
    Core (l.foldl (fun k' i => match caps[i.val]? with
      | some c => k'.bake i c
      | none => k') k) := by
  induction l generalizing k with
  | nil => exact h
  | cons i l ih =>
    rw [List.foldl_cons]
    cases caps[i.val]? with
    | none => exact ih h hfree
    | some c => exact ih (h.occupy rfl rfl (hfree i)) hfree

theorem launching_bakeAll (caps : List ℕ) (l : List Slot) :
    (l.foldl (fun k' i => match caps[i.val]? with
      | some c => k'.bake i c
      | none => k') k).launching = k.launching := by
  induction l generalizing k with
  | nil => rfl
  | cons i l ih =>
    rw [List.foldl_cons, ih]
    cases caps[i.val]? with
    | none | some c => rfl

section
variable (h : Core k)
include h

theorem Core.spawn (build : Option ℕ) (caps : ℕ)
    (hfree : ∀ h', k.current h' ≠ some i) : Core (k.spawn i build caps) := by
  cases build with
  | some frames => exact h.occupy rfl rfl hfree
  | none =>
    apply h.shrink
    · intro j
      by_cases hj : j = i
      · rw [hj, update_self]
        exact ⟨nofun, .refl _⟩
      · rw [update_of_ne hj]
        exact .refl _
    · intro h' c hc
      have hci : c ≠ i := fun hci => hfree h' (hci ▸ hc)
      rw [update_of_ne hci]
      exact .refl _

theorem Core.launch (build : Option ℕ) (caps : ℕ)
    (hmail : (k.task i).mailbox = []) (hfree : ∀ h', k.current h' ≠ some i) :
    Core (k.launch i build caps) := by
  cases build with
  | some frames => exact h.occupy rfl hmail hfree
  | none => exact h.setRow rfl rfl

theorem Core.resetRows {t : Table Tag} (hs : ∀ i, Shrinks (k.task i) (t i))
    (hrun : ∀ h' i, k.current h' = some i → t i = k.task i) : Core { k with task := t } :=
  h.shrink hs fun h' c hc => hrun h' c hc ▸ .refl _

theorem Core.resetWhere {P : Slot → Prop} [DecidablePred P] {f : Row Tag → Row Tag}
    (hf : ∀ t, Shrinks t (f t)) (hfree : ∀ i, P i → ∀ h', k.current h' ≠ some i) :
    Core { k with task := fun i => if P i then f (k.task i) else k.task i } := by
  apply h.resetRows
  · intro i
    split
    · exact hf _
    · exact .refl _
  · intro h' i hi
    exact if_neg fun hreset => hfree i hreset h' hi

theorem Core.mapRows {f : Row Tag → Row Tag} (hmail : ∀ t, (f t).mailbox = t.mailbox)
    (hcaps : ∀ t, (f t).caps = t.caps) : Core { k with task := fun i => f (k.task i) } := by
  apply h.shrink
  · intro i
    refine ⟨fun msg hmem => ?_, ?_⟩
    · rwa [hmail] at hmem
    · rw [hcaps]
      exact .refl _
  · intro h' c _
    rw [hcaps]
    exact .refl _

theorem Core.of_rows (ht : k'.task = k.task) (hg : k'.gen = k.gen)
    (hl : k'.launches = k.launches) (hr : k'.received = k.received)
    (hpend : ∀ h' p, k'.pending h' = some p →
      ∃ c, k'.current h' = some c ∧ Sub p.caps (k.task c).caps ∧ p.gen = k.gen c) : Core k' := by
  have hocc : ∀ i, k'.occupant i = k.occupant i := fun i => by
    rw [Kernel.occupant, hg, Kernel.occupant]
  have hl' : ∀ e ∈ k.launches, e ∈ k'.launches := fun _ he => hl ▸ he
  have hr' : ∀ e ∈ k.received, e ∈ k'.received := fun _ he => hr ▸ he
  constructor
  · rw [ht]
    exact h.attenuated
  · rw [ht]
    exact fun i msg hm bit hbit => (h.queued i msg hm bit hbit).mono hl' hr'
  · rw [hr]
    exact fun o' o g hmem bit hbit => (h.logged o' o g hmem bit hbit).mono hl' hr'
  · rw [ht]
    exact fun i bit hbit => hocc i ▸ (h.own_bits i bit hbit).mono hl' hr'
  · rw [ht, hg]
    exact fun i msg hm => hocc i ▸ h.own_grants i msg hm
  · rw [ht, hg]
    exact hpend

theorem Core.setCurrent [DecidableEq H] {hart : H} (hnone : k.pending hart = none)
    (choice : Option Slot) : Core { k with current := update k.current hart choice } := by
  refine h.of_rows rfl rfl rfl rfl fun h' p hp => ?_
  obtain ⟨c, hc, hrest⟩ := h.pend h' p hp
  have hne : h' ≠ hart := by
    rintro rfl
    cases hnone.symm.trans hp
  exact ⟨c, (update_of_ne hne _ _).trans hc, hrest⟩

theorem Core.next [DecidableEq H] (hidle : Idle k) {s : Section H} (he : k.Enabled s)
    (hq : k.Quiet s) : Core (k.next s) := by
  cases s with
  | reclaim i =>
    apply h.resetRows
    · intro j
      by_cases hj : j = i
      · rw [hj, update_self]
        exact shrinks_reclaim _
      · rw [update_of_ne hj]
        exact .refl _
    · intro h' j hj
      have hji : j ≠ i := fun hji => hq i rfl h' (hji ▸ hj)
      exact update_of_ne hji _ _
  | spawn i build caps => exact h.spawn build caps (hq i rfl)
  | clearForeground => exact h.resetWhere shrinks_clearForeground hq
  | runTasks caps =>
    have hfree : ∀ i h', k.current h' ≠ some i := fun i h' => hq i trivial h'
    refine Core.bakeAll caps (h.resetRows (fun i => shrinks_wipe _) ?_) hfree
    exact fun h' i hi => absurd hi (hfree i h')
  | wipe =>
    have hcore := h.resetRows (fun i => shrinks_wipe (k.task i))
      fun h' i hi => absurd hi (hq i trivial h')
    exact hcore.of_rows rfl rfl rfl rfl hcore.pend
  | launch build caps =>
    obtain ⟨n, hn, hlaunch⟩ := he
    obtain ⟨-, hmail, hfree⟩ := hidle n hlaunch ⟨n, hn⟩ le_rfl
    have hcore := h.launch (i := ⟨n, hn⟩) build caps hmail hfree
    simp only [Kernel.next, hlaunch, dif_pos hn]
    exact hcore.of_rows rfl rfl rfl rfl hcore.pend
  | launched | tick => exact h.of_rows rfl rfl rfl rfl h.pend
  | reclaimDone first => exact h.resetWhere shrinks_reclaim hq
  | pick hart choice =>
    have hcore : Core { k with task := fun i => (k.task i).expire k.ticks } :=
      h.mapRows (fun t => (expire_same k.ticks t).1) fun t => (expire_same k.ticks t).2.1
    exact hcore.setCurrent he.1 choice
  | enter hart i => exact h.setCurrent he.1 (some i)
  | trap hart =>
    obtain ⟨cur, hcur⟩ := Option.ne_none_iff_exists'.mp he.2
    simp only [Kernel.next, hcur]
    refine h.of_rows rfl rfl rfl rfl fun h' p hp => ?_
    dsimp only at hp
    by_cases hh : h' = hart
    · subst hh
      rw [update_self] at hp
      cases hp
      exact ⟨cur, hcur, .refl _, rfl⟩
    · rw [update_of_ne hh] at hp
      exact h.pend h' p hp
  | serve hart call word =>
    obtain ⟨p, hp⟩ := Option.ne_none_iff_exists'.mp he
    obtain ⟨cur, hcur, hsub, hgen⟩ := h.pend hart p hp
    have hcore := h.serve hsub hgen call word
    simp only [Kernel.next, hcur, hp]
    refine hcore.of_rows rfl rfl rfl rfl fun h' p' hp' => ?_
    dsimp only at hp'
    by_cases hh : h' = hart
    · subst hh
      rw [update_self] at hp'
      cases hp'
    · rw [update_of_ne hh] at hp'
      exact hcore.pend h' p' ((congrFun (answer_harts cur _).1 h').trans hp')
  | fault hart =>
    obtain ⟨cur, hcur⟩ := Option.ne_none_iff_exists'.mp he.2
    simp only [Kernel.next, hcur]
    exact h.setRow rfl rfl
  | wakeIrq => exact h.mapRows Row.wakeIrq_mailbox Row.wakeIrq_caps

end

theorem serve_other {cur : Slot} (p : Pending) (call : Syscall) (word : ℕ)
    (hu : (k.task i).state = .unused) (hne : i ≠ cur) :
    (k.serve cur p call word).task i = k.task i := by
  rw [Kernel.serve, (answer_harts cur _).2.2.2]
  rcases syscall_cases k.task k.ticks cur p.caps call word (k.tagFor cur p call) with
    ⟨requested, dest, -, hstate, heq⟩ | ⟨msg, rest, -, heq⟩ | ⟨-, row, heq, -, -⟩
  · have hdest : i ≠ dest := fun h => hstate (h ▸ hu)
    rw [heq]
    exact update_of_ne hdest _ _
  · rw [heq]
    exact update_of_ne hne _ _
  · rw [heq]
    exact update_of_ne hne _ _

theorem Idle.next [DecidableEq H] (h : Idle k) {s : Section H} (he : k.Enabled s)
    (hq : k.Quiet s) : Idle (k.next s) := by
  cases s with
  | reclaim i | clearForeground | reclaimDone first => exact idle_of_none he
  | spawn i build caps =>
    apply idle_of_none
    cases build
    all_goals exact he
  | runTasks caps => exact idle_of_none ((launching_bakeAll caps _).trans he)
  | wipe => exact fun n _ i _ => ⟨rfl, rfl, hq i trivial⟩
  | launch build caps =>
    obtain ⟨n, hn, hlaunch⟩ := he
    simp only [Kernel.next, hlaunch, dif_pos hn]
    intro m hm i hi
    cases hm
    have hne : i ≠ ⟨n, hn⟩ := fun h => by
      have := congrArg Fin.val h
      dsimp only at this
      omega
    obtain ⟨hu, hmail, hfree⟩ := h n hlaunch i (by omega)
    have hrow : (k.launch ⟨n, hn⟩ build caps).task i = k.task i := by
      cases build
      all_goals exact update_of_ne hne _ _
    have hcur : (k.launch ⟨n, hn⟩ build caps).current = k.current := by
      cases build
      all_goals rfl
    dsimp only
    rw [hrow, hcur]
    exact ⟨hu, hmail, hfree⟩
  | launched => exact idle_of_none rfl
  | pick hart choice =>
    refine h.keep rfl fun i hu hfree => ?_
    obtain ⟨hm, -, hs⟩ := expire_same k.ticks (k.task i)
    refine ⟨hs hu, hm, fun h' hc => ?_⟩
    simp only [Kernel.next] at hc
    by_cases hh : h' = hart
    · subst hh
      rw [update_self] at hc
      have hready := (he.2 i hc).1
      rw [hs hu] at hready
      cases hready
    · rw [update_of_ne hh] at hc
      exact hfree h' hc
  | enter hart i => exact idle_of_none he.2.2.1
  | trap hart =>
    obtain ⟨cur, hcur⟩ := Option.ne_none_iff_exists'.mp he.2
    simp only [Kernel.next, hcur]
    exact h
  | serve hart call word =>
    obtain ⟨p, hp⟩ := Option.ne_none_iff_exists'.mp he
    cases hcur : k.current hart with
    | none =>
      simp only [Kernel.next, hcur]
      exact h
    | some cur =>
      simp only [Kernel.next, hcur, hp]
      have hharts := answer_harts (k := k) cur
        (syscall k.task k.ticks cur p.caps call word (k.tagFor cur p call))
      refine h.keep hharts.2.2.1 fun i hu hfree => ?_
      have hne : i ≠ cur := fun h => hfree hart (h ▸ hcur)
      dsimp only
      rw [serve_other p call word hu hne, Kernel.serve, hharts.2.1]
      exact ⟨hu, rfl, hfree⟩
  | fault hart =>
    obtain ⟨cur, hcur⟩ := Option.ne_none_iff_exists'.mp he.2
    simp only [Kernel.next, hcur]
    refine h.keep rfl fun i hu hfree => ?_
    have hne : i ≠ cur := fun h => hfree hart (h ▸ hcur)
    have hrow : (k.setTask cur (k.task cur).fault).task i = k.task i :=
      update_of_ne hne _ _
    rw [hrow]
    exact ⟨hu, rfl, hfree⟩
  | tick => exact h
  | wakeIrq =>
    refine h.keep rfl fun i hu hfree => ?_
    have hs : (k.task i).wakeIrq.state = .unused ↔ (k.task i).state = .unused :=
      Row.wakeIrq_state _ nofun nofun
    exact ⟨hs.mpr hu, Row.wakeIrq_mailbox _, hfree⟩

theorem core_boot : Core (Kernel.boot : Kernel H) where
  attenuated := nofun
  queued := nofun
  logged := nofun
  own_bits := fun i bit hbit => by
    change (0 : ℕ).testBit bit = true at hbit
    rw [Nat.zero_testBit] at hbit
    cases hbit
  own_grants := nofun
  pend := nofun

theorem core_of_reachable [DecidableEq H] (h : Arises Kernel.Quiet k) : Core k ∧ Idle k := by
  induction h with
  | boot => exact ⟨core_boot, idle_of_none rfl⟩
  | step s _ he hq ih => exact ⟨ih.1.next ih.2 he hq, ih.2.next he hq⟩

/-- On any number of harts and in every interleaving in which no row is cleared
or launched while a hart runs it, passing messages does not amplify authority. -/
theorem ipc_sound_of_quiet [DecidableEq H] (h : Arises Kernel.Quiet k) : Sound k :=
  (core_of_reachable h).1.sound

end

def handOver : List (Section Bool) :=
  [.reclaim 0, .spawn 0 (some 1) (taskPrint ||| taskIpc), .reclaim 1, .spawn 1 (some 1) taskIpc,
    .enter false 0, .trap false, .serve false (.send 1 taskPrint) 0]

theorem ipc_sound_of_quiet_handOver :
    Arises Kernel.Quiet (handOver.foldl Kernel.next .boot) ∧
      (((handOver.foldl Kernel.next .boot).task 1).mailbox.map fun msg =>
        (msg.sender, msg.grant)) = [(0, taskPrint)] ∧
      Sound (handOver.foldl Kernel.next .boot) := by
  have hrun : Arises Kernel.Quiet (handOver.foldl Kernel.next .boot) :=
    Arises.boot.run (by decide +kernel)
  exact ⟨hrun, by decide +kernel, ipc_sound_of_quiet hrun⟩

/-- A second hart has read the capabilities of task 1 for a send to its own row
when the console launches another task there. Then it finishes the send. -/
def staleSend : List (Section Bool) :=
  [.reclaim 1, .spawn 1 (some 1) (taskPrint ||| taskIpc), .pick true (some 1), .trap true,
    .reclaim 1, .spawn 1 (some 1) taskIpc, .serve true (.send 1 taskPrint) 0]

def staleReceive : List (Section Bool) := staleSend ++ [.trap true, .serve true .recv 0]

/-- The row was launched with the right to pass messages only, and finds the
right to print of its previous occupant in its mailbox; receiving makes it its
own. -/
theorem respawned_row_inherits_grant :
    Arises (fun _ _ => True) (staleSend.foldl Kernel.next .boot) ∧
      ((staleSend.foldl Kernel.next .boot).task 1).caps = taskIpc ∧
      (((staleSend.foldl Kernel.next .boot).task 1).mailbox.map fun msg =>
        (msg.grant, msg.tag.held, msg.tag.origin.gen)) = [(taskPrint, taskIpc, 1)] ∧
      (staleSend.foldl Kernel.next .boot).gen 1 = 2 ∧
      ((staleReceive.foldl Kernel.next .boot).task 1).caps = taskPrint ||| taskIpc ∧
      ¬ Sound (staleSend.foldl Kernel.next .boot) := by
  have hgrants : (((staleSend.foldl Kernel.next .boot).task 1).mailbox.map fun msg =>
      (msg.grant, msg.tag.held, msg.tag.origin.gen)) = [(taskPrint, taskIpc, 1)] := by
    decide +kernel
  refine ⟨Arises.boot.run (by decide +kernel), by decide +kernel, hgrants, by decide +kernel,
    by decide +kernel, fun hsound => ?_⟩
  obtain ⟨msg, hmem, heq⟩ := List.mem_map.mp (hgrants ▸ List.mem_singleton_self _)
  rw [Prod.mk.injEq, Prod.mk.injEq] at heq
  have hsub := hsound.attenuated 1 msg hmem
  rw [heq.1, heq.2.1] at hsub
  exact absurd (hsub 0 (by decide)) (by decide)

end Dezh.IpcAuthority

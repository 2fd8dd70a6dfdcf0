import Mathlib.Logic.Function.Basic
import Mathlib.Data.Set.Basic
import Mathlib.Tactic.Common

/-!
# Programs over a block device

A device maps sector numbers to blocks. A program is a finite tree of sector
accesses: it either finishes with a value or asks for one read or one write and
continues from the answer. Nothing here depends on what a block contains.
-/
namespace Dezh.BlockProgram
open Function

variable {B A C : Type}

abbrev Disk (B : Type) := ℕ → B

def replay {B : Type} (d : Disk B) (l : List (ℕ × B)) : Disk B :=
  l.foldl (fun d w => update d w.1 w.2) d

def stripe {B : Type} (first : ℕ) (f : ℕ → B) (n : ℕ) : List (ℕ × B) :=
  (List.range n).map fun i => (first + i, f i)

section
variable {d : Disk B} {l l' : List (ℕ × B)} {s first m n : ℕ} {f : ℕ → B}

@[simp] theorem replay_nil (d : Disk B) : replay d [] = d := rfl

theorem replay_append : replay d (l ++ l') = replay (replay d l) l' := List.foldl_append

@[simp] theorem length_stripe : (stripe first f n).length = n := by simp [stripe]

theorem replay_stripe :
    replay d (stripe first f n) s = if first ≤ s ∧ s < first + n then f (s - first) else d s := by
  induction n with
  | zero => rw [if_neg (by omega)]; rfl
  | succ n ih =>
    have hlast : replay d (stripe first f (n + 1)) =
        update (replay d (stripe first f n)) (first + n) (f n) := by
      unfold stripe
      rw [List.range_succ, List.map_append, replay_append]
      rfl
    rw [hlast]
    by_cases hs : s = first + n
    · subst hs
      rw [update_self, if_pos (by omega), Nat.add_sub_cancel_left]
    · rw [update_of_ne hs, ih]
      exact if_congr (by omega) rfl rfl

theorem stripe_succ :
    stripe first f (n + 1) = (first, f 0) :: stripe (first + 1) (fun i => f (i + 1)) n := by
  unfold stripe
  rw [List.range_succ_eq_map, List.map_cons, List.map_map]
  refine congrArg₂ _ rfl (List.map_congr_left fun i _ => ?_)
  rw [Function.comp_apply, Nat.add_assoc, Nat.add_comm 1]

theorem replay_take_stripe : replay d ((stripe first f n).take m) s =
    if first ≤ s ∧ s < first + min m n then f (s - first) else d s := by
  have htake : (stripe first f n).take m = stripe first f (min m n) := by
    unfold stripe
    rw [← List.map_take, List.take_range]
  rw [htake, replay_stripe]

theorem replay_take_stripe_of_outside (h : s < first ∨ first + n ≤ s) :
    replay d ((stripe first f n).take m) s = d s := by
  rw [replay_take_stripe, if_neg (by omega)]

end

/-- A program over a device of blocks. -/
inductive Program (B A : Type) where
  | done (value : A)
  | read (sector : ℕ) (next : Option B → Program B A)
  | write (sector : ℕ) (block : B) (next : Bool → Program B A)

namespace Program
def bind : Program B A → (A → Program B C) → Program B C
  | .done a, k => k a
  | .read s next, k => .read s fun r => (next r).bind k
  | .write s b next, k => .write s b fun r => (next r).bind k

instance : Monad (Program B) where
  pure := .done
  bind := bind

theorem pure_eq (a : A) : (pure a : Program B A) = .done a := rfl

@[simp] theorem done_bind (a : A) (k : A → Program B C) : (Program.done a >>= k) = k a := rfl

@[simp] theorem read_bind (s : ℕ) (next : Option B → Program B A) (k : A → Program B C) :
    (Program.read s next >>= k) = .read s fun r => next r >>= k := rfl

@[simp] theorem write_bind (s : ℕ) (b : B) (next : Bool → Program B A) (k : A → Program B C) :
    (Program.write s b next >>= k) = .write s b fun r => next r >>= k := rfl

theorem bind_assoc {D : Type} (p : Program B A) (k : A → Program B C) (m : C → Program B D) :
    (p >>= k) >>= m = p >>= fun a => k a >>= m := by
  induction p with
  | done a => rfl
  | read s next ih => exact congrArg (Program.read s) (funext ih)
  | write s b next ih => exact congrArg (Program.write s b) (funext ih)

def eval : Program B A → Disk B → A × Disk B
  | .done a, d => (a, d)
  | .read s next, d => (next (some (d s))).eval d
  | .write s b next, d => (next true).eval (update d s b)

@[simp] theorem eval_done (a : A) (d : Disk B) : (Program.done a).eval d = (a, d) := rfl

@[simp] theorem eval_pure (a : A) (d : Disk B) : (pure a : Program B A).eval d = (a, d) := rfl

@[simp] theorem eval_read (s : ℕ) (next : Option B → Program B A) (d : Disk B) :
    (Program.read s next).eval d = (next (some (d s))).eval d := rfl

@[simp] theorem eval_write (s : ℕ) (b : B) (next : Bool → Program B A) (d : Disk B) :
    (Program.write s b next).eval d = (next true).eval (update d s b) := rfl

theorem eval_bind (p : Program B A) (k : A → Program B C) (d : Disk B) :
    (p >>= k).eval d = (k (p.eval d).1).eval (p.eval d).2 := by
  induction p generalizing d with
  | done a => rfl
  | read s next ih => exact ih _ d
  | write s b next ih => exact ih _ _

end Program

/-- What becomes of one write: done, reported failed with the sector unchanged,
or reported failed although the block reached the sector. -/
inductive WriteOutcome where
  | ok | lost | landed
  deriving DecidableEq, Repr

/-- A pattern of failures: whether the i-th read succeeds, and the fate of the
i-th write. -/
structure Schedule where
  reads : ℕ → Bool
  writes : ℕ → WriteOutcome

namespace Schedule

def afterRead (f : Schedule) : Schedule := { f with reads := fun i => f.reads (i + 1) }

def afterWrite (f : Schedule) : Schedule := { f with writes := fun i => f.writes (i + 1) }

def clean : Schedule := ⟨fun _ => true, fun _ => .ok⟩

def reliable (reads : ℕ → Bool) : Schedule := ⟨reads, fun _ => .ok⟩

def consRead (r : Bool) (f : Schedule) : Schedule :=
  { f with reads := fun i => match i with | 0 => r | i + 1 => f.reads i }

def cutAfter (n : ℕ) : Schedule := ⟨fun _ => true, fun i => if i < n then .ok else .lost⟩

def consWrite (o : WriteOutcome) (f : Schedule) : Schedule :=
  { f with writes := fun i => match i with | 0 => o | i + 1 => f.writes i }

end Schedule

/-- A fault class: which kinds of failure the device may show. -/
structure Faults where
  reads : Prop
  lost : Prop
  landed : Prop

variable {K : Faults}

namespace Faults

def none : Faults := ⟨False, False, False⟩

def readsOnly : Faults := ⟨True, False, False⟩

def lostOnly : Faults := ⟨False, True, False⟩

def unlanded : Faults := ⟨True, True, False⟩

def all : Faults := ⟨True, True, True⟩

/-- The class allows some failure. -/
def Possible (K : Faults) : Prop := K.reads ∨ K.lost ∨ K.landed

@[simp] theorem not_possible_none : ¬ none.Possible := by simp [Possible, none]

end Faults

/-- Every failure of the schedule is of a kind the class allows. -/
structure Schedule.Within (f : Schedule) (K : Faults) : Prop where
  reads : ∀ i, f.reads i = false → K.reads
  lost : ∀ i, f.writes i = .lost → K.lost
  landed : ∀ i, f.writes i = .landed → K.landed

namespace Schedule.Within
variable {f : Schedule}

theorem afterRead (h : f.Within K) : f.afterRead.Within K :=
  ⟨fun i => h.reads (i + 1), h.lost, h.landed⟩

theorem afterWrite (h : f.Within K) : f.afterWrite.Within K :=
  ⟨h.reads, fun i => h.lost (i + 1), fun i => h.landed (i + 1)⟩

theorem consRead (h : f.Within K) (r : Bool) (hr : r = false → K.reads) :
    (f.consRead r).Within K := by
  refine ⟨?_, h.lost, h.landed⟩
  rintro (_ | i) hi
  · exact hr hi
  · exact h.reads i hi

theorem consWrite (h : f.Within K) (o : WriteOutcome) (hl : o = .lost → K.lost)
    (hd : o = .landed → K.landed) : (f.consWrite o).Within K := by
  refine ⟨h.reads, ?_, ?_⟩
  · rintro (_ | i) hi
    · exact hl hi
    · exact h.lost i hi
  · rintro (_ | i) hi
    · exact hd hi
    · exact h.landed i hi

theorem all (f : Schedule) : f.Within Faults.all :=
  ⟨fun _ _ => trivial, fun _ _ => trivial, fun _ _ => trivial⟩

end Schedule.Within

theorem Schedule.cutAfter_within (n : ℕ) : (Schedule.cutAfter n).Within Faults.lostOnly := by
  refine ⟨fun i h => (nomatch h), fun _ _ => trivial, fun i h => ?_⟩
  simp only [Schedule.cutAfter] at h
  split at h <;> cases h

theorem Schedule.reliable_within (reads : ℕ → Bool) :
    (Schedule.reliable reads).Within Faults.readsOnly :=
  ⟨fun _ _ => trivial, fun _ h => (nomatch h), fun _ h => (nomatch h)⟩

theorem Schedule.Within.eq_reliable {f : Schedule} (h : f.Within Faults.readsOnly) :
    f = .reliable f.reads := by
  have hw : f.writes = fun _ => .ok := by
    funext i
    cases hi : f.writes i with
    | ok => rfl
    | lost => exact (h.lost i hi).elim
    | landed => exact (h.landed i hi).elim
  rw [reliable, ← hw]

theorem Schedule.clean_within (K : Faults) : Schedule.clean.Within K :=
  ⟨by simp [clean], by simp [clean], by simp [clean]⟩

namespace Program
def run : Program B A → Schedule → Disk B → A × Disk B
  | .done a, _, d => (a, d)
  | .read s next, f, d => (next (if f.reads 0 then some (d s) else none)).run f.afterRead d
  | .write s b next, f, d =>
    match f.writes 0 with
    | .ok => (next true).run f.afterWrite (update d s b)
    | .lost => (next false).run f.afterWrite d
    | .landed => (next false).run f.afterWrite (update d s b)

def after : Program B A → Schedule → Disk B → Schedule
  | .done _, f, _ => f
  | .read s next, f, d => (next (if f.reads 0 then some (d s) else none)).after f.afterRead d
  | .write s b next, f, d =>
    match f.writes 0 with
    | .ok => (next true).after f.afterWrite (update d s b)
    | .lost => (next false).after f.afterWrite d
    | .landed => (next false).after f.afterWrite (update d s b)

theorem run_bind (p : Program B A) (k : A → Program B C) (f : Schedule) (d : Disk B) :
    (p >>= k).run f d = (k (p.run f d).1).run (p.after f d) (p.run f d).2 := by
  induction p generalizing f d with
  | done a => rfl
  | read s next ih => exact ih _ _ d
  | write s b next ih =>
    simp only [write_bind, run, after]
    cases f.writes 0 <;> exact ih _ _ _

def readCount : Program B A → Disk B → ℕ
  | .done _, _ => 0
  | .read s next, d => (next (some (d s))).readCount d + 1
  | .write s b next, d => (next true).readCount (update d s b)

theorem run_reliable (p : Program B A) {reads : ℕ → Bool} {d : Disk B}
    (h : ∀ i < p.readCount d, reads i = true) :
    p.run (.reliable reads) d = p.eval d ∧
      p.after (.reliable reads) d = .reliable fun i => reads (i + p.readCount d) := by
  induction p generalizing reads d with
  | done a => exact ⟨rfl, rfl⟩
  | read s next ih =>
    have hfirst : (Schedule.reliable reads).reads 0 = true := h 0 (Nat.succ_pos _)
    have hrest : (Schedule.reliable reads).afterRead = .reliable fun i => reads (i + 1) := rfl
    have hih : ∀ i < (next (some (d s))).readCount d, reads (i + 1) = true :=
      fun i hi => h (i + 1) (Nat.succ_lt_succ hi)
    obtain ⟨hrun, hafter⟩ := ih (some (d s)) hih
    simp only [run, after, hfirst, if_true, hrest, hrun, hafter, eval_read, readCount,
      Nat.add_assoc, true_and]
  | write s b next ih => exact ih true h

theorem readCount_bind (p : Program B A) (k : A → Program B C) (d : Disk B) :
    (p >>= k).readCount d = p.readCount d + (k (p.eval d).1).readCount (p.eval d).2 := by
  induction p generalizing d with
  | done a => exact (Nat.zero_add _).symm
  | read s next ih =>
    have h := ih (some (d s)) d
    simp only [read_bind, readCount, eval_read] at h ⊢
    omega
  | write s b next ih => exact ih true _

theorem run_clean (p : Program B A) (d : Disk B) : p.run .clean d = p.eval d := by
  induction p generalizing d with
  | done a => rfl
  | read s next ih => exact ih _ d
  | write s b next ih => exact ih _ _

def Exec (K : Faults) : Program B A → Disk B → A → Disk B → Prop
  | .done v, d, a, d' => a = v ∧ d' = d
  | .read s next, d, a, d' =>
    (next (some (d s))).Exec K d a d' ∨ K.reads ∧ (next none).Exec K d a d'
  | .write s b next, d, a, d' =>
    (next true).Exec K (update d s b) a d' ∨
      K.lost ∧ (next false).Exec K d a d' ∨
      K.landed ∧ (next false).Exec K (update d s b) a d'

section
variable {d d' : Disk B} {a : A}

@[simp] theorem exec_done (v : A) : (Program.done v).Exec K d a d' ↔ a = v ∧ d' = d := Iff.rfl

@[simp] theorem exec_pure (v : A) : (pure v : Program B A).Exec K d a d' ↔ a = v ∧ d' = d :=
  Iff.rfl

theorem exec_read (s : ℕ) (next : Option B → Program B A) :
    (Program.read s next).Exec K d a d' ↔
      (next (some (d s))).Exec K d a d' ∨ K.reads ∧ (next none).Exec K d a d' := Iff.rfl

theorem exec_write (s : ℕ) (b : B) (next : Bool → Program B A) :
    (Program.write s b next).Exec K d a d' ↔
      (next true).Exec K (update d s b) a d' ∨ K.lost ∧ (next false).Exec K d a d' ∨
        K.landed ∧ (next false).Exec K (update d s b) a d' := Iff.rfl

theorem exec_bind {p : Program B A} {k : A → Program B C} {c : C} :
    (p >>= k).Exec K d c d' ↔ ∃ a d1, p.Exec K d a d1 ∧ (k a).Exec K d1 c d' := by
  induction p generalizing d with
  | done v => simp
  | read s next ih =>
    simp only [read_bind, exec_read, ih]
    constructor
    · rintro (⟨a, d1, h, hk⟩ | ⟨hr, a, d1, h, hk⟩)
      · exact ⟨a, d1, .inl h, hk⟩
      · exact ⟨a, d1, .inr ⟨hr, h⟩, hk⟩
    · rintro ⟨a, d1, h | ⟨hr, h⟩, hk⟩
      · exact .inl ⟨a, d1, h, hk⟩
      · exact .inr ⟨hr, a, d1, h, hk⟩
  | write s b next ih =>
    simp only [write_bind, exec_write, ih]
    constructor
    · rintro (⟨a, d1, h, hk⟩ | ⟨hl, a, d1, h, hk⟩ | ⟨hl, a, d1, h, hk⟩)
      · exact ⟨a, d1, .inl h, hk⟩
      · exact ⟨a, d1, .inr (.inl ⟨hl, h⟩), hk⟩
      · exact ⟨a, d1, .inr (.inr ⟨hl, h⟩), hk⟩
    · rintro ⟨a, d1, h | ⟨hl, h⟩ | ⟨hl, h⟩, hk⟩
      · exact .inl ⟨a, d1, h, hk⟩
      · exact .inr (.inl ⟨hl, a, d1, h, hk⟩)
      · exact .inr (.inr ⟨hl, a, d1, h, hk⟩)

theorem exec_run (p : Program B A) {f : Schedule} (hf : f.Within K) :
    p.Exec K d (p.run f d).1 (p.run f d).2 := by
  induction p generalizing f d with
  | done v => exact ⟨rfl, rfl⟩
  | read s next ih =>
    rw [exec_read]
    simp only [run]
    cases h : f.reads 0 with
    | true => exact .inl (ih _ hf.afterRead)
    | false => exact .inr ⟨hf.reads 0 h, ih _ hf.afterRead⟩
  | write s b next ih =>
    rw [exec_write]
    simp only [run]
    cases h : f.writes 0 with
    | ok => exact .inl (ih _ hf.afterWrite)
    | lost => exact .inr (.inl ⟨hf.lost 0 h, ih _ hf.afterWrite⟩)
    | landed => exact .inr (.inr ⟨hf.landed 0 h, ih _ hf.afterWrite⟩)

theorem Exec.exists_run {p : Program B A} (h : p.Exec K d a d') :
    ∃ f : Schedule, f.Within K ∧ p.run f d = (a, d') := by
  induction p generalizing d with
  | done v =>
    obtain ⟨rfl, rfl⟩ := h
    exact ⟨.clean, Schedule.clean_within K, rfl⟩
  | read s next ih =>
    rcases h with h | ⟨hr, h⟩
    · obtain ⟨f, hf, he⟩ := ih _ h
      exact ⟨f.consRead true, hf.consRead true (fun h => nomatch h), he⟩
    · obtain ⟨f, hf, he⟩ := ih _ h
      exact ⟨f.consRead false, hf.consRead false (fun _ => hr), he⟩
  | write s b next ih =>
    rcases h with h | ⟨hl, h⟩ | ⟨hl, h⟩
    · obtain ⟨f, hf, he⟩ := ih _ h
      exact ⟨f.consWrite .ok, hf.consWrite .ok (fun h => nomatch h) (fun h => nomatch h), he⟩
    · obtain ⟨f, hf, he⟩ := ih _ h
      exact ⟨f.consWrite .lost, hf.consWrite .lost (fun _ => hl) (fun h => nomatch h), he⟩
    · obtain ⟨f, hf, he⟩ := ih _ h
      exact ⟨f.consWrite .landed, hf.consWrite .landed (fun h => nomatch h) (fun _ => hl), he⟩

theorem exec_none {p : Program B A} : p.Exec .none d a d' ↔ p.eval d = (a, d') := by
  induction p generalizing d with
  | done v => simp [eq_comm]
  | read s next ih => simp [exec_read, Faults.none, ← ih]
  | write s b next ih => simp [exec_write, Faults.none, ← ih]

theorem exec_eval (K : Faults) (p : Program B A) (d : Disk B) :
    p.Exec K d (p.eval d).1 (p.eval d).2 := by
  rw [← run_clean]
  exact exec_run p (Schedule.clean_within K)

end

def writes : Program B A → Disk B → List (ℕ × B)
  | .done _, _ => []
  | .read s next, d => (next (some (d s))).writes d
  | .write s b next, d => (s, b) :: (next true).writes (update d s b)

def crashAfter : ℕ → Program B A → Disk B → Disk B
  | _, .done _, d => d
  | n, .read s next, d => crashAfter n (next (some (d s))) d
  | 0, .write _ _ _, d => d
  | n + 1, .write s b next, d => crashAfter n (next true) (update d s b)

theorem run_cutAfter_zero (p : Program B A) (d : Disk B) : (p.run (.cutAfter 0) d).2 = d := by
  induction p generalizing d with
  | done a => rfl
  | read s next ih => exact ih _ d
  | write s b next ih => exact ih false d

theorem crashAfter_eq_run (p : Program B A) (n : ℕ) (d : Disk B) :
    crashAfter n p d = (p.run (.cutAfter n) d).2 := by
  induction p generalizing n d with
  | done a => cases n <;> rfl
  | read s next ih => cases n <;> exact ih _ _ d
  | write s b next ih =>
    cases n with
    | zero => exact (run_cutAfter_zero _ d).symm
    | succ n =>
      have hafter : (Schedule.cutAfter (n + 1)).afterWrite = Schedule.cutAfter n := by
        simp only [Schedule.cutAfter, Schedule.afterWrite, Nat.add_lt_add_iff_right]
      have hfirst : (Schedule.cutAfter (n + 1)).writes 0 = .ok := rfl
      rw [crashAfter, ih, run, hfirst]
      simp only [hafter]

theorem writes_bind (p : Program B A) (k : A → Program B C) (d : Disk B) :
    (p >>= k).writes d = p.writes d ++ (k (p.eval d).1).writes (p.eval d).2 := by
  induction p generalizing d with
  | done a => rfl
  | read s next ih => exact ih _ d
  | write s b next ih => exact congrArg ((s, b) :: ·) (ih true _)

theorem eval_eq_replay (p : Program B A) (d : Disk B) : (p.eval d).2 = replay d (p.writes d) := by
  induction p generalizing d with
  | done a => rfl
  | read s next ih => exact ih _ d
  | write s b next ih => exact ih true _

@[simp] theorem crashAfter_pure (a : A) (n : ℕ) (d : Disk B) :
    crashAfter n (pure a : Program B A) d = d := by
  cases n <;> rfl

theorem crashAfter_eq_replay (p : Program B A) (n : ℕ) (d : Disk B) :
    crashAfter n p d = replay d ((p.writes d).take n) := by
  induction p generalizing n d with
  | done a =>
    rw [writes, List.take_nil]
    cases n <;> rfl
  | read s next ih => cases n <;> exact ih _ _ d
  | write s b next ih =>
    cases n with
    | zero => rfl
    | succ n => exact ih true n _

theorem crashAfter_bind (p : Program B A) (k : A → Program B C) (n : ℕ) (d : Disk B) :
    crashAfter n (p >>= k) d =
      if n ≤ (p.writes d).length then crashAfter n p d
      else crashAfter (n - (p.writes d).length) (k (p.eval d).1) (p.eval d).2 := by
  rw [crashAfter_eq_replay, writes_bind, List.take_append, replay_append]
  split_ifs with h
  · rw [Nat.sub_eq_zero_of_le h, List.take_zero, replay_nil, crashAfter_eq_replay]
  · rw [crashAfter_eq_replay, List.take_of_length_le (by omega), ← eval_eq_replay]

theorem crashAfter_bind_pure (p : Program B A) (f : A → C) (n : ℕ) (d : Disk B) :
    crashAfter n (p >>= fun a => pure (f a)) d = crashAfter n p d := by
  have hwrites : (p >>= fun a => (pure (f a) : Program B C)).writes d = p.writes d := by
    rw [writes_bind]
    exact List.append_nil _
  rw [crashAfter_eq_replay, hwrites, crashAfter_eq_replay]

/-- The failure-free execution from `d` returns `a` after the writes `l`. -/
structure Trace (p : Program B A) (d : Disk B) (a : A) (l : List (ℕ × B)) : Prop where
  value : (p.eval d).1 = a
  writes : p.writes d = l

namespace Trace
variable {p : Program B A} {k : A → Program B C} {d : Disk B} {a : A} {c : C}
  {l l' : List (ℕ × B)}

theorem pure (a : A) (d : Disk B) : Trace (pure a : Program B A) d a [] := ⟨rfl, rfl⟩

theorem disk (h : Trace p d a l) : (p.eval d).2 = replay d l := by rw [eval_eq_replay, h.writes]

theorem eval (h : Trace p d a l) : p.eval d = (a, replay d l) := Prod.ext h.value h.disk

theorem bind (hp : Trace p d a l) (hk : Trace (k a) (replay d l) c l') :
    Trace (p >>= k) d c (l ++ l') := by
  refine ⟨?_, ?_⟩
  · rw [eval_bind, hp.value, hp.disk, hk.value]
  · rw [writes_bind, hp.value, hp.disk, hp.writes, hk.writes]

theorem bind_nil (hp : Trace p d a []) (hk : Trace (k a) d c l) : Trace (p >>= k) d c l :=
  hp.bind hk

theorem crashAfter (h : Trace p d a l) (n : ℕ) : crashAfter n p d = replay d (l.take n) := by
  rw [crashAfter_eq_replay, h.writes]

end Trace

def Confined (R W : Set ℕ) : Program B A → Disk B → Prop
  | .done _, _ => True
  | .read s next, d =>
    s ∈ R ∧ (next (some (d s))).Confined R W d ∧ (next none).Confined R W d
  | .write s b next, d =>
    s ∈ W ∧ (next true).Confined R W (update d s b) ∧
      (next false).Confined R W d ∧ (next false).Confined R W (update d s b)

section
variable {R W : Set ℕ} {d : Disk B}

@[simp] theorem confined_done (v : A) : (Program.done v).Confined R W d := trivial

@[simp] theorem confined_pure (v : A) : (pure v : Program B A).Confined R W d := trivial

theorem confined_bind (p : Program B A) (k : A → Program B C) :
    (p >>= k).Confined R W d ↔
      p.Confined R W d ∧ ∀ a d', p.Exec .all d a d' → (k a).Confined R W d' := by
  induction p generalizing d with
  | done v => simp
  | read s next ih =>
    simp only [read_bind, Confined, ih, exec_read, Faults.all, true_and]
    constructor
    · rintro ⟨hs, ⟨h1, k1⟩, h2, k2⟩
      exact ⟨⟨hs, h1, h2⟩, fun a d' h => h.elim (k1 a d') (k2 a d')⟩
    · rintro ⟨⟨hs, h1, h2⟩, h⟩
      exact ⟨hs, ⟨h1, fun a d' e => h a d' (.inl e)⟩, h2, fun a d' e => h a d' (.inr e)⟩
  | write s b next ih =>
    simp only [write_bind, Confined, ih, exec_write, Faults.all, true_and]
    constructor
    · rintro ⟨hs, ⟨h1, k1⟩, ⟨h2, k2⟩, h3, k3⟩
      refine ⟨⟨hs, h1, h2, h3⟩, fun a d' h => ?_⟩
      rcases h with h | h | h
      · exact k1 a d' h
      · exact k2 a d' h
      · exact k3 a d' h
    · rintro ⟨⟨hs, h1, h2, h3⟩, h⟩
      exact ⟨hs, ⟨h1, fun a d' e => h a d' (.inl e)⟩,
        ⟨h2, fun a d' e => h a d' (.inr (.inl e))⟩, h3, fun a d' e => h a d' (.inr (.inr e))⟩

theorem Confined.bind {p : Program B A} {k : A → Program B C} (hp : p.Confined R W d)
    (hk : ∀ a d', p.Exec .all d a d' → (k a).Confined R W d') : (p >>= k).Confined R W d :=
  (confined_bind p k).mpr ⟨hp, hk⟩

theorem Confined.mono {R' W' : Set ℕ} {p : Program B A} (h : p.Confined R W d)
    (hR : R ⊆ R') (hW : W ⊆ W') : p.Confined R' W' d := by
  induction p generalizing d with
  | done v => trivial
  | read s next ih => exact ⟨hR h.1, ih _ h.2.1, ih _ h.2.2⟩
  | write s b next ih => exact ⟨hW h.1, ih _ h.2.1, ih _ h.2.2.1, ih _ h.2.2.2⟩

theorem Confined.congr {p : Program B A} (h : p.Confined R W d) {e : Disk B}
    (hR : ∀ s ∈ R, e s = d s) : p.Confined R W e := by
  induction p generalizing d e with
  | done v => trivial
  | read s next ih =>
    refine ⟨h.1, ?_, ih none h.2.2 hR⟩
    rw [hR s h.1]
    exact ih _ h.2.1 hR
  | write s b next ih =>
    have hu : ∀ r ∈ R, update e s b r = update d s b r := by
      intro r hr
      by_cases hs : r = s
      · simp [hs]
      · rw [update_of_ne hs, update_of_ne hs, hR r hr]
    exact ⟨h.1, ih _ h.2.1 hu, ih _ h.2.2.1 hR, ih _ h.2.2.2 hu⟩

theorem Confined.frame {K : Faults} {p : Program B A} {a : A} {d' : Disk B}
    (h : p.Confined R W d) (he : p.Exec K d a d') {s : ℕ} (hs : s ∉ W) : d' s = d s := by
  induction p generalizing d with
  | done v => rw [he.2]
  | read r next ih =>
    rcases he with he | ⟨-, he⟩
    · exact ih _ h.2.1 he
    · exact ih _ h.2.2 he
  | write r b next ih =>
    have hrs : s ≠ r := fun e => hs (e ▸ h.1)
    rcases he with he | ⟨-, he⟩ | ⟨-, he⟩
    · rw [ih _ h.2.1 he, update_of_ne hrs]
    · exact ih _ h.2.2.1 he
    · rw [ih _ h.2.2.2 he, update_of_ne hrs]

theorem Confined.run_congr {p : Program B A} (h : p.Confined R W d) {e : Disk B}
    (hR : ∀ s ∈ R, e s = d s) (f : Schedule) :
    (p.run f e).1 = (p.run f d).1 ∧
      ∀ s, e s = d s → (p.run f e).2 s = (p.run f d).2 s := by
  induction p generalizing d e f with
  | done v => exact ⟨rfl, fun s hs => hs⟩
  | read r next ih =>
    simp only [run, hR r h.1]
    split
    · exact ih _ h.2.1 hR _
    · exact ih _ h.2.2 hR _
  | write r b next ih =>
    have hu : ∀ s, e s = d s → update e r b s = update d r b s := by
      intro s hs
      by_cases hr : s = r
      · simp [hr]
      · rw [update_of_ne hr, update_of_ne hr, hs]
    simp only [run]
    split
    · obtain ⟨h1, h2⟩ := ih _ h.2.1 (fun s hs => hu s (hR s hs)) f.afterWrite
      exact ⟨h1, fun s hs => h2 s (hu s hs)⟩
    · exact ih _ h.2.2.1 hR _
    · obtain ⟨h1, h2⟩ := ih _ h.2.2.2 (fun s hs => hu s (hR s hs)) f.afterWrite
      exact ⟨h1, fun s hs => h2 s (hu s hs)⟩

end

end Program
end Dezh.BlockProgram

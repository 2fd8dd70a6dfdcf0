import Dezh.BlockProgram

/-!
# Effects of programs under failures

`Runs` states everything that an execution under a schedule shows: its result, the
device it leaves, the rest of the schedule, and the sectors whose reads failed. It
composes along `bind`.
-/
namespace Dezh.BlockProgram.Program
open Function

variable {K : Faults} {A B C : Type}

def failedReads : Program B A → Schedule → Disk B → List ℕ
  | .done _, _, _ => []
  | .read s next, f, d =>
    if f.reads 0 then (next (some (d s))).failedReads f.afterRead d
    else s :: (next none).failedReads f.afterRead d
  | .write s b next, f, d =>
    match f.writes 0 with
    | .ok => (next true).failedReads f.afterWrite (update d s b)
    | .lost => (next false).failedReads f.afterWrite d
    | .landed => (next false).failedReads f.afterWrite (update d s b)

theorem failedReads_bind (p : Program B A) (k : A → Program B C) (f : Schedule) (d : Disk B) :
    (p >>= k).failedReads f d =
      p.failedReads f d ++ (k (p.run f d).1).failedReads (p.after f d) (p.run f d).2 := by
  induction p generalizing f d with
  | done a => rfl
  | read s next ih =>
    simp only [read_bind, failedReads, run, after]
    split
    · exact ih _ _ d
    · exact congrArg (s :: ·) (ih _ _ d)
  | write s b next ih =>
    simp only [write_bind, failedReads, run, after]
    cases f.writes 0 <;> exact ih _ _ _

theorem failedReads_reliable (p : Program B A) {reads : ℕ → Bool} {d : Disk B}
    (h : ∀ i < p.readCount d, reads i = true) : p.failedReads (.reliable reads) d = [] := by
  induction p generalizing reads d with
  | done a => rfl
  | read s next ih =>
    have hfirst : (Schedule.reliable reads).reads 0 = true := h 0 (Nat.succ_pos _)
    have hih : ∀ i < (next (some (d s))).readCount d, reads (i + 1) = true :=
      fun i hi => h (i + 1) (Nat.succ_lt_succ hi)
    rw [failedReads, if_pos hfirst]
    exact ih (some (d s)) hih
  | write s b next ih => exact ih true h

theorem after_reliable (p : Program B A) (reads : ℕ → Bool) (d : Disk B) :
    ∃ reads', p.after (.reliable reads) d = .reliable reads' := by
  induction p generalizing reads d with
  | done a => exact ⟨reads, rfl⟩
  | read s next ih => exact ih _ (fun i => reads (i + 1)) d
  | write s b next ih => exact ih true reads _

/-- What an execution under a schedule shows. -/
structure Runs (p : Program B A) (f : Schedule) (d : Disk B) (a : A) (d' : Disk B) (f' : Schedule)
    (l : List ℕ) : Prop where
  run : p.run f d = (a, d')
  after : p.after f d = f'
  failed : p.failedReads f d = l

namespace Runs
variable {p : Program B A} {k : A → Program B C} {f f₁ f₂ : Schedule} {d d₁ d₂ : Disk B} {a : A}
  {c : C} {l l' : List ℕ}

theorem pure (a : A) (f : Schedule) (d : Disk B) : Runs (pure a : Program B A) f d a d f [] :=
  ⟨rfl, rfl, rfl⟩

theorem after_bind (p : Program B A) (k : A → Program B C) (f : Schedule) (d : Disk B) :
    (p >>= k).after f d = (k (p.run f d).1).after (p.after f d) (p.run f d).2 := by
  induction p generalizing f d with
  | done a => rfl
  | read s next ih => exact ih _ _ d
  | write s b next ih =>
    simp only [write_bind, Program.run, Program.after]
    cases f.writes 0 <;> exact ih _ _ _

theorem bind (hp : Runs p f d a d₁ f₁ l) (hk : Runs (k a) f₁ d₁ c d₂ f₂ l') :
    Runs (p >>= k) f d c d₂ f₂ (l ++ l') := by
  refine ⟨?_, ?_, ?_⟩
  · rw [run_bind, hp.run, hp.after, hk.run]
  · rw [after_bind, hp.run, hp.after, hk.after]
  · rw [failedReads_bind, hp.run, hp.after, hp.failed, hk.failed]

theorem bind_nil (hp : Runs p f d a d₁ f₁ []) (hk : Runs (k a) f₁ d₁ c d₂ f₂ l) :
    Runs (p >>= k) f d c d₂ f₂ l := hp.bind hk

end Runs

theorem Trace.runs {p : Program B A} {d : Disk B} {a : A} {l : List (ℕ × B)} (h : p.Trace d a l)
    (hr : p.readCount d = 0) (reads : ℕ → Bool) :
    p.Runs (.reliable reads) d a (replay d l) (.reliable reads) [] := by
  have hall : ∀ i < p.readCount d, reads i = true := by
    rw [hr]
    exact fun i hi => absurd hi (Nat.not_lt_zero i)
  obtain ⟨hrun, hafter⟩ := run_reliable p hall
  refine ⟨hrun.trans h.eval, ?_, failedReads_reliable p hall⟩
  rw [hafter, hr]
  rfl

/-- On every execution that the fault class allows, a write puts `b` into sector `s`
only if `P s b`. -/
def Emits (K : Faults) (P : ℕ → B → Prop) : Program B A → Disk B → Prop
  | .done _, _ => True
  | .read s next, d => (next (some (d s))).Emits K P d ∧ (K.reads → (next none).Emits K P d)
  | .write s b next, d =>
    P s b ∧ (next true).Emits K P (update d s b) ∧
      (K.lost → (next false).Emits K P d) ∧
      (K.landed → (next false).Emits K P (update d s b))

section
variable {P : ℕ → B → Prop} {d d' : Disk B} {p : Program B A} {a : A}

theorem emits_ite {c : Prop} [Decidable c] {q : Program B A} (hp : p.Emits K P d)
    (hq : q.Emits K P d) : (if c then p else q).Emits K P d := by
  split_ifs
  · exact hp
  · exact hq

theorem Emits.bind {k : A → Program B C} (hp : p.Emits K P d)
    (hk : ∀ a d', p.Exec K d a d' → (k a).Emits K P d') : (p >>= k).Emits K P d := by
  induction p generalizing d with
  | done v => exact hk v d ⟨rfl, rfl⟩
  | read s next ih =>
    refine ⟨ih _ hp.1 fun a d' h => hk a d' (.inl h), fun hr => ?_⟩
    exact ih _ (hp.2 hr) fun a d' h => hk a d' (.inr ⟨hr, h⟩)
  | write s b next ih =>
    refine ⟨hp.1, ih _ hp.2.1 fun a d' h => hk a d' (.inl h), fun hl => ?_, fun hl => ?_⟩
    · exact ih _ (hp.2.2.1 hl) fun a d' h => hk a d' (.inr (.inl ⟨hl, h⟩))
    · exact ih _ (hp.2.2.2 hl) fun a d' h => hk a d' (.inr (.inr ⟨hl, h⟩))

theorem Emits.mono {P' : ℕ → B → Prop} (h : p.Emits K P d) (hP : ∀ s b, P s b → P' s b) :
    p.Emits K P' d := by
  induction p generalizing d with
  | done v => trivial
  | read s next ih => exact ⟨ih _ h.1, fun hr => ih _ (h.2 hr)⟩
  | write s b next ih =>
    exact ⟨hP s b h.1, ih _ h.2.1, fun hl => ih _ (h.2.2.1 hl), fun hl => ih _ (h.2.2.2 hl)⟩

theorem changed_update {s r : ℕ} {b x : B} (hb : P s b) (h : x = update d s b r ∨ P r x) :
    x = d r ∨ P r x := by
  rcases h with h | h
  · by_cases hr : r = s
    · subst hr
      rw [update_self] at h
      exact .inr (h ▸ hb)
    · rw [update_of_ne hr] at h
      exact .inl h
  · exact .inr h

theorem Emits.changed (h : p.Emits K P d) (he : p.Exec K d a d') (r : ℕ) :
    d' r = d r ∨ P r (d' r) := by
  induction p generalizing d with
  | done v => exact .inl (by rw [he.2])
  | read s next ih =>
    rcases he with he | ⟨hr, he⟩
    · exact ih _ h.1 he
    · exact ih _ (h.2 hr) he
  | write s b next ih =>
    rcases he with he | ⟨hl, he⟩ | ⟨hl, he⟩
    · exact changed_update h.1 (ih _ h.2.1 he)
    · exact ih _ (h.2.2.1 hl) he
    · exact changed_update h.1 (ih _ (h.2.2.2 hl) he)

theorem Emits.disk_eq (h : p.Emits K (fun _ _ => False) d) (he : p.Exec K d a d') : d' = d := by
  funext r
  exact (h.changed he r).resolve_right id

theorem Emits.crashAfter (h : p.Emits K P d) (n r : ℕ) :
    crashAfter n p d r = d r ∨ P r (crashAfter n p d r) := by
  induction p generalizing n d with
  | done v => exact .inl (by cases n <;> rfl)
  | read s next ih => cases n <;> exact ih _ h.1 _
  | write s b next ih =>
    cases n with
    | zero => exact .inl rfl
    | succ n => exact changed_update h.1 (ih _ h.2.1 n)

theorem Emits.ite {p : Program B Bool} {q : Program B C} {c : C} (hp : p.Emits K P d)
    (hq : ∀ d', q.Emits K P d') : (p >>= fun ok => if ok = true then q else pure c).Emits K P d := by
  refine hp.bind fun ok d' _ => ?_
  cases ok with
  | true => exact hq d'
  | false => trivial

end

/-- Every execution that the fault class allows ends with a result and a device in `Q`. -/
def Ensures (K : Faults) (Q : A → Disk B → Prop) (p : Program B A) (d : Disk B) : Prop :=
  ∀ a d', p.Exec K d a d' → Q a d'

section
variable {Q : C → Disk B → Prop} {d : Disk B} {p : Program B A} {k : A → Program B C}

theorem ensures_pure {c : C} (h : Q c d) : Ensures K Q (pure c) d := by
  intro a d' he
  obtain ⟨rfl, rfl⟩ := (exec_pure _).mp he
  exact h

theorem ensures_bind (h : ∀ a d', p.Exec K d a d' → Ensures K Q (k a) d') :
    Ensures K Q (p >>= k) d := by
  intro c d'' he
  obtain ⟨a, d', hp, hk⟩ := exec_bind.mp he
  exact h a d' hp c d'' hk

theorem ensures_ite {c : Prop} [Decidable c] {q q' : Program B C} (hq : Ensures K Q q d)
    (hq' : Ensures K Q q' d) : Ensures K Q (if c then q else q') d := by
  split_ifs
  · exact hq
  · exact hq'

theorem ensures_step {p : Program B Bool} {q : Program B C} {c : C} (hq : ∀ d', Ensures K Q q d')
    (hc : ∀ d', Q c d') : Ensures K Q (p >>= fun ok => if ok = true then q else pure c) d := by
  refine ensures_bind fun ok d' _ => ?_
  cases ok with
  | true => exact hq d'
  | false => exact ensures_pure (hc d')

theorem ensures_none {q : Program B C} : Ensures .none Q q d ↔ Q (q.eval d).1 (q.eval d).2 := by
  refine ⟨fun h => h _ _ (exec_none.mpr rfl), fun h a d' he => ?_⟩
  rw [exec_none.mp he] at h
  exact h

theorem Trace.ensures_bind {a : A} {l : List (ℕ × B)} (hp : p.Trace d a l)
    (hk : Ensures .none Q (k a) (replay d l)) : Ensures .none Q (p >>= k) d := by
  refine Program.ensures_bind fun a' d' he => ?_
  obtain ⟨rfl, rfl⟩ := Prod.mk.inj (hp.eval.symm.trans (exec_none.mp he))
  exact hk

end

def FailStop (F : A → Prop) : Program B A → Prop
  | .done _ => True
  | .read _ next => (∀ b, (next (some b)).FailStop F) ∧ ∃ a, F a ∧ next none = .done a
  | .write _ _ next => (next true).FailStop F ∧ ∃ a, F a ∧ next false = .done a

def landed : Program B A → Schedule → Disk B → ℕ
  | .done _, _, _ => 0
  | .read s next, f, d => (next (if f.reads 0 then some (d s) else none)).landed f.afterRead d
  | .write s b next, f, d =>
    match f.writes 0 with
    | .ok => (next true).landed f.afterWrite (update d s b) + 1
    | .lost => (next false).landed f.afterWrite d
    | .landed => (next false).landed f.afterWrite (update d s b) + 1

section
variable {F : A → Prop} {G : C → Prop} {p : Program B A} {k : A → Program B C}

theorem FailStop.bind (hp : p.FailStop F) (hk : ∀ a, (k a).FailStop G)
    (hstop : ∀ a, F a → ∃ c, G c ∧ k a = .done c) : (p >>= k).FailStop G := by
  induction p with
  | done v => exact hk v
  | read s next ih =>
    obtain ⟨hnext, a, ha, hnone⟩ := hp
    obtain ⟨c, hc, hdone⟩ := hstop a ha
    refine ⟨fun b => ih _ (hnext b), c, hc, ?_⟩
    exact (congrArg (Program.bind · k) hnone).trans hdone
  | write s b next ih =>
    obtain ⟨hnext, a, ha, hfalse⟩ := hp
    obtain ⟨c, hc, hdone⟩ := hstop a ha
    refine ⟨ih _ hnext, c, hc, ?_⟩
    exact (congrArg (Program.bind · k) hfalse).trans hdone

theorem FailStop.ite {p : Program B Bool} {q : Program B C} {c : C}
    (hp : p.FailStop fun ok => ok = false) (hq : q.FailStop G) (hc : G c) :
    (p >>= fun ok => if ok = true then q else pure c).FailStop G := by
  refine hp.bind (fun ok => ?_) fun ok hok => ⟨c, hc, ?_⟩
  · cases ok with
    | true => exact hq
    | false => trivial
  · rw [hok]
    rfl

theorem crashAfter_zero (p : Program B A) (d : Disk B) : crashAfter 0 p d = d := by
  rw [crashAfter_eq_replay, List.take_zero, replay_nil]

theorem FailStop.run_disk (hp : p.FailStop F) (f : Schedule) (d : Disk B) :
    (p.run f d).2 = crashAfter (p.landed f d) p d := by
  induction p generalizing f d with
  | done v => exact (crashAfter_zero _ d).symm
  | read s next ih =>
    obtain ⟨hnext, a, -, hnone⟩ := hp
    cases hr : f.reads 0 with
    | true =>
      simp only [run, landed, hr, if_true]
      have hih := ih (some (d s)) (hnext (d s)) f.afterRead d
      rw [hih]
      cases (next (some (d s))).landed f.afterRead d <;> rfl
    | false =>
      simp only [run, landed, hr, Bool.false_eq_true, if_false, hnone]
      exact (crashAfter_zero _ d).symm
  | write s b next ih =>
    obtain ⟨hnext, a, -, hfalse⟩ := hp
    cases hw : f.writes 0 with
    | ok =>
      simp only [run, landed, hw]
      exact ih true hnext f.afterWrite _
    | lost =>
      simp only [run, landed, hw, hfalse]
      rfl
    | landed =>
      simp only [run, landed, hw, hfalse]
      exact (crashAfter_zero _ _).symm

end

end Dezh.BlockProgram.Program

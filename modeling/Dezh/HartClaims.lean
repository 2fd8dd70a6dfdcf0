import Dezh.RowSteps

/-!
# Which hart runs which task

A hart's current task is its claim on it. The picker grants a claim only if no other
hart has it, so the claims stay exclusive under every interleaving of picks. Two entries
take their task by name, without a look at the claims: `run_tasks` and
`run_scheduler_from`. The claims are exclusive exactly as long as these two find their
task unclaimed, and a secondary hart that passed the enable check before the scheduler
was closed can be there first.
-/
namespace Dezh.Scheduler
open Function TaskTable PackageTasks

variable {H : Type}

/-- No task is current on two harts. -/
def Exclusive (k : Kernel H) : Prop :=
  ∀ h h' i, k.current h = some i → k.current h' = some i → h = h'

def Section.named : Section H → Option Slot
  | .enter i => some i
  | .runTasks _ => some 0
  | _ => none

/-- A named task is not current on another hart. -/
def Unclaimed (k : Kernel H) (s : Section H) : Prop :=
  ∀ i, s.named = some i → ∀ h, h ≠ k.bootHart → k.current h ≠ some i

section
variable [Fintype H] [DecidableEq H] {k : Kernel H} {s : Section H}

theorem next_current (k : Kernel H) (s : Section H) :
    (k.next s).current = k.current ∧ s.named = none ∨ (∃ h i, ¬ k.ClaimedElsewhere h i ∧
      (k.next s).current = update k.current h (some i) ∧ s.named = none) ∨
    (∃ h, (k.next s).current = update k.current h none ∧ s.named = none) ∨ ∃ i, s.named = some i ∧
      (k.next s).current = update k.current k.bootHart (some i) := by
  have hclaim : ∀ h, (k.claimNext h).current = k.current ∨ ∃ i, ¬ k.ClaimedElsewhere h i ∧
      (k.claimNext h).current = update k.current h (some i) := by
    intro h
    unfold Kernel.claimNext
    dsimp only
    cases hpick : k.expireRecvTimeouts.pickNext h with
    | none => exact .inl rfl
    | some i => exact .inr ⟨i, (Kernel.pickNext_spec hpick).2.1, rfl⟩
  have hreschedule : ∀ h, (∃ i, ¬ k.ClaimedElsewhere h i ∧
      (k.reschedule h).current = update k.current h (some i)) ∨
      (k.reschedule h).current = update k.current h none := by
    intro h
    unfold Kernel.reschedule
    dsimp only
    cases hpick : k.expireRecvTimeouts.pickNext h with
    | none => exact .inr rfl
    | some i => exact .inl ⟨i, (Kernel.pickNext_spec hpick).2.1, rfl⟩
  cases s with
  | claimFirst =>
    rcases hclaim k.bootHart with hsame | ⟨i, hfree, heq⟩
    · exact .inl ⟨hsame, rfl⟩
    · exact .inr (.inl ⟨_, i, hfree, heq, rfl⟩)
  | claimSecondary h =>
    rcases hclaim h with hsame | ⟨i, hfree, heq⟩
    · exact .inl ⟨hsame, rfl⟩
    · exact .inr (.inl ⟨_, i, hfree, heq, rfl⟩)
  | pick h =>
    rcases hreschedule h with ⟨i, hfree, heq⟩ | heq
    · exact .inr (.inl ⟨_, i, hfree, heq, rfl⟩)
    · exact .inr (.inr (.inl ⟨h, heq, rfl⟩))
  | runTasks specs => exact .inr (.inr (.inr ⟨0, rfl, rfl⟩))
  | enter i => exact .inr (.inr (.inr ⟨i, rfl, rfl⟩))
  | check h =>
    refine .inl ⟨?_, rfl⟩
    rw [Kernel.next]
    split_ifs <;> rfl
  | install h | trap h f | serve h mem | fault h | walk h =>
    refine .inl ⟨?_, rfl⟩
    rw [Kernel.next]
    split <;> rfl
  | setSmp | wipe | launch | reclaim | spawn | clearForeground | reclaimDone | tick | timer | interrupt
  | peek | leave => exact .inl ⟨rfl, rfl⟩

omit [Fintype H] in
theorem exclusive_update {h : H} {i : Slot} (hk : Exclusive k)
    (hfree : ∀ h', h' ≠ h → k.current h' ≠ some i) :
    Exclusive { k with current := update k.current h (some i) } := by
  intro h1 h2 j h1j h2j
  dsimp only at h1j h2j
  by_cases h1h : h1 = h
  · by_cases h2h : h2 = h
    · rw [h1h, h2h]
    · rw [h1h, update_self] at h1j
      rw [update_of_ne h2h, ← h1j] at h2j
      exact absurd h2j (hfree h2 h2h)
  · rw [update_of_ne h1h] at h1j
    by_cases h2h : h2 = h
    · rw [h2h, update_self] at h2j
      rw [← h2j] at h1j
      exact absurd h1j (hfree h1 h1h)
    · rw [update_of_ne h2h] at h2j
      exact hk h1 h2 j h1j h2j

theorem Exclusive.next_iff (hk : Exclusive k) : Exclusive (k.next s) ↔ Unclaimed k s := by
  rcases next_current k s with ⟨heq, hname⟩ | ⟨h, i, hfree, heq, hname⟩ | ⟨h, heq, hname⟩ |
    ⟨i, hname, heq⟩
  · refine iff_of_true ?_ fun j hj => ?_
    · rw [Exclusive, heq]
      exact hk
    · rw [hname] at hj
      cases hj
  · refine iff_of_true ?_ fun j hj => ?_
    · rw [Exclusive, heq]
      exact exclusive_update hk fun h' hne hh' => hfree ⟨h', hne, hh'⟩
    · rw [hname] at hj
      cases hj
  · refine iff_of_true ?_ fun j hj => ?_
    · rw [Exclusive, heq]
      intro h1 h2 j h1j h2j
      have hold : ∀ h', update k.current h none h' = some j → k.current h' = some j := by
        intro h' hh'
        by_cases hne : h' = h
        · rw [hne, update_self] at hh'
          cases hh'
        · rwa [update_of_ne hne] at hh'
      exact hk h1 h2 j (hold h1 h1j) (hold h2 h2j)
    · rw [hname] at hj
      cases hj
  · constructor
    · intro hnext j hj h hne hcur
      rw [hname] at hj
      cases hj
      rw [Exclusive, heq] at hnext
      have hsame := hnext h k.bootHart i
        ((update_of_ne hne _ _).trans hcur) (update_self ..)
      exact hne hsame
    · intro hfree
      rw [Exclusive, heq]
      exact exclusive_update hk (hfree i hname)

omit [Fintype H] in
theorem exclusive_boot (b : H) : Exclusive (Kernel.boot b) := by
  intro h h' i hi
  cases hi

end

section
variable [Fintype H] [DecidableEq H]

theorem after_take_succ (k : Kernel H) {run : List (Section H)} {n : ℕ} {s : Section H}
    (hs : run[n]? = some s) : k.after (run.take (n + 1)) = (k.after (run.take n)).next s := by
  rw [Kernel.after, Kernel.after, List.take_add_one, hs, Option.toList, List.foldl_append]
  rfl

/-- At no time of a run is a task current on two harts, exactly if every entry that takes
its task by name finds it unclaimed. -/
theorem claims_exclusive_iff (b : H) (run : List (Section H)) :
    (∀ n, Exclusive ((Kernel.boot b).after (run.take n))) ↔
      ∀ n s, run[n]? = some s → Unclaimed ((Kernel.boot b).after (run.take n)) s := by
  constructor
  · intro hall n s hs
    have hnext := hall (n + 1)
    rw [after_take_succ _ hs] at hnext
    exact (hall n).next_iff.mp hnext
  · intro hfree n
    induction n with
    | zero => exact exclusive_boot b
    | succ n ih =>
      cases hs : run[n]? with
      | none =>
        have hlen := List.getElem?_eq_none_iff.mp hs
        rwa [List.take_of_length_le (by omega), ← List.take_of_length_le hlen]
      | some s =>
        rw [after_take_succ _ hs]
        exact ih.next_iff.mpr (hfree n s hs)

end

def maxHarts : ℕ := 8

instance : NeZero maxHarts := ⟨by decide⟩

abbrev Hart := Fin maxHarts

def demoBuild (root : ℕ) : Build := ⟨root, [root], 0, fun _ => true⟩

def demoSpec : ProcessSpec := ⟨taskPrint ||| taskIpc, false, 0, 0, 0, 0⟩

def callBuild (root : ℕ) : Build := ⟨root, [root], 0, fun pc => pc == 100⟩

def callSpec : ProcessSpec := ⟨taskIpc, false, 0, 0, 0, 0⟩

def callFrame (n a0 a1 a2 : ℕ) : Frame := ⟨a0, a1, a2, 0, 0, n, 100⟩

def call {H : Type} (h : H) (f : Frame) : List (Section H) := [.trap h f, .serve h fun _ => 7]

/-- `smp-console` opens the scheduler and runs a process to its end; a secondary has found
it open but not looked for a task yet. The console closes the scheduler and finds no claim
outstanding. Then it runs a foreground process. -/
def lateSecondary : List (Section Hart) :=
  [.setSmp true, .wipe, .launch 0 demoSpec (some (demoBuild 16)), .claimFirst, .install 0,
    .check 1, .trap 0 ⟨0, 0, 0, 0, 0, 0, 0⟩, .serve 0 fun _ => 0, .pick 0, .leave 0,
    .reclaimDone 0, .setSmp false, .clearForeground, .reclaim 1,
    .spawn 1 demoSpec (some (demoBuild 16)), .claimSecondary 1, .enter 1]

/-- Both harts run the foreground process. -/
theorem claimed_twice :
    Allowed (fun _ _ => True) (Kernel.boot 0) lateSecondary ∧
      ¬ Exclusive ((Kernel.boot 0).after lateSecondary) := by
  have hboot : ((Kernel.boot 0).after lateSecondary).current 0 = some 1 := by decide +kernel
  have hsecondary : ((Kernel.boot 0).after lateSecondary).current 1 = some 1 := by decide +kernel
  refine ⟨by decide +kernel, fun hexclusive => ?_⟩
  exact absurd (hexclusive 0 1 1 hboot hsecondary) (by decide)

end Dezh.Scheduler

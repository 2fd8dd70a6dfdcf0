import Dezh.HartClaims

/-!
# The lifetime of an address space

A hart keeps the root of its task installed until it runs another task or has left the
scheduler, which is after it has dropped its claim; rows are reclaimed by their state
alone. So the frames of a task that has ended on a secondary hart can be returned while
that hart still works in them. If every other hart is out of the scheduler when rows are
reclaimed, no returned frame belongs to an installed root.
-/
namespace Dezh.Scheduler
open Function TaskTable

variable {H : Type}

/-- The step returns the frames of row `i` to the allocator. -/
def Releases (k : Kernel H) (s : Section H) (i : Slot) : Prop :=
  (k.tasks i).frames ≠ [] ∧ k.Resets s i ∧
    match s with
    | .launch _ _ _ | .spawn _ _ _ => False
    | _ => True

instance (k : Kernel H) (s : Section H) (i : Slot) : Decidable (Releases k s i) := by
  unfold Releases
  rcases s with _ | _
  all_goals infer_instance

def Phase.Outside : Phase → Prop
  | .out | .passed | .handling .out => True
  | _ => False

instance (p : Phase) : Decidable p.Outside := by
  unfold Phase.Outside
  split
  all_goals infer_instance

/-- Frames are returned only while every other hart is outside. -/
def Alone (k : Kernel H) (s : Section H) : Prop :=
  (∃ i, Releases k s i) → ∀ h, h ≠ k.bootHart → (k.phase h).Outside

instance [Fintype H] [DecidableEq H] (k : Kernel H) (s : Section H) : Decidable (Alone k s) :=
  inferInstanceAs (Decidable (_ → _))

/-- A hart that is not in a task has no root of a process installed. -/
def AtHome (k : Kernel H) : Prop := ∀ h, (k.phase h).Outside ∨ (k.phase h).IsEntering →
  k.satp h = .bare ∨ k.satp h = .kernel

/-- Rows that own frames have a root of their own, and a hart that is not in a task has
none of them installed. -/
structure Rooted (k : Kernel H) : Prop where
  rows : ∀ i, (k.tasks i).frames ≠ [] → ∃ r, (k.tasks i).satp = .proc r
  harts : AtHome k

section
variable {t t' : Task}

theorem Task.expire_root (ticks : ℕ) (t : Task) :
    (t.expire ticks).frames = t.frames ∧ (t.expire ticks).satp = t.satp := by
  unfold Task.expire
  split_ifs <;> exact ⟨rfl, rfl⟩

theorem Task.wakeIrq_root (t : Task) : t.wakeIrq.frames = t.frames ∧ t.wakeIrq.satp = t.satp := by
  unfold Task.wakeIrq
  split_ifs <;> exact ⟨rfl, rfl⟩

theorem Task.push_root (t : Task) (msg : Message) :
    (t.push msg).frames = t.frames ∧ (t.push msg).satp = t.satp := by
  unfold Task.push
  split_ifs <;> exact ⟨rfl, rfl⟩

theorem Task.take_root (t : Task) : t.take.frames = t.frames ∧ t.take.satp = t.satp := by
  unfold Task.take
  split_ifs <;> exact ⟨rfl, rfl⟩

theorem OwnStep.root {ticks irqs caps : ℕ} {a : Option Answer}
    (h : OwnStep t ticks irqs caps a t') : t'.frames = t.frames ∧ t'.satp = t.satp := by
  cases h with
  | took => exact t.take_root
  | sent f msg => exact t.push_root msg
  | _ => exact ⟨rfl, rfl⟩

theorem reclaim_frames (t : Task) : t.reclaim.frames = [] := by
  unfold Task.reclaim
  split_ifs with h
  · exact h
  · rfl

theorem Reset.root (h : Reset t t') (ht : t.frames ≠ [] → ∃ r, t.satp = .proc r) :
    t'.frames ≠ [] → ∃ r, t'.satp = .proc r := by
  have hwipe : t.wipe.frames = [] := reclaim_frames t
  intro hne
  cases h with
  | reclaim => exact absurd (reclaim_frames t) hne
  | wipe | clearForeground => exact absurd hwipe hne
  | spawn spec build =>
    cases build with
    | none => exact ht hne
    | some b => exact ⟨b.root, rfl⟩
  | bake spec => exact absurd rfl hne

variable [Fintype H] [DecidableEq H] {k : Kernel H} {s : Section H} {h : H}

theorem rows_next (hk : ∀ i, (k.tasks i).frames ≠ [] → ∃ r, (k.tasks i).satp = .proc r) (i : Slot) :
    ((k.next s).tasks i).frames ≠ [] → ∃ r, ((k.next s).tasks i).satp = .proc r := by
  have hrow := next_row k s i
  generalize (k.next s).tasks i = t' at hrow ⊢
  cases hrow with
  | same | trap | kill => exact hk i
  | expire =>
    obtain ⟨hframes, hsatp⟩ := (k.tasks i).expire_root k.ticks
    rw [hframes, hsatp]
    exact hk i
  | wake =>
    obtain ⟨hframes, hsatp⟩ := (k.tasks i).wakeIrq_root
    rw [hframes, hsatp]
    exact hk i
  | own h mem caps =>
    obtain ⟨hframes, hsatp⟩ := (serve_own k.tasks i k.ticks k.extIrqs caps mem).root
    rw [hframes, hsatp]
    exact hk i
  | sent h mem cur msg =>
    obtain ⟨hframes, hsatp⟩ := (k.tasks i).push_root msg
    rw [hframes, hsatp]
    exact hk i
  | launch spec build =>
    cases build with
    | none => exact hk i
    | some b => exact fun _ => ⟨b.root, rfl⟩
  | reset hr ht => exact ht.root (hk i)

omit [Fintype H] in
theorem harts_setPhase {p : Phase} {k' : Kernel H} (hphase : k'.phase = k.phase)
    (hsatp : k'.satp = k.satp) (hk : AtHome k)
    (hp : p.Outside ∨ p.IsEntering → (k.phase h).Outside ∨ (k.phase h).IsEntering) :
    AtHome (k'.setPhase h p) := by
  intro h' hout
  change k'.satp h' = _ ∨ k'.satp h' = _
  rw [hsatp]
  simp only [Kernel.setPhase, hphase] at hout
  by_cases hne : h' = h
  · rw [hne, update_self] at hout
    rw [hne]
    exact hk h (hp hout)
  · rw [update_of_ne hne] at hout
    exact hk h' hout

omit [Fintype H] in
theorem harts_toUser {r : Root} {k' : Kernel H} (hphase : k'.phase = k.phase)
    (hsatp : k'.satp = k.satp) (hk : AtHome k) :
    AtHome ((k'.installRoot h r).setPhase h .user) := by
  intro h' hout
  simp only [Kernel.setPhase, Kernel.installRoot, hphase] at hout
  simp only [Kernel.setPhase, Kernel.installRoot, hsatp]
  by_cases hne : h' = h
  · rw [hne, update_self] at hout
    exact (hout.elim (fun h => h) fun h => h).elim
  · rw [update_of_ne hne] at hout ⊢
    exact hk h' hout

theorem harts_claimNext (hk : AtHome k) (hout : (k.phase h).Outside) : AtHome (k.claimNext h) := by
  unfold Kernel.claimNext
  dsimp only
  split <;> exact harts_setPhase (k := k) rfl rfl hk fun _ => .inl hout

theorem Rooted.next (hk : Rooted k) (he : k.Enabled s) : Rooted (k.next s) := by
  refine ⟨rows_next hk.rows, ?_⟩
  have hnever : ∀ {p : Phase} {h : H}, ¬ p.Outside → ¬ p.IsEntering → p.Outside ∨ p.IsEntering →
      (k.phase h).Outside ∨ (k.phase h).IsEntering :=
    fun h1 h2 h => h.elim (fun h => absurd h h1) fun h => absurd h h2
  cases s with
  | setSmp | wipe | launch | reclaim | spawn | clearForeground | reclaimDone | tick => exact hk.harts
  | claimFirst => exact harts_claimNext hk.harts (by rw [he]; trivial)
  | claimSecondary h => exact harts_claimNext hk.harts (by rw [he.2]; trivial)
  | runTasks specs =>
    exact harts_setPhase (k := k) rfl rfl hk.harts (hnever (fun h => h) fun h => h)
  | enter i =>
    exact harts_setPhase (k := k) rfl rfl hk.harts fun _ => .inl (by rw [he]; trivial)
  | check h =>
    rw [Kernel.next]
    split_ifs
    · exact harts_setPhase (k := k) rfl rfl hk.harts fun _ => .inl (by rw [he.2]; trivial)
    · exact hk.harts
  | install h =>
    rw [Kernel.next]
    split
    · exact harts_toUser (k := k) rfl rfl hk.harts
    · exact hk.harts
  | trap h f | fault h =>
    rw [Kernel.next]
    split
    · exact harts_setPhase (k := k) rfl rfl hk.harts (hnever (fun h => h) fun h => h)
    · exact hk.harts
  | serve h mem =>
    rw [Kernel.next]
    split
    · refine harts_setPhase (k := k) rfl rfl hk.harts ?_
      split_ifs
      · exact hnever (fun h => h) fun h => h
      · exact hnever (fun h => h) fun h => h
    · exact hk.harts
  | timer h => exact harts_setPhase (k := k) rfl rfl hk.harts (hnever (fun h => h) fun h => h)
  | interrupt h =>
    refine harts_setPhase (k := k) rfl rfl hk.harts ?_
    rcases he with huser | ⟨-, hidle | hout⟩
    · rw [huser]
      exact fun hp => (hp.elim (fun h => h) fun h => h).elim
    · rw [hidle]
      exact fun hp => (hp.elim (fun h => h) fun h => h).elim
    · rw [hout]
      exact fun _ => .inl trivial
  | walk h =>
    rw [Kernel.next]
    split
    · rename_i resume hphase
      refine harts_setPhase (k := k) rfl rfl hk.harts ?_
      cases resume with
      | out => exact fun _ => .inl (by rw [hphase]; trivial)
      | user | idle => exact hnever (fun h => h) fun h => h
    · exact hk.harts
  | peek h =>
    refine harts_setPhase (k := k) rfl rfl hk.harts ?_
    split_ifs
    · exact hnever (fun h => h) fun h => h
    · exact hnever (fun h => h) fun h => h
  | pick h =>
    rw [Kernel.next, Kernel.reschedule]
    split
    · exact harts_toUser (k := k) rfl rfl hk.harts
    · exact harts_setPhase (k := k) rfl rfl hk.harts (hnever (fun h => h) fun h => h)
  | leave h =>
    intro h' hout
    simp only [Kernel.next, Kernel.setPhase, Kernel.installRoot] at hout ⊢
    by_cases hne : h' = h
    · rw [hne, update_self, Kernel.homeRoot]
      split_ifs
      · exact .inr rfl
      · exact .inl rfl
    · rw [update_of_ne hne] at hout ⊢
      exact hk.harts h' hout

omit [Fintype H] in
theorem rooted_boot (b : H) : Rooted (Kernel.boot b) := by
  refine ⟨fun i hi => absurd rfl hi, fun h _ => ?_⟩
  rw [Kernel.boot]
  dsimp only
  split_ifs
  · exact .inr rfl
  · exact .inl rfl

theorem Reachable.rooted {Q : Kernel H → Section H → Prop} (hk : Reachable Q k) : Rooted k := by
  induction hk with
  | boot b => exact rooted_boot b
  | step s _ he _ ih => exact ih.next he

/-- If every other hart is outside whenever rows are reclaimed, no frame of a task is
returned while its root is installed on a hart. -/
theorem no_release_under_root (hk : Reachable Alone k) (he : k.Enabled s) (hs : Alone k s)
    {i : Slot} (hi : Releases k s i) (h : H) : k.satp h ≠ (k.tasks i).satp := by
  obtain ⟨r, hr⟩ := hk.rooted.rows i hi.1
  have hout : (k.phase h).Outside := by
    by_cases hboot : h = k.bootHart
    · have hconsole : k.phase k.bootHart = .out := by
        obtain ⟨-, hresets, hkind⟩ := hi
        cases s with
        | wipe | runTasks | reclaim | clearForeground | reclaimDone => exact he
        | _ => first | exact hkind.elim | exact hresets.elim
      rw [hboot, hconsole]
      trivial
    · exact hs ⟨i, hi⟩ h hboot
  rw [hr]
  rcases hk.rooted.harts h (.inl hout) with hroot | hroot
  · rw [hroot]
    exact Root.noConfusion
  · rw [hroot]
    exact Root.noConfusion

end

def oneProcess : List (Section Hart) :=
  [.wipe, .launch 0 demoSpec (some (demoBuild 16)), .claimFirst, .install 0,
    .trap 0 ⟨0, 0, 0, 0, 0, 0, 0⟩, .serve 0 fun _ => 0, .pick 0, .leave 0]

theorem no_release_under_root_process :
    Allowed Alone (Kernel.boot 0) oneProcess ∧
      Releases ((Kernel.boot 0).after oneProcess) (.reclaimDone 0) 0 ∧
      ∀ h, ((Kernel.boot 0).after oneProcess).satp h ≠
        (((Kernel.boot 0).after oneProcess).tasks 0).satp := by
  have ha : Allowed Alone (Kernel.boot 0) oneProcess := by decide +kernel
  have hr : Releases ((Kernel.boot 0).after oneProcess) (.reclaimDone 0) 0 := by decide +kernel
  refine ⟨ha, hr, no_release_under_root ((Reachable.boot 0).run ha) ?_ ?_ hr⟩
  · decide +kernel
  · decide +kernel

/-- `smp-console` with two processes: the secondary's process exits, and before that hart
has looked for another task the boot hart has finished its own and reclaims both. -/
def twoProcesses : List (Section Hart) :=
  [.setSmp true, .wipe, .launch 0 demoSpec (some (demoBuild 16)),
    .launch 1 demoSpec (some (demoBuild 32)), .claimFirst, .check 1, .claimSecondary 1, .install 1,
    .trap 1 ⟨0, 0, 0, 0, 0, 0, 0⟩, .serve 1 fun _ => 0, .install 0,
    .trap 0 ⟨0, 0, 0, 0, 0, 0, 0⟩, .serve 0 fun _ => 0, .pick 0, .leave 0]

/-- The frames of the secondary's process are returned under its installed root. -/
theorem released_under_root :
    Allowed (fun _ _ => True) (Kernel.boot 0) (twoProcesses ++ [.reclaimDone 0]) ∧
      Releases ((Kernel.boot 0).after twoProcesses) (.reclaimDone 0) 1 ∧
      ((Kernel.boot 0).after twoProcesses).satp 1 =
        (((Kernel.boot 0).after twoProcesses).tasks 1).satp := by
  decide +kernel

end Dezh.Scheduler

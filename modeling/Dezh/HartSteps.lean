import Dezh.HartClaims

/-!
# What a step does to a hart

Everything that can happen to the claim and the phase of one hart in one step: it moves
on with its task, takes a ready task from the picker, takes a task by name, or finds none
and drops its claim. The two counters of the kernel move with the timer and with device
interrupts only.
-/
namespace Dezh.Scheduler
open Function TaskTable

variable {H : Type}

/-- How hart `h` moves on in step `s` without a change of its claim. -/
inductive Moves (s : Section H) (h : H) : Phase → Phase → Prop
  | check : Moves s h .out .passed
  | nothing : Moves s h .passed .out
  | install (r : Root) : Moves s h (.entering r) .user
  | trap (f : Frame) (caps : ℕ) (hs : s = .trap h f) : Moves s h .user (.trap caps)
  | answered (caps : ℕ) (mem : ℕ → UInt8) (hs : s = .serve h mem) : Moves s h (.trap caps) .user
  | stopped (caps : ℕ) (mem : ℕ → UInt8) (hs : s = .serve h mem) : Moves s h (.trap caps) .resched
  | preempted : Moves s h .user .resched
  | interrupt (r : Resume) : Moves s h r.phase (.handling r)
  | walk (r : Resume) (hs : s = .walk h) : Moves s h (.handling r) r.phase
  | peek : Moves s h .resched .idle
  | woken : Moves s h .idle .resched
  | left : Moves s h .leaving .out

/-- Everything a step can do to the claim and the phase of hart `h`. -/
inductive HartStep (k k' : Kernel H) (s : Section H) (h : H) : Option Slot → Phase → Prop
  | same : HartStep k k' s h (k.current h) (k.phase h)
  | move (p : Phase) (hm : Moves s h (k.phase h) p) : HartStep k k' s h (k.current h) p
  | pick (i : Slot) (p : Phase) (hfrom : ¬ (k.phase h).IsHandling) (hp : p.IsEntering ∨ p = .user)
      (hready : (k'.tasks i).state = .ready) : HartStep k k' s h (some i) p
  | name (i : Slot) (p : Phase) (hfrom : ¬ (k.phase h).IsHandling) (hp : p.IsEntering ∨ p = .user)
      (hs : s.named = some i) : HartStep k k' s h (some i) p
  | drop (hfrom : ¬ (k.phase h).IsHandling) : HartStep k k' s h none .leaving

def Section.ticked : Section H → ℕ
  | .tick | .timer _ => 1
  | _ => 0

def Section.counted : Section H → ℕ
  | .interrupt _ => 1
  | _ => 0

section
variable [Fintype H] [DecidableEq H]

theorem claimNext_counters (k : Kernel H) (h : H) :
    (k.claimNext h).ticks = k.ticks ∧ (k.claimNext h).extIrqs = k.extIrqs := by
  unfold Kernel.claimNext
  dsimp only
  split <;> exact ⟨rfl, rfl⟩

theorem reschedule_counters (k : Kernel H) (h : H) :
    (k.reschedule h).ticks = k.ticks ∧ (k.reschedule h).extIrqs = k.extIrqs := by
  unfold Kernel.reschedule
  dsimp only
  split <;> exact ⟨rfl, rfl⟩

theorem next_counters (k : Kernel H) (s : Section H) :
    (k.next s).ticks = k.ticks + s.ticked ∧ (k.next s).extIrqs = k.extIrqs + s.counted := by
  cases s with
  | claimFirst => exact claimNext_counters k _
  | claimSecondary h => exact claimNext_counters k h
  | pick h => exact reschedule_counters k h
  | check h =>
    rw [Kernel.next]
    split_ifs <;> exact ⟨rfl, rfl⟩
  | install | trap | serve | fault | walk =>
    rw [Kernel.next]
    split <;> exact ⟨rfl, rfl⟩
  | _ => exact ⟨rfl, rfl⟩

end

section
variable [DecidableEq H] {k k' : Kernel H} {s : Section H} {h h' : H} {i : Slot}

theorem hart_setPhase {k0 : Kernel H} {p : Phase} (hphase : k0.phase = k.phase)
    (hcurrent : k0.current = k.current) (hm : k.phase h' = p ∨ Moves s h' (k.phase h') p) :
    HartStep k k' s h ((k0.setPhase h' p).current h) ((k0.setPhase h' p).phase h) := by
  simp only [Kernel.setPhase, hphase, hcurrent]
  by_cases hne : h = h'
  · rw [hne, update_self]
    rcases hm with hsame | hm
    · rw [← hsame]
      exact .same
    · exact .move p hm
  · rw [update_of_ne hne]
    exact .same

theorem hart_claim {k0 : Kernel H} {p : Phase} (hphase : k0.phase = k.phase)
    (hcurrent : k0.current = k.current) (hstep : HartStep k k' s h' (some i) p) :
    HartStep k k' s h (((k0.claim h' (some i)).setPhase h' p).current h)
      (((k0.claim h' (some i)).setPhase h' p).phase h) := by
  simp only [Kernel.setPhase, Kernel.claim, hphase, hcurrent]
  by_cases hne : h = h'
  · rw [hne, update_self, update_self]
    exact hstep
  · rw [update_of_ne hne, update_of_ne hne]
    exact .same

variable [Fintype H]

theorem hart_claimNext {q : Phase} (hq : k.phase h' = q) (hout : q = .out ∨ q = .passed) :
    HartStep k (k.claimNext h') s h ((k.claimNext h').current h) ((k.claimNext h').phase h) := by
  have hfrom : ¬ (k.phase h').IsHandling := by
    rw [hq]
    rcases hout with rfl | rfl
    all_goals exact fun h => h
  unfold Kernel.claimNext
  dsimp only
  cases hpick : k.expireRecvTimeouts.pickNext h' with
  | none =>
    refine hart_setPhase (k := k) rfl rfl ?_
    rcases hout with rfl | rfl
    · exact .inl hq
    · rw [hq]
      exact .inr .nothing
  | some i =>
    have hready := (Kernel.pickNext_spec hpick).1
    exact hart_claim (k := k) rfl rfl (.pick i _ hfrom (.inl trivial) hready)

theorem hart_reschedule (hfrom : ¬ (k.phase h').IsHandling) :
    HartStep k (k.reschedule h') s h ((k.reschedule h').current h) ((k.reschedule h').phase h) := by
  unfold Kernel.reschedule
  dsimp only
  cases hpick : k.expireRecvTimeouts.pickNext h' with
  | none =>
    dsimp only [Kernel.setPhase, Kernel.claim]
    by_cases hne : h = h'
    · rw [hne, update_self, update_self]
      exact .drop hfrom
    · rw [update_of_ne hne, update_of_ne hne]
      exact .same
  | some i =>
    have hready := (Kernel.pickNext_spec hpick).1
    exact hart_claim (k := k) rfl rfl (.pick i _ hfrom (.inr rfl) hready)

theorem next_hart (he : k.Enabled s) (h : H) :
    HartStep k (k.next s) s h ((k.next s).current h) ((k.next s).phase h) := by
  cases s with
  | setSmp | wipe | launch | reclaim | spawn | clearForeground | reclaimDone | tick => exact .same
  | claimFirst => exact hart_claimNext he (.inl rfl)
  | claimSecondary h' => exact hart_claimNext he.2 (.inr rfl)
  | pick h' =>
    refine hart_reschedule ?_
    rcases he with hresched | ⟨-, hidle⟩
    · rw [hresched]
      exact fun h => h
    · rw [hidle]
      exact fun h => h
  | runTasks specs =>
    refine hart_claim (k := k) rfl rfl (.name 0 .user ?_ (.inr rfl) rfl)
    rw [he]
    exact fun h => h
  | enter j =>
    refine hart_claim (k := k) rfl rfl (.name j _ ?_ (.inl trivial) rfl)
    rw [he]
    exact fun h => h
  | check h' =>
    rw [Kernel.next]
    split_ifs
    · refine hart_setPhase (k := k) rfl rfl (.inr ?_)
      rw [he.2]
      exact .check
    · exact .same
  | install h' =>
    rw [Kernel.next]
    split
    · rename_i r hphase
      refine hart_setPhase (k := k) rfl rfl (.inr ?_)
      rw [hphase]
      exact .install r
    · exact .same
  | trap h' f =>
    rw [Kernel.next]
    split
    · refine hart_setPhase (k := k) rfl rfl (.inr ?_)
      rw [he.1]
      exact .trap f _ rfl
    · exact .same
  | serve h' mem =>
    rw [Kernel.next]
    split
    · rename_i i caps hcur hphase
      refine hart_setPhase (k := k) rfl rfl (.inr ?_)
      rw [hphase]
      split_ifs
      · exact .answered caps mem rfl
      · exact .stopped caps mem rfl
    · exact .same
  | fault h' =>
    rw [Kernel.next]
    split
    · refine hart_setPhase (k := k) rfl rfl (.inr ?_)
      rw [he]
      exact .preempted
    · exact .same
  | timer h' =>
    refine hart_setPhase (k := k) rfl rfl (.inr ?_)
    rw [he]
    exact .preempted
  | interrupt h' =>
    refine hart_setPhase (k := k) rfl rfl (.inr ?_)
    rcases he with huser | ⟨-, hidle | hout⟩
    · rw [huser]
      exact .interrupt .user
    · rw [hidle]
      exact .interrupt .idle
    · rw [hout]
      exact .interrupt .out
  | walk h' =>
    rw [Kernel.next]
    split
    · rename_i r hphase
      refine hart_setPhase (k := k) rfl rfl (.inr ?_)
      rw [hphase]
      exact .walk r rfl
    · exact .same
  | peek h' =>
    refine hart_setPhase (k := k) rfl rfl ?_
    rcases he.2 with hresched | hidle
    · rw [hresched]
      split_ifs
      · exact .inr .peek
      · exact .inl rfl
    · rw [hidle]
      split_ifs
      · exact .inl rfl
      · exact .inr .woken
  | leave h' =>
    refine hart_setPhase (k := k) rfl rfl (.inr ?_)
    rw [he]
    exact .left

theorem next_trapped {caps : ℕ} (he : k.Enabled s) (hcur : (k.next s).current h = some i)
    (hphase : (k.next s).phase h = .trap caps) :
    k.current h = some i ∧ (k.phase h = .trap caps ∨ ∃ f, s = .trap h f) := by
  have hstep := next_hart he h
  rw [hcur, hphase] at hstep
  generalize hc : some i = c at hstep
  generalize hq : Phase.trap caps = p at hstep
  cases hstep with
  | same => exact ⟨rfl, .inl rfl⟩
  | move p hm =>
    refine ⟨rfl, .inr ?_⟩
    generalize k.phase h = q at hm
    cases hm with
    | trap f caps hs => exact ⟨f, hs⟩
    | walk r =>
      cases r with
      | _ => cases hq
    | _ => cases hq
  | pick j p _ hp | name j p _ hp =>
    subst hq
    rcases hp with hp | hp
    · exact hp.elim
    · cases hp
  | drop => cases hq

end

end Dezh.Scheduler

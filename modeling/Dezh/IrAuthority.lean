import Dezh.IrSafety

/-!
# Fewer capabilities, fewer effects

Two runs of one program on hosts that differ in their capabilities only. The
machines are equal until the first host call that the smaller set does not cover;
there the smaller run stops. So what the host sees of the smaller run is a part of
what it sees of the larger one, and whatever a host sees was covered by a
capability when it was asked for.
-/
namespace Dezh.IrMachine
open StepRun

section
variable {S : Type} {p : Profile} {h : Host S} {code : List UInt8} {m : Machine S}

def effects : Step S → List (S × Effect)
  | .next m => m.log
  | .stop e => e.log

def Host.withCaps (h : Host S) (can : S → ℕ → Bool) : Host S := { h with can := can }

/-- Effects are only added, and only under a capability. -/
def Extends (h : Host S) (before after : List (S × Effect)) : Prop :=
  ∃ new, after = before ++ new ∧ ∀ q ∈ new, h.can q.1 q.2.cap = true

theorem Extends.refl (h : Host S) (l : List (S × Effect)) : Extends h l l :=
  ⟨[], (List.append_nil l).symm, fun _ hq => absurd hq List.not_mem_nil⟩

theorem Extends.trans {a b c : List (S × Effect)} (hab : Extends h a b) (hbc : Extends h b c) :
    Extends h a c := by
  obtain ⟨u, rfl, hu⟩ := hab
  obtain ⟨v, rfl, hv⟩ := hbc
  refine ⟨u ++ v, List.append_assoc _ _ _, ?_⟩
  intro q hq
  cases List.mem_append.mp hq with
  | inl hq => exact hu q hq
  | inr hq => exact hv q hq

theorem Extends.single {l : List (S × Effect)} {s : S} {e : Effect}
    (hc : h.can s e.cap = true) : Extends h l (l ++ [(s, e)]) := by
  refine ⟨_, rfl, ?_⟩
  intro q hq
  rw [List.mem_singleton.mp hq]
  exact hc

def hostOf : Step S → S
  | .next m => m.host
  | .stop e => e.host

def Host.after (h : Host S) (s : S) : Effect → S
  | .printNum v => h.printNum s v
  | .printStr t => h.printStr s t
  | .cairnPut data => (h.cairnPut s data).2
  | .cairnGet buf => (h.cairnGet s buf).2.2

/-- In one turn the host is not asked, or once and under a capability. -/
inductive Turn (h : Host S) (s : S) (l : List (S × Effect)) (o : Step S) : Prop
  | quiet (host : hostOf o = s) (log : effects o = l)
  | asks (e : Effect) (can : h.can s e.cap = true) (host : hostOf o = h.after s e)
      (log : effects o = l ++ [(s, e)])

theorem Turn.extends {s : S} {l : List (S × Effect)} {o : Step S} (ht : Turn h s l o) :
    Extends h l (effects o) := by
  cases ht with
  | quiet _ hlog => rw [hlog]; exact .refl h l
  | asks e hcan _ hlog => rw [hlog]; exact .single hcan

theorem Machine.orFail_turn {A : Type} {s : S} {l : List (S × Effect)} {x : Except Fault A}
    {k : A → Step S} (hm : Turn h s l (.next m)) (hk : ∀ a, Turn h s l (k a)) :
    Turn h s l (m.orFail x k) := by
  cases x with
  | error f =>
    cases hm with
    | quiet hhost hlog => exact .quiet hhost hlog
    | asks e hcan hhost hlog => exact .asks e hcan hhost hlog
  | ok a => exact hk a

theorem perform_turn {fn : HostFn} (hc : h.can m.host fn.cap = true) :
    Turn h m.host m.log (perform p h fn m) := by
  have here : Turn h m.host m.log (.next m) := .quiet rfl rfl
  cases fn with
  | printNum =>
    apply Machine.orFail_turn here
    intro r
    exact .asks (.printNum r.1) hc rfl rfl
  | printStr =>
    apply Machine.orFail_turn here
    intro r
    exact .asks (.printStr r.2.2.1) hc rfl rfl
  | cairnPut =>
    apply Machine.orFail_turn here
    intro r
    dsimp only
    split_ifs
    · exact .asks (.cairnPut r.2.2.1) hc rfl rfl
    · exact .asks (.cairnPut r.2.2.1) hc rfl rfl
  | cairnGet =>
    apply Machine.orFail_turn here
    intro ⟨a, e, buf, vm⟩
    dsimp only
    have asked : Turn h m.host m.log (.next ((m.setVm vm).emit (.cairnGet buf) (h.cairnGet m.host buf).2.2)) :=
      .asks (.cairnGet buf) hc rfl rfl
    apply Machine.orFail_turn asked
    intro mem
    cases (h.cairnGet m.host buf).1 with
    | none => exact .asks (.cairnGet buf) hc rfl rfl
    | some n =>
      apply Machine.orFail_turn asked
      intro vm'
      exact .asks (.cairnGet buf) hc rfl rfl

theorem hostcall_turn (f : UInt8) : Turn h m.host m.log (hostcall p h f m) := by
  unfold hostcall
  cases HostFn.ofByte f with
  | none => exact .quiet rfl rfl
  | some fn =>
    dsimp only
    split_ifs with hc
    · exact perform_turn hc
    · exact .quiet rfl rfl

theorem execute_turn (op : Opcode) : Turn h m.host m.log (execute p h code op m) := by
  have here : Turn h m.host m.log (.next m) := .quiet rfl rfl
  cases op with
  | halt => exact .quiet rfl rfl
  | push =>
    apply Machine.orFail_turn here
    intro v
    apply Machine.orFail_turn here
    intro vm
    exact .quiet rfl rfl
  | data d =>
    apply Machine.orFail_turn here
    intro vm
    exact .quiet rfl rfl
  | jmp =>
    apply Machine.orFail_turn here
    intro t
    exact .quiet rfl rfl
  | jz | jnz =>
    apply Machine.orFail_turn here
    intro t
    apply Machine.orFail_turn here
    intro r
    exact .quiet rfl rfl
  | call =>
    apply Machine.orFail_turn here
    intro t
    apply Machine.orFail_turn here
    intro vm
    exact .quiet rfl rfl
  | ret =>
    apply Machine.orFail_turn here
    intro r
    exact .quiet rfl rfl
  | hostcall =>
    apply Machine.orFail_turn here
    intro f
    exact @hostcall_turn S p h (m.setPc (m.pc + 1)) f

theorem step_turn : Turn h m.host m.log (step p h code m) := by
  rcases step_cases p h code m with ⟨op, -, he⟩ | ⟨-, he⟩ | ⟨-, -, he⟩
  · rw [he]
    exact @execute_turn S p h code (m.setPc (m.pc + 1)) op
  · rw [he]
    exact .quiet rfl rfl
  · rw [he]
    exact .quiet rfl rfl

variable (h) in
def Chained : S → List (S × Effect) → S → Prop
  | s, [], t => s = t
  | s, q :: rest, t => q.1 = s ∧ Chained (h.after s q.2) rest t

theorem Chained.asked {s t : S} {l : List (S × Effect)} (hc : Chained h s l t) (e : Effect) :
    Chained h s (l ++ [(t, e)]) (h.after t e) := by
  induction l generalizing s with
  | nil =>
    cases hc
    exact ⟨rfl, rfl⟩
  | cons q rest ih => exact ⟨hc.1, ih hc.2⟩

theorem Chained.split {s t : S} {l l' : List (S × Effect)} (hc : Chained h s (l ++ l') t) :
    ∃ u, Chained h s l u ∧ Chained h u l' t := by
  induction l generalizing s with
  | nil => exact ⟨s, rfl, hc⟩
  | cons q rest ih =>
    obtain ⟨u, hu, hrest⟩ := ih hc.2
    exact ⟨u, ⟨hc.1, hu⟩, hrest⟩

theorem chained_run (n : ℕ) (s : S) :
    Chained h s (effects (run p h code n s)) (hostOf (run p h code n s)) := by
  induction n with
  | zero => exact rfl
  | succ n ih =>
    unfold run at ih ⊢
    rw [runFor_succ]
    cases hrun : runFor (step p h code) n (Machine.init s) with
    | stop e =>
      rw [hrun] at ih
      exact ih
    | next m =>
      rw [hrun] at ih
      cases @step_turn S p h code m with
      | quiet hhost hlog =>
        dsimp only
        rw [hhost, hlog]
        exact ih
      | asks e _ hhost hlog =>
        dsimp only
        rw [hhost, hlog]
        exact ih.asked e

theorem run_effects_mono {k n : ℕ} (hk : k ≤ n) (s : S) :
    Extends h (effects (run p h code k s)) (effects (run p h code n s)) := by
  induction hk with
  | refl => exact .refl _ _
  | @step n _ ih =>
    apply ih.trans
    unfold run
    rw [runFor_succ]
    cases runFor (step p h code) n (Machine.init s) with
    | next a => exact step_turn.extends
    | stop e => exact .refl _ _

/-- The turn in which the smaller run stops, before the host sees anything. -/
def Denied (p : Profile) (h : Host S) (code : List UInt8) (m : Machine S) : Prop :=
  ∃ e, step p h code m = .stop e ∧ e.result = .error (.trap .missingCapability) ∧ e.log = m.log

theorem perform_withCaps (can : S → ℕ → Bool) (fn : HostFn) :
    perform p (h.withCaps can) fn m = perform p h fn m := by
  cases fn <;> rfl

theorem hostcall_withCaps {can : S → ℕ → Bool}
    (hsub : ∀ s c, can s c = true → h.can s c = true) (f : UInt8) :
    hostcall p (h.withCaps can) f m = hostcall p h f m ∨
      hostcall p (h.withCaps can) f m = m.fail (.trap .missingCapability) := by
  unfold hostcall
  cases HostFn.ofByte f with
  | none => exact Or.inl rfl
  | some fn =>
    by_cases hc : can m.host fn.cap = true
    · left
      have hc' : (h.withCaps can).can m.host fn.cap = true := hc
      simp only [if_pos hc', if_pos (hsub _ _ hc), perform_withCaps]
    · right
      exact if_neg hc

theorem step_withCaps {can : S → ℕ → Bool} (hsub : ∀ s c, can s c = true → h.can s c = true)
    (m : Machine S) :
    step p (h.withCaps can) code m = step p h code m ∨ Denied p (h.withCaps can) code m := by
  rcases step_cases p h code m with ⟨op, hop, he⟩ | ⟨hlen, he⟩ | ⟨hlt, hnone, he⟩
  · rw [he]
    have he' := @step_of_fetch S p (h.withCaps can) code m op hop
    cases op with
    | hostcall =>
      unfold Denied
      rw [he']
      unfold execute
      cases hostNumber code (m.setPc (m.pc + 1)).pc with
      | error g => exact Or.inl rfl
      | ok f =>
        apply (hostcall_withCaps hsub f).imp
        · exact fun heq => heq
        · exact fun heq => ⟨_, heq, rfl, rfl⟩
    | halt | push | data d | jmp | jz | jnz | call | ret =>
      left
      rw [he']
      rfl
  · left
    rw [he, step, if_neg (Nat.not_lt_of_le hlen)]
  · left
    rcases step_cases p (h.withCaps can) code m with ⟨op, hop, -⟩ | ⟨hlen, -⟩ | ⟨-, -, he'⟩
    · rw [hnone] at hop
      cases hop
    · exact absurd hlt (Nat.not_lt_of_le hlen)
    · rw [he, he']

end

/-- Two runs of one program, on one host with two capability checks, the first at
most as permissive as the second. -/
theorem authority_monotone {S : Type} (p : Profile) (h : Host S) (can : S → ℕ → Bool)
    (hsub : ∀ s c, can s c = true → h.can s c = true) (code : List UInt8) (s : S) (n : ℕ) :
    effects (run p (h.withCaps can) code n s) <+: effects (run p h code n s) ∧
      (run p (h.withCaps can) code n s = run p h code n s ∨
        ∃ e, run p (h.withCaps can) code n s = .stop e ∧
          e.result = .error (.trap .missingCapability)) ∧
      (∀ q ∈ effects (run p (h.withCaps can) code n s), can q.1 q.2.cap = true) ∧
      ∀ q ∈ effects (run p h code n s), h.can q.1 q.2.cap = true := by
  have authorised : ∀ (g : Host S), ∀ q ∈ effects (run p g code n s), g.can q.1 q.2.cap = true := by
    intro g q hq
    obtain ⟨new, heq, hnew⟩ := @run_effects_mono S p g code 0 n (Nat.zero_le n) s
    rw [heq] at hq
    exact hnew q hq
  rw [← and_assoc]
  refine ⟨?_, authorised (h.withCaps can), authorised h⟩
  cases runFor_eq_or_diverge (@step_withCaps S p h code can hsub) n (Machine.init s) with
  | inl heq =>
    have heq : run p (h.withCaps can) code n s = run p h code n s := heq
    rw [heq]
    exact ⟨List.prefix_refl _, Or.inl rfl⟩
  | inr hdiv =>
    obtain ⟨k, hk, a, hsmall, hlarge, e, hstop, hresult, hlog⟩ := hdiv
    have hend : run p (h.withCaps can) code (k + 1) s = .stop e := by
      rw [run, runFor_succ, hsmall]
      exact hstop
    have hend : run p (h.withCaps can) code n s = .stop e := runFor_stop_mono hend hk
    rw [hend]
    refine ⟨?_, Or.inr ⟨e, rfl, hresult⟩⟩
    -- the larger run has shown the same effects at that turn, and only adds to them
    obtain ⟨new, hnew, -⟩ := @run_effects_mono S p h code k n (Nat.le_of_lt hk) s
    have hat : effects (run p h code k s) = a.log := by rw [run, hlarge]; rfl
    rw [hnew, hat]
    change e.log <+: _
    rw [hlog]
    exact List.prefix_append _ _

def printThenGet : List UInt8 :=
  [0x01, 7, 0, 0, 0, 0, 0, 0, 0, 0x50, 0, 0x01, 0, 0, 0, 0, 0, 0, 0, 0,
    0x01, 4, 0, 0, 0, 0, 0, 0, 0, 0x50, 3]

/-- Without the read capability the program prints and stops at the read. -/
theorem authority_monotone_print :
    effects (run .release (openHost.withCaps fun _ c => c == capPrint) printThenGet 6 ()) =
        [((), .printNum 7)] ∧
      [((), .printNum 7)] <+: effects (run .release openHost printThenGet 6 ()) := by
  have hprint : effects (run .release (openHost.withCaps fun _ c => c == capPrint)
      printThenGet 6 ()) = [((), .printNum 7)] := by decide +kernel
  refine ⟨hprint, ?_⟩
  rw [← hprint]
  exact (authority_monotone .release openHost _ (fun _ _ _ => rfl) printThenGet () 6).1

end Dezh.IrMachine

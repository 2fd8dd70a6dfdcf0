import Dezh.IrSafety

/-!
# What the verifier guarantees

The verifier walks the program once to record where its instructions start and
once more to check that every branch lands on a start. An accepted program is
closed under its own control flow: from a start the next instruction begins at a
start or at the end, and so does every branch. The interpreter decodes on its own,
so the guarantee is an invariant of its runs: the counter and all saved return
addresses stay on this decomposition.
-/
namespace Dezh.IrMachine
open StepRun

variable {pc : ℕ} {op : Opcode}

/-- An offset where execution may continue: a start, or the end of the program. -/
def Boundary (code : List UInt8) (starts : List ℕ) (pc : ℕ) : Prop :=
  pc ∈ starts ∨ pc = code.length

/-- The starts decompose the program, and its branches stay on them. -/
structure Decomposes (code : List UInt8) (starts : List ℕ) : Prop where
  first : Boundary code starts 0
  closed : ∀ pc ∈ starts, ∃ op, fetch code pc = some op ∧ pc + op.size ≤ code.length ∧
    Boundary code starts (pc + op.size)
  targets : ∀ pc ∈ starts, ∀ op, fetch code pc = some op → op.hasTarget = true →
    ∃ t ∈ starts, target code (pc + 1) = .ok t

variable {code : List UInt8} {starts : List ℕ}

theorem fetch_of_lt (h : pc < code.length) :
    byteAt code pc = .ok code[pc] ∧ fetch code pc = Opcode.ofByte code[pc] := by
  have hb := List.getElem?_eq_getElem h
  constructor
  · exact byteAt_eq hb
  · rw [fetch, hb]
    rfl

theorem lt_of_fetch (h : fetch code pc = some op) : pc < code.length := by
  obtain ⟨b, hb, -⟩ := Option.bind_eq_some_iff.mp h
  exact (List.getElem?_eq_some_iff.mp hb).1

theorem ok_bind {ε A B : Type} (a : A) (k : A → Except ε B) : (Except.ok a >>= k) = k a := rfl

theorem bind_eq_ok {ε A B : Type} {x : Except ε A} {k : A → Except ε B} {b : B}
    (h : (x >>= k) = .ok b) : ∃ a, x = .ok a ∧ k a = .ok b := by
  cases x with
  | error e => cases h
  | ok a => exact ⟨a, rfl, h⟩

theorem Opcode.size_of_hasTarget (op : Opcode) (h : op.hasTarget = true) : op.size = 3 := by
  cases op with
  | jmp | jz | jnz | call => rfl
  | halt | push | data d | ret | hostcall => cases h

theorem instructionStarts_end (h : ¬ pc < code.length) : instructionStarts code pc = .ok [] := by
  rw [instructionStarts, if_neg h]
  rfl

theorem instructionStarts_ok {l : List ℕ} (h : pc < code.length)
    (hl : instructionStarts code pc = .ok l) :
    ∃ op rest, fetch code pc = some op ∧ pc + op.size ≤ code.length ∧
      instructionStarts code (pc + op.size) = .ok rest ∧ l = pc :: rest := by
  obtain ⟨hbyte, hfetch⟩ := fetch_of_lt h
  rw [instructionStarts, if_pos h, hbyte] at hl
  rw [ok_bind] at hl
  cases hop : Opcode.ofByte code[pc] with
  | none =>
    rw [hop] at hl
    cases hl
  | some op =>
    rw [hop] at hl
    dsimp only at hl
    split_ifs at hl with hlen
    obtain ⟨rest, hrest, hl⟩ := bind_eq_ok hl
    cases hl
    exact ⟨op, rest, hfetch.trans hop, Nat.le_of_not_lt hlen, hrest, rfl⟩

theorem checkTargets_ok (hop : fetch code pc = some op)
    (hlen : pc + op.size ≤ code.length) (hc : checkTargets code starts pc = .ok ()) :
    (op.hasTarget = true → ∃ t ∈ starts, target code (pc + 1) = .ok t) ∧
      checkTargets code starts (pc + op.size) = .ok () := by
  have h := lt_of_fetch hop
  obtain ⟨hbyte, hfetch⟩ := fetch_of_lt h
  rw [hfetch] at hop
  rw [checkTargets, if_pos h, hbyte] at hc
  rw [ok_bind, hop] at hc
  dsimp only at hc
  split_ifs at hc with ht
  · have hsize := op.size_of_hasTarget ht
    have h1 : pc + 1 < code.length := by omega
    have h2 : pc + 2 < code.length := by omega
    obtain ⟨lo, hlo, hc⟩ := bind_eq_ok hc
    obtain ⟨hi, hhi, hc⟩ := bind_eq_ok hc
    rw [(fetch_of_lt h1).1] at hlo
    rw [(fetch_of_lt h2).1] at hhi
    cases hlo
    cases hhi
    split_ifs at hc with hbad
    · cases hc
    · have hmem := Decidable.not_not.mp (not_or.mp hbad).2
      refine ⟨fun _ => ⟨_, hmem, ?_⟩, hc⟩
      have hle : ¬ code.length < pc + 1 + 2 := by omega
      rw [target, if_neg hle, (fetch_of_lt h1).1, (fetch_of_lt h2).1]
      rfl
  · exact ⟨fun hn => absurd hn ht, hc⟩

theorem decomposes_from (n : ℕ) : ∀ (pc : ℕ) (l : List ℕ), code.length - pc ≤ n →
    pc ≤ code.length → instructionStarts code pc = .ok l → l ⊆ starts →
    checkTargets code starts pc = .ok () →
    Boundary code l pc ∧ ∀ q ∈ l, (∃ op, fetch code q = some op ∧ q + op.size ≤ code.length ∧
        Boundary code starts (q + op.size)) ∧
      ∀ op, fetch code q = some op → op.hasTarget = true →
        ∃ t ∈ starts, target code (q + 1) = .ok t := by
  induction n with
  | zero =>
    intro pc l hn hle hl _ _
    have hpc : pc = code.length := by omega
    rw [instructionStarts_end (by omega)] at hl
    cases hl
    exact ⟨Or.inr hpc, fun q hq => absurd hq List.not_mem_nil⟩
  | succ n ih =>
    intro pc l hn hle hl hsub hc
    by_cases h : pc < code.length
    · obtain ⟨op, rest, hop, hlen, hrest, rfl⟩ := instructionStarts_ok h hl
      obtain ⟨htarget, hc'⟩ := checkTargets_ok hop hlen hc
      have hpos := op.size_pos
      have hsub' : rest ⊆ starts := fun q hq => hsub (List.mem_cons_of_mem _ hq)
      obtain ⟨hnext, hrec⟩ := ih (pc + op.size) rest (by omega) hlen hrest hsub' hc'
      refine ⟨Or.inl List.mem_cons_self, ?_⟩
      intro q hq
      cases List.mem_cons.mp hq with
      | inl heq =>
        rw [heq]
        refine ⟨⟨op, hop, hlen, hnext.imp (@hsub' _) id⟩, ?_⟩
        intro op' hop'
        rw [hop] at hop'
        cases hop'
        exact htarget
      | inr hmem => exact hrec q hmem
    · have hpc : pc = code.length := by omega
      rw [instructionStarts_end h] at hl
      cases hl
      exact ⟨Or.inr hpc, fun q hq => absurd hq List.not_mem_nil⟩

theorem decomposes_of_verify (h : verify code = .ok ()) :
    ∃ starts, instructionStarts code 0 = .ok starts ∧ Decomposes code starts := by
  unfold verify at h
  split_ifs at h with hlen
  obtain ⟨starts, hs, hc⟩ := bind_eq_ok h
  obtain ⟨hfirst, hall⟩ := decomposes_from code.length 0 starts (Nat.sub_le _ _) (Nat.zero_le _) hs
    (List.Subset.refl _) hc
  exact ⟨starts, hs, hfirst, fun q hq => (hall q hq).1, fun q hq => (hall q hq).2⟩

section
variable {S : Type} {p : Profile} {h : Host S} {m m' : Machine S}

variable (code starts) in
/-- The counter and the saved return addresses are on the decomposition. -/
structure OnTrack (m : Machine S) : Prop where
  wellFormed : m.vm.WellFormed
  pc : Boundary code starts m.pc
  calls : ∀ (i : ℕ) (hi : i < callSize), i < m.vm.csp → Boundary code starts m.vm.calls[i]

theorem onTrack_init (hd : Decomposes code starts) (s : S) : OnTrack code starts (Machine.init s) :=
  ⟨Vm.init_wellFormed, hd.first, fun i _ hi => absurd hi (Nat.not_lt_zero i)⟩

theorem OnTrack.mem_starts (ht : OnTrack code starts m)
    (hop : fetch code m.pc = some op) : m.pc ∈ starts := by
  cases ht.pc with
  | inl hmem => exact hmem
  | inr hend => exact absurd (lt_of_fetch hop) (by omega)

theorem calls_of_same (ht : OnTrack code starts m) (hs : m.vm.SameCalls m'.vm) :
    ∀ (i : ℕ) (hi : i < callSize), i < m'.vm.csp → Boundary code starts m'.vm.calls[i] := by
  intro i hi hlt
  rw [hs.2] at hlt
  simp only [hs.1]
  exact ht.calls i hi hlt

section
variable (hd : Decomposes code starts)
include hd

theorem OnTrack.step (ht : OnTrack code starts m)
    (hs : step p h code m = .next m') : OnTrack code starts m' := by
  rcases step_cases p h code m with ⟨op, hop, he⟩ | ⟨-, he⟩ | ⟨-, -, he⟩
  · have hmem := ht.mem_starts hop
    have hpost := @execute_post S p h code (m.setPc (m.pc + 1)) op ht.wellFormed
    rw [← he, hs] at hpost
    obtain ⟨hw, hmoves⟩ := hpost
    obtain ⟨op', hop', -, hnext⟩ := hd.closed m.pc hmem
    rw [hop] at hop'
    cases hop'
    -- falling through goes to the end of the instruction
    have fall : m'.pc + 1 = m.pc + 1 + op.size → Boundary code starts m'.pc := by
      intro hpc
      have : m'.pc = m.pc + op.size := by omega
      rw [this]
      exact hnext
    -- a branch goes where the verifier has looked
    have jump : op.hasTarget = true → target code (m.pc + 1) = .ok m'.pc →
        Boundary code starts m'.pc := by
      intro hb htgt
      obtain ⟨t, hmem', hok⟩ := hd.targets m.pc hmem op hop hb
      rw [hok] at htgt
      cases htgt
      exact Or.inl hmem'
    cases op with
    | halt => exact hmoves.elim
    | push | data d | hostcall => exact ⟨hw, fall hmoves.2, calls_of_same ht hmoves.1⟩
    | jmp => exact ⟨hw, jump rfl hmoves.2, calls_of_same ht hmoves.1⟩
    | jz | jnz => exact ⟨hw, hmoves.2.elim (jump rfl) fall, calls_of_same ht hmoves.1⟩
    | call =>
      obtain ⟨htgt, hc, hcalls, hcsp⟩ := hmoves
      have hc : m.vm.csp < callSize := hc
      have hcalls : m'.vm.calls = m.vm.calls.set m.vm.csp (m.pc + 1 + 2) hc := hcalls
      change m'.vm.csp = m.vm.csp + 1 at hcsp
      refine ⟨hw, jump rfl htgt, ?_⟩
      intro i hi hlt
      simp only [hcalls]
      rw [hcsp] at hlt
      by_cases hnew : i = m.vm.csp
      · subst hnew
        simp only [Vector.getElem_set, if_true]
        exact hnext
      · simp only [Vector.getElem_set, if_neg (Ne.symm hnew)]
        exact ht.calls i hi (by omega)
    | ret =>
      obtain ⟨hcalls, hcsp, hpos, hpc⟩ := hmoves
      have hpos : 0 < m.vm.csp := hpos
      have hi : m.vm.csp - 1 < callSize := by have := ht.wellFormed.csp_le; omega
      refine ⟨hw, ?_, ?_⟩
      · have heq : m.vm.calls[m.vm.csp - 1] = m'.pc := by
          change m.vm.calls.toList[m.vm.csp - 1]? = some m'.pc at hpc
          rw [List.getElem?_eq_getElem (by simpa using hi)] at hpc
          exact (Vector.getElem_toList _).symm.trans (Option.some.inj hpc)
        rw [← heq]
        exact ht.calls _ hi (by omega)
      · intro i hi' hlt
        simp only [hcalls]
        apply ht.calls i hi'
        change i < m'.vm.csp at hlt
        rw [hcsp] at hlt
        change i < m.vm.csp - 1 at hlt
        omega
  · rw [he] at hs
    cases hs
  · rw [he] at hs
    cases hs

theorem onTrack_of_reaches {s : S}
    (hr : Reaches (IrMachine.step p h code) (Machine.init s) m) : OnTrack code starts m :=
  hr.invariant (onTrack_init hd s) fun _ _ ha hb => ha.step hd hb

theorem OnTrack.stop (ht : OnTrack code starts m) {e : Ending S}
    (hs : IrMachine.step p h code m = .stop e) :
    e.result ≠ .error (.trap .truncated) ∧ e.result ≠ .error (.trap .badTarget) ∧
      (e.result = .error (.trap .badOpcode) → fetch code m.pc = some .hostcall ∧
        ∃ b, code[m.pc + 1]? = some b ∧ HostFn.ofByte b = none) := by
  rcases step_cases p h code m with ⟨op, hop, he⟩ | ⟨-, he⟩ | ⟨hlt, hnone, -⟩
  · obtain ⟨op', hop', hlen, -⟩ := hd.closed m.pc (ht.mem_starts hop)
    rw [hop] at hop'
    cases hop'
    have hpost := @execute_post S p h code (m.setPc (m.pc + 1)) op ht.wellFormed
    rw [← he, hs] at hpost
    refine ⟨?_, ?_, ?_⟩
    · intro hr
      have hf := hpost _ hr
      cases hf with
      | ordinary hf => exact absurd hf (by decide)
      | truncated hlen' =>
        change code.length + 1 < m.pc + 1 + op.size at hlen'
        omega
    · intro hr
      have hf := hpost _ hr
      cases hf with
      | ordinary hf => exact absurd hf (by decide)
    · intro hr
      have hf := hpost _ hr
      cases hf with
      | ordinary hf => exact absurd hf (by decide)
      | unknownCall hcall hb hfn =>
        rw [hcall] at hop
        exact ⟨hop, _, hb, hfn⟩
  · rw [he] at hs
    cases hs
    exact ⟨nofun, nofun, nofun⟩
  · cases ht.pc with
    | inl hmem =>
      obtain ⟨op, hop, -⟩ := hd.closed m.pc hmem
      rw [hnone] at hop
      cases hop
    | inr hend => exact absurd hlt (by omega)

end

end

/-- Runs of an accepted program stay on the decomposition the verifier has
computed and never end for a malformed instruction. -/
theorem verifier_sound (code : List UInt8) (hv : verify code = .ok ()) :
    ∃ starts, instructionStarts code 0 = .ok starts ∧
      ∀ {S : Type} (p : Profile) (h : Host S) (s : S),
        (∀ m, Reaches (step p h code) (Machine.init s) m →
          (m.pc ∈ starts ∨ m.pc = code.length) ∧ m.vm.csp ≤ callSize ∧
          ∀ (i : ℕ) (hi : i < callSize), i < m.vm.csp →
            m.vm.calls[i] ∈ starts ∨ m.vm.calls[i] = code.length) ∧
        ∀ n e, run p h code n s = .stop e →
          e.result ≠ .error (.trap .truncated) ∧ e.result ≠ .error (.trap .badTarget) ∧
          (e.result = .error (.trap .badOpcode) →
            ∃ m, Reaches (step p h code) (Machine.init s) m ∧ step p h code m = .stop e ∧
              fetch code m.pc = some .hostcall ∧
              ∃ b, code[m.pc + 1]? = some b ∧ HostFn.ofByte b = none) := by
  obtain ⟨starts, hs, hd⟩ := decomposes_of_verify hv
  refine ⟨starts, hs, ?_⟩
  intro S p h s
  constructor
  · intro m hr
    have ht := onTrack_of_reaches hd hr
    exact ⟨ht.pc, ht.wellFormed.csp_le, ht.calls⟩
  · intro n e he
    obtain ⟨m, hr, hm⟩ := exists_last he
    obtain ⟨htrunc, htgt, hbad⟩ := (onTrack_of_reaches hd hr).stop hd hm
    exact ⟨htrunc, htgt, fun hr' => ⟨m, hr, hm, hbad hr'⟩⟩

def callingProgram : List UInt8 := [0x40, 4, 0, 0x00, 0x50, 9, 0x41]

/-- The accepted program above, run on a host without a disk. -/
theorem verifier_sound_calling :
    verify callingProgram = .ok () ∧ instructionStarts callingProgram 0 = .ok [0, 3, 4, 6] ∧
      ∃ m, Reaches (step .dev openHost callingProgram) (Machine.init ()) m ∧
        fetch callingProgram m.pc = some .hostcall := by
  have hv : verify callingProgram = .ok () := by decide +kernel
  have hrun : Outcome.result? (run .dev openHost callingProgram 2 ()) =
      some (.error (.trap .badOpcode)) := by decide +kernel
  obtain ⟨starts, -, hall⟩ := verifier_sound callingProgram hv
  obtain ⟨e, he, hbad⟩ := exists_stop_of_result hrun
  obtain ⟨m, hr, -, hcall, -⟩ := ((hall .dev openHost ()).2 2 e he).2.2 hbad
  exact ⟨hv, by decide +kernel, m, hr, hcall⟩

end Dezh.IrMachine

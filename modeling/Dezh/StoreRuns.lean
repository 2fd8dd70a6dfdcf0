import Dezh.MissionPublish

/-!
# Runs of the Cairn store

The mutations of the store are commits, namespace rollbacks, mission rollbacks
and writes of the revoked flag. A run applies any sequence of them, each under
its own schedule of device failures and with its own data window.
-/
namespace Dezh.StoreRuns
open BlockProgram Program ByteLayout ParentChain CairnFormat CairnService SfarService CairnStore
open CairnOutcomes MissionUndo MissionPublish

variable {d d' : CairnDisk} {a : Option Status}

inductive Mutation where
  | commit (input window : Bytes) (ns : Fin nsMax) (len sender : ℕ) (intent derived : UInt32)
      (revClass : UInt8)
  | rollback (window : Bytes) (ns : Fin nsMax) (steps : ℕ)
  | sfarRollback (window : Bytes) (fuel : ℕ) (ahd : UInt32) (caps sender : ℕ)
  | setRevoked (window : Bytes) (ns : Fin nsMax) (revoked : Bool)

variable {m : Mutation}

/-- A mutation as a program; no status means that it has not answered. The walk
of a mission rollback gets at least one iteration more than there are slots. -/
def Mutation.program : Mutation → Program Sector (Option Status)
  | .commit input w ns len sender intent derived revClass => do
    let r ← cairnCommit input w ns len sender intent derived revClass
    pure (some r.value)
  | .rollback w ns steps => do
    let r ← cairnRollback w ns steps
    pure (some r.value)
  | .sfarRollback w fuel ahd caps sender => do
    let r ← SfarService.sfarRollback (commitSlots + 1 + fuel) ahd caps sender w
    pure (r.map fun r => r.value.status)
  | .setRevoked w ns revoked => do
    let r ← cairnNsSetRevoked w ns revoked
    pure (some r.value)

/-- The disks of a store that started without a superblock. -/
inductive Attained : CairnDisk → Prop
  | fresh {d : CairnDisk} : formatted d = false → Attained d
  | step {d : CairnDisk} (m : Mutation) (f : Schedule) :
      Attained d → Attained (m.program.run f d).2

section
variable {K : Faults}

theorem Mutation.extends (h : m.program.Exec K d a d') : Extends d d' := by
  cases m with
  | commit input w ns len sender intent derived revClass =>
    obtain ⟨r, d1, hr, -, rfl⟩ := exec_bind.mp h
    rcases cairnCommit_cases ns.isLt hr with ⟨hn, -, rfl⟩ | ⟨-, -, hs⟩ | ⟨-, -, hn, rfl⟩
    · exact committed_extends hn
    · exact hs.toExtends
    · exact committed_extends hn
  | rollback w ns steps =>
    obtain ⟨r, d1, hr, -, rfl⟩ := exec_bind.mp h
    rcases cairnRollback_cases ns.isLt hr with ⟨-, -, hs⟩ | ⟨cur, walked, -, -, -, rfl⟩ | ⟨-, -, hs⟩
    · exact hs.toExtends
    · exact retreated_extends
    · exact hs.toExtends
  | sfarRollback w fuel ahd caps sender =>
    obtain ⟨r, d1, hr, -, rfl⟩ := exec_bind.mp h
    exact sfarRollback_extends hr
  | setRevoked w ns revoked =>
    obtain ⟨r, d1, hr, -, rfl⟩ := exec_bind.mp h
    rcases cairnNsSetRevoked_cases ns.isLt hr with ⟨-, rfl⟩ | ⟨-, -, hs | ⟨-, rfl⟩⟩
    · exact flagged_extends
    · exact hs.toExtends
    · exact flagged_extends

theorem Mutation.storeInv (hi : StoreInv d) (h : m.program.Exec K d a d') : StoreInv d' := by
  have hx := Mutation.extends h
  cases m with
  | commit input w ns len sender intent derived revClass =>
    obtain ⟨r, d1, hr, -, rfl⟩ := exec_bind.mp h
    have hcommit : ∀ hn : next d < commitSlots,
        StoreInv (committed d input ns len sender intent derived revClass) := fun hn =>
      hi.move (committed_extends hn) ((next_committed hn).trans_le hn)
        fun _ hm => ⟨_, committed_refMove hi hn ns.isLt hm⟩
    rcases cairnCommit_cases ns.isLt hr with ⟨hn, -, rfl⟩ | ⟨-, -, hs⟩ | ⟨-, -, hn, rfl⟩
    · exact hcommit hn
    · exact hs.storeInv hi
    · exact hcommit hn
  | rollback w ns steps =>
    obtain ⟨r, d1, hr, -, rfl⟩ := exec_bind.mp h
    rcases cairnRollback_cases ns.isLt hr with ⟨-, -, hs⟩ | ⟨cur, walked, -, hw, -, rfl⟩ | ⟨-, -, hs⟩
    · exact hs.storeInv hi
    · exact hi.move hx (next_retreated.trans_le hi.next_le)
        fun _ hm => ⟨_, retreated_refMove hi ns.isLt hw hm⟩
    · exact hs.storeInv hi
  | sfarRollback w fuel ahd caps sender =>
    obtain ⟨r, d1, hr, -, rfl⟩ := exec_bind.mp h
    rcases sfarRollback_cases hi hr with
      ⟨-, -, hs⟩ | ⟨r, -, ⟨-, hs, -⟩ | ⟨-, -, cut, hcut, -, rfl⟩⟩
    · exact hs.storeInv hi
    · exact hs.storeInv hi
    · exact (staged_undone _ _ hi hcut).storeInv hi
  | setRevoked w ns revoked =>
    obtain ⟨r, d1, hr, -, rfl⟩ := exec_bind.mp h
    have hflag : StoreInv (flagged d ns (if revoked then 1 else 0)) :=
      hi.move flagged_extends (next_flagged.trans_le hi.next_le)
        fun _ hm => ⟨_, flagged_refMove hi hm⟩
    rcases cairnNsSetRevoked_cases ns.isLt hr with ⟨-, rfl⟩ | ⟨-, -, hs | ⟨-, rfl⟩⟩
    · exact hflag
    · exact hs.storeInv hi
    · exact hflag

theorem sfarRollback_liveChain {fuel caps sender ns : ℕ} {ahd : UInt32} {w : Bytes}
    {a : Option (Answer RollbackReply)} (hi : StoreInv d) (hns : ns < nsMax)
    (h : (sfarRollback fuel ahd caps sender w).Exec K d a d') :
    (∃ k ≤ (undoRun (record d) ahd (liveChain d ns)).length,
        liveChain d' ns = (liveChain d ns).drop k) ∨
      ∃ effect action free, verdict (record d) ahd (liveChain d ns) = .compensate effect action ∧
        next d ≤ free ∧ liveChain d' ns = free :: standing (record d) ahd (liveChain d ns) ∧
        d' (commitFirstSector + free) = compensationSector ahd sender ns effect action
          (header (record d effect)).derived free
          (count d ns - (undoRun (record d) ahd (liveChain d ns)).length + 1) := by
  have hsame : SameStore d d' → liveChain d' ns = (liveChain d ns).drop 0 :=
    fun hsame => hsame.liveChain_eq hi hns
  rcases sfarRollback_cases hi h with
    ⟨-, -, hs⟩ | ⟨r, -, ⟨-, hs, -⟩ | ⟨-, -, cut, hcut, -, rfl⟩⟩
  · exact .inl ⟨0, Nat.zero_le _, hsame hs⟩
  · exact .inl ⟨0, Nat.zero_le _, hsame hs⟩
  · have hst := staged_undone sender w hi hcut
    have hi' := hst.storeInv hi
    have hx := hst.published_extends
    cases hst.done ns hns with
    | back k hk h1 h2 h3 =>
      exact .inl ⟨k, hk, (hst.refMove_back hi hns hk h1 h2 h3).liveChain_eq hi hi' hx hns⟩
    | push effect action free hv hle hlt h1 h2 h3 h4 =>
      right
      refine ⟨effect, action, free, hv, hle, ?_, ?_⟩
      · exact (hst.refMove_push hi hns hv hle hlt h1 h2 h3 h4).liveChain_eq hi hi' hx hns
      · rw [published_slot, h4]

/-- The record that a mutation puts on the live chain of a namespace: a commit in
the next slot, or the compensation of a live effect of the mission. -/
def Mutation.Puts (d d' : CairnDisk) (ns slot : ℕ) : Mutation → Prop
  | .commit _ _ _ _ _ intent _ _ =>
    slot = next d ∧ (header (record d' slot)).status = statusCommitted ∧
      (header (record d' slot)).intent = intent.toNat
  | .sfarRollback _ _ ahd _ _ =>
    next d ≤ slot ∧ (header (record d' slot)).cls = .reversible ∧
      (header (record d' slot)).intent = ahd.toNat ∧
      ∃ effect ∈ liveChain d ns, (header (record d' slot)).parent = effect ∧
        (header (record d effect)).intent = ahd.toNat
  | _ => False

theorem Mutation.live_cases (hi : StoreInv d) (h : m.program.Exec K d a d') {ns slot : ℕ}
    (hns : ns < nsMax) (hs : slot ∈ liveChain d' ns) :
    slot ∈ liveChain d ns ∨ m.Puts d d' ns slot := by
  have hx := Mutation.extends h
  have hi' := Mutation.storeInv hi h
  have hsame : SameStore d d' → slot ∈ liveChain d ns ∨ m.Puts d d' ns slot :=
    fun hsame => .inl (hsame.liveChain_eq hi hns ▸ hs)
  cases m with
  | commit input w n len sender intent derived revClass =>
    obtain ⟨r, d1, hr, -, rfl⟩ := exec_bind.mp h
    have hcommit : next d < commitSlots →
        d' = committed d input n len sender intent derived revClass →
        slot ∈ liveChain d ns ∨
          (commit input w n len sender intent derived revClass).Puts d d' ns slot := by
      rintro hn rfl
      rw [(committed_refMove hi hn n.isLt hns).liveChain_eq hi hi' hx hns] at hs
      split at hs
      · rcases List.mem_cons.mp hs with rfl | hs
        · right
          rw [Puts, record, committed_slot, if_pos rfl, newCommit, header_commitSector,
            header_encode]
          exact ⟨rfl, rfl, Nat.mod_eq_of_lt intent.toNat_lt⟩
        · exact .inl hs
      · exact .inl hs
    rcases cairnCommit_cases n.isLt hr with ⟨hn, -, hd⟩ | ⟨-, -, hs⟩ | ⟨-, -, hn, hd⟩
    · exact hcommit hn hd
    · exact hsame hs
    · exact hcommit hn hd
  | rollback w n steps =>
    obtain ⟨r, d1, hr, -, rfl⟩ := exec_bind.mp h
    rcases cairnRollback_cases n.isLt hr with ⟨-, -, hs⟩ | ⟨cur, walked, -, hw, -, rfl⟩ | ⟨-, -, hs⟩
    · exact hsame hs
    · rw [(retreated_refMove hi n.isLt hw hns).liveChain_eq hi hi' hx hns] at hs
      exact .inl (List.mem_of_mem_drop hs)
    · exact hsame hs
  | sfarRollback w fuel ahd caps sender =>
    obtain ⟨r, d1, hr, -, rfl⟩ := exec_bind.mp h
    rcases sfarRollback_liveChain hi hns hr with ⟨k, -, hchain⟩ |
      ⟨effect, action, free, hv, hle, hchain, hsector⟩
    · rw [hchain] at hs
      exact .inl (List.mem_of_mem_drop hs)
    · rw [hchain] at hs
      rcases List.mem_cons.mp hs with rfl | hs
      · obtain ⟨⟨rest, hrest⟩, hmission, -⟩ := of_verdict_compensate hv
        have hmem := mem_of_mem_standing (hrest ▸ List.mem_cons_self)
        have hlt' := StoreInv.lt_noSlot hi hns effect hmem
        obtain ⟨hint, hcls, -⟩ := header_compensationSector ahd sender ns effect action
          (header (record d effect)).derived slot
          (count d ns - (undoRun (record d) ahd (liveChain d ns)).length + 1)
        right
        rw [Puts, record, hsector]
        refine ⟨hle, ?_, hint, effect, hmem, ?_, beq_iff_eq.mp hmission⟩
        · rw [CommitHeader.cls, hcls]
          decide
        · exact parent_compensationSector (hlt'.trans (by decide))
      · exact .inl (mem_of_mem_standing hs)
  | setRevoked w n revoked =>
    obtain ⟨r, d1, hr, -, rfl⟩ := exec_bind.mp h
    have hflag : d' = flagged d n (if revoked then 1 else 0) → slot ∈ liveChain d ns := by
      rintro rfl
      rwa [(flagged_refMove hi hns).liveChain_eq hi hi' hx hns] at hs
    rcases cairnNsSetRevoked_cases n.isLt hr with ⟨-, hd⟩ | ⟨-, -, hs | ⟨-, hd⟩⟩
    · exact .inl (hflag hd)
    · exact hsame hs
    · exact .inl (hflag hd)

theorem storeInv_fresh (h : formatted d = false) : StoreInv d := by
  have hsup : superOf d = freshSuper := if_neg (by simp [h])
  have hnext : next d = 0 := by rw [next, hsup, freshSuper_next]
  refine .of_chains (hnext.trans_le (Nat.zero_le _)) fun ns hns => ⟨[], ?_, by simp, ?_⟩
  · rw [head, hsup, (freshSuper_entry ns hns).1]
    exact .nil
  · rw [count, hsup, (freshSuper_entry ns hns).2.1]
    rfl

theorem Attained.storeInv (h : Attained d) : StoreInv d := by
  induction h with
  | fresh hf => exact storeInv_fresh hf
  | step m f _ ih => exact Mutation.storeInv ih (exec_run _ (Schedule.Within.all f))

theorem Attained.compensation (h : Attained d) {ns slot : ℕ} (hns : ns < nsMax)
    (hs : slot ∈ liveChain d ns) (hc : (header (record d slot)).status = statusCompensation) :
    (header (record d slot)).cls = .reversible ∧
      ∃ effect < next d, (header (record d slot)).parent = effect ∧
        (header (record d effect)).intent = (header (record d slot)).intent := by
  induction h generalizing ns slot with
  | @fresh d hf =>
    have hsup : superOf d = freshSuper := if_neg (by simp [hf])
    have hnext : next d = 0 := by rw [next, hsup, freshSuper_next]
    have := (storeInv_fresh hf).below ns hns slot hs
    omega
  | @step d m f h ih =>
    have hx := exec_run (d := d) m.program (Schedule.Within.all f)
    have hext := Mutation.extends hx
    have hkeep : ∀ slot < next d, record (m.program.run f d).2 slot = record d slot :=
      fun slot hlt => by rw [record, record, hext.slots slot hlt]
    rcases Mutation.live_cases h.storeInv hx hns hs with hold | hnew
    · have hlt := h.storeInv.below ns hns slot hold
      rw [hkeep slot hlt] at hc ⊢
      obtain ⟨hcls, effect, heff, hp, hint⟩ := ih hns hold hc
      exact ⟨hcls, effect, heff.trans_le hext.next_le, hp, by rw [hkeep effect heff, hint]⟩
    · cases m with
      | commit =>
        rw [hnew.2.1] at hc
        exact absurd hc (by decide)
      | sfarRollback =>
        obtain ⟨-, hcls, hint, effect, hmem, hp, heff⟩ := hnew
        have hlt := h.storeInv.below ns hns effect hmem
        exact ⟨hcls, effect, hlt.trans_le hext.next_le, hp, by rw [hkeep effect hlt, hint, heff]⟩
      | rollback | setRevoked => exact hnew.elim

/-- In every state of every run from a fresh disk the ledger is well formed: each
head is empty or allocated, its parents descend strictly to the end through
records that name their slot, their namespace and their depth, and the stored
length is the length of the chain. -/
theorem reachable_wellFormed (h : Attained d) :
    next d ≤ 255 ∧ ∀ ns < nsMax,
      (head d ns = noSlot ∨ head d ns < next d) ∧
      Chain commitLinks (GoodRecord ns) (record d) (head d ns) (liveChain d ns) ∧
      (liveChain d ns).Pairwise (· > ·) ∧
      (∀ slot ∈ liveChain d ns, slot < next d) ∧
      count d ns = (liveChain d ns).length := by
  have hi := h.storeInv
  refine ⟨hi.next_le, fun ns hns => ⟨?_, hi.chain ns hns, (hi.chain ns hns).pairwise,
    hi.below ns hns, hi.count_eq ns hns⟩⟩
  have hhead := hi.head_eq hns
  cases hc : liveChain d ns with
  | nil =>
    rw [hc] at hhead
    exact .inl hhead
  | cons slot rest =>
    rw [hc] at hhead
    refine .inr (hhead.trans_lt (hi.below ns hns _ ?_))
    rw [hc]
    exact List.mem_cons_self

end

def blank : CairnDisk := fun _ _ => 0

theorem reachable_blank : Attained blank := .fresh (by decide)

theorem agent_lt_nsMax : 4 < nsMax := by decide

def agentCommit (value : String) (intent : UInt32) (revClass : UInt8) : Mutation :=
  .commit (ofList (ascii value)) (fun _ => 0) ⟨4, agent_lt_nsMax⟩ (ascii value).length 2 intent 0
    revClass

theorem reachable_wellFormed_agent :
    head ((agentCommit "a" 1 0).program.run .clean blank).2 4 = 0 ∧
      (head ((agentCommit "a" 1 0).program.run .clean blank).2 4 = noSlot ∨
        head ((agentCommit "a" 1 0).program.run .clean blank).2 4 <
          next ((agentCommit "a" 1 0).program.run .clean blank).2) :=
  ⟨by decide +kernel, ((reachable_wellFormed (.step _ _ reachable_blank)).2 4 (by decide)).1⟩

def runAll : List (Mutation × Schedule) → CairnDisk → CairnDisk
  | [], d => d
  | (m, f) :: l, d => runAll l (m.program.run f d).2

theorem runAll_append (l₁ l₂ : List (Mutation × Schedule)) (d : CairnDisk) :
    runAll (l₁ ++ l₂) d = runAll l₂ (runAll l₁ d) := by
  induction l₁ generalizing d with
  | nil => rfl
  | cons p l₁ ih => exact ih _

theorem extends_trans {d d' d'' : CairnDisk} (h : Extends d d') (h' : Extends d' d'') :
    Extends d d'' :=
  ⟨h.next_le.trans h'.next_le, fun slot hs =>
    (h'.slots slot (hs.trans_le h.next_le)).trans (h.slots slot hs)⟩

theorem runAll_extends (l : List (Mutation × Schedule)) (d : CairnDisk) :
    Extends d (runAll l d) := by
  induction l generalizing d with
  | nil => exact (SameStore.refl d).toExtends
  | cons p l ih =>
    exact extends_trans (Mutation.extends (exec_run _ (Schedule.Within.all p.2))) (ih _)

/-- Between any two states of any run, on any disk and under any failures, the
next free slot does not move back and no allocated slot changes. -/
theorem ledger_append_only (l₁ l₂ : List (Mutation × Schedule)) (d : CairnDisk) :
    next (runAll l₁ d) ≤ next (runAll (l₁ ++ l₂) d) ∧
      ∀ slot < next (runAll l₁ d),
        runAll (l₁ ++ l₂) d (commitFirstSector + slot) =
          runAll l₁ d (commitFirstSector + slot) := by
  rw [runAll_append]
  exact ⟨(runAll_extends l₂ _).next_le, (runAll_extends l₂ _).slots⟩

theorem cuts_eq_none {K : Faults} {ahd : UInt32} {cut : ℕ → Option ℕ} (hK : ¬ K.reads)
    (h : Cuts d ahd cut K) : cut = fun _ => none := by
  funext ns
  cases hc : cut ns with
  | none => rfl
  | some j => exact absurd (h ns j hc).1 hK

theorem Mutation.all_or_nothing (hi : StoreInv d) (h : m.program.Exec .lostOnly d a d') :
    SameStore d d' ∨ d' = (m.program.eval d).2 := by
  have he := exec_eval Faults.none m.program d
  cases m with
  | commit input w ns len sender intent derived revClass =>
    obtain ⟨r, d1, hr, -, rfl⟩ := exec_bind.mp h
    obtain ⟨r', d2, hr', -, hd⟩ := exec_bind.mp he
    rw [hd]
    rcases cairnCommit_cases ns.isLt hr with ⟨hn, -, rfl⟩ | ⟨-, -, hs⟩ | ⟨-, hK, -⟩
    · rcases cairnCommit_cases ns.isLt hr' with ⟨-, -, rfl⟩ | ⟨-, hK | hle, -⟩ | ⟨-, hK, -⟩
      · exact .inr rfl
      · exact absurd hK Faults.not_possible_none
      · omega
      · exact hK.elim
    · exact .inl hs
    · exact hK.elim
  | rollback w ns steps =>
    obtain ⟨r, d1, hr, -, rfl⟩ := exec_bind.mp h
    obtain ⟨r', d2, hr', -, hd⟩ := exec_bind.mp he
    rw [hd]
    rcases cairnRollback_cases ns.isLt hr with ⟨-, -, hs⟩ | ⟨cur, walked, hh, hw, -, rfl⟩ | ⟨-, -, hs⟩
    · exact .inl hs
    · rcases cairnRollback_cases ns.isLt hr' with
        ⟨-, hh', -⟩ | ⟨cur', walked', -, hw', -, rfl⟩ | ⟨-, hK | hw', -⟩
      · exact absurd hh' hh
      · rw [hw, Option.some.injEq, Prod.mk.injEq] at hw'
        exact .inr (by rw [hw'.1, hw'.2])
      · exact absurd hK Faults.not_possible_none
      · rw [hw] at hw'
        cases hw'
    · exact .inl hs
  | sfarRollback w fuel ahd caps sender =>
    obtain ⟨r, d1, hr, -, rfl⟩ := exec_bind.mp h
    obtain ⟨r', d2, hr', -, hd⟩ := exec_bind.mp he
    rw [hd]
    rcases sfarRollback_cases hi hr with
      ⟨-, -, hs⟩ | ⟨r, -, ⟨-, hs, -⟩ | ⟨h0, hcover, cut, hcut, -, rfl⟩⟩
    · exact .inl hs
    · exact .inl hs
    · rcases sfarRollback_cases hi hr' with
        ⟨-, hf, -⟩ | ⟨r', -, ⟨-, -, hK | h0' | ⟨-, ns, hns, ht, hno⟩⟩ |
          ⟨-, -, cut', hcut', -, rfl⟩⟩
      · omega
      · exact absurd hK Faults.not_possible_none
      · exact absurd h0' h0
      · rcases hcover ns hns ht with hK | hyes
        · exact hK.elim
        · rw [hno] at hyes
          cases hyes
      · rw [cuts_eq_none (fun h : Faults.lostOnly.reads => h) hcut,
          cuts_eq_none (fun h : Faults.none.reads => h) hcut']
        exact .inr rfl
  | setRevoked w ns revoked =>
    obtain ⟨r, d1, hr, -, rfl⟩ := exec_bind.mp h
    obtain ⟨r', d2, hr', -, hd⟩ := exec_bind.mp he
    rw [hd]
    rcases cairnNsSetRevoked_cases ns.isLt hr with ⟨-, rfl⟩ | ⟨-, -, hs | ⟨hK, -⟩⟩
    · rcases cairnNsSetRevoked_cases ns.isLt hr' with ⟨-, rfl⟩ | ⟨-, hK, -⟩
      · exact .inr rfl
      · exact absurd hK Faults.not_possible_none
    · exact .inl hs
    · exact hK.elim

/-- A power cut behind any number of completed writes of any mutation leaves the
complete store before it or the complete store after it. -/
theorem mutation_crash_atomic (m : Mutation) (n : ℕ) (h : Attained d) :
    logical (crashAfter n m.program d) = logical d ∨
      logical (crashAfter n m.program d) = logical (m.program.eval d).2 := by
  rw [crashAfter_eq_run]
  have hx := exec_run (d := d) m.program (Schedule.cutAfter_within n)
  rcases Mutation.all_or_nothing h.storeInv hx with hs | hd
  · exact .inl (hs.logical_eq h.storeInv)
  · exact .inr (congrArg logical hd)

theorem mutation_crash_atomic_agent :
    logical (crashAfter 1 (agentCommit "a" 1 0).program blank) = logical blank ∨
      logical (crashAfter 1 (agentCommit "a" 1 0).program blank) =
        logical ((agentCommit "a" 1 0).program.eval blank).2 :=
  mutation_crash_atomic _ 1 reachable_blank

end Dezh.StoreRuns

import Dezh.StoreRuns

/-!
# A mission rollback without failures

When every access succeeds the result of a mission rollback is determined by the
store: each namespace loses exactly its retractable run, the pending
compensations are recorded in namespace order while slots are left, and every
other verdict is counted as a refusal.
-/
namespace Dezh.MissionExact
open BlockProgram Program ByteLayout CairnFormat CairnService SfarService CairnStore
open CairnOutcomes MissionScan MissionUndo MissionPublish StoreRuns

section

variable (store : CairnDisk) (ahd : UInt32)

def verdictOf (ns : ℕ) : Verdict := verdict (record store) ahd (liveChain store ns)

def runOf (ns : ℕ) : ℕ := (undoRun (record store) ahd (liveChain store ns)).length

def pendingBelow (n : ℕ) : ℕ :=
  (List.range n).countP fun ns => (verdictOf store ahd ns).pending

def roomAt (ns : ℕ) : Bool := next store + pendingBelow store ahd ns < commitSlots

def compensates (ns : ℕ) : Bool := (verdictOf store ahd ns).pending && roomAt store ahd ns

def refusesComp (ns : ℕ) : Bool :=
  (verdictOf store ahd ns).bare ||
    (verdictOf store ahd ns).pending && !roomAt store ahd ns

theorem countP_range_succ (q : ℕ → Bool) (n : ℕ) :
    (List.range (n + 1)).countP q = (List.range n).countP q + if q n then 1 else 0 := by
  rw [List.range_succ, List.countP_append, List.countP_singleton]

/-- The staged state of a clean rollback after the namespaces below `n`. -/
structure Clean (n : ℕ) (s : Staging) : Prop where
  undone_eq : ∀ m < n, s.undone m = runOf store ahd m
  appended_eq : ∀ m < n, s.appended m = if compensates store ahd m then 1 else 0
  nextFree_eq : s.nextFree = min commitSlots (next store + pendingBelow store ahd n)
  refusedIrrev_eq : s.refusedIrrev =
    (List.range n).countP fun ns => (verdictOf store ahd ns).blocked
  refusedComp_eq : s.refusedComp = (List.range n).countP (refusesComp store ahd)

end

section
variable {store : CairnDisk} {ahd : UInt32} {sender n : ℕ} {p : Staging × CairnDisk} {w : Bytes}

def noCut : ℕ → Option ℕ := fun _ => none

variable (store ahd) in
theorem cuts_noCut (K : Faults) : Cuts store ahd noCut K := fun _ _ h => (nomatch h)

variable (store ahd n) in
theorem pendingBelow_succ : pendingBelow store ahd (n + 1) =
    pendingBelow store ahd n + if (verdictOf store ahd n).pending then 1 else 0 :=
  countP_range_succ _ n

section
variable {s : Staging} {ns : ℕ} {v : Verdict}

theorem appended_conclude : (conclude s ns v).appended ns =
    s.appended ns + if v.pending && slotAvailable s.nextFree then 1 else 0 := by
  cases v with
  | compensate slot action =>
    cases h : slotAvailable s.nextFree
    · simp [conclude, h, Staging.refuseComp]
    · simp [conclude, h, Staging.compensate, Verdict.pending]
  | _ => rfl

theorem nextFree_conclude : (conclude s ns v).nextFree =
    s.nextFree + if v.pending && slotAvailable s.nextFree then 1 else 0 := by
  cases v with
  | compensate slot action =>
    cases h : slotAvailable s.nextFree
    · simp [conclude, h, Staging.refuseComp]
    · simp [conclude, h, Staging.compensate, Verdict.pending]
  | _ => rfl

theorem refusedIrrev_conclude : (conclude s ns v).refusedIrrev =
    s.refusedIrrev + if v.blocked then 1 else 0 := by
  cases v with
  | compensate slot action =>
    simp only [conclude]
    split <;> rfl
  | _ => rfl

theorem refusedComp_conclude : (conclude s ns v).refusedComp =
    s.refusedComp + if v.bare || v.pending && !slotAvailable s.nextFree then 1 else 0 := by
  cases v with
  | compensate slot action =>
    cases h : slotAvailable s.nextFree
    · simp [conclude, h, Staging.refuseComp, Verdict.pending]
    · simp [conclude, h, Staging.compensate, Verdict.bare]
  | _ => rfl

end

theorem Clean.step (h : Clean store ahd n p.1) (hs : Staged store ahd sender n p) (hn : n < nsMax) :
    Clean store ahd (n + 1) (undoNs store ahd sender noCut p n).1 := by
  obtain ⟨-, hundone, happ⟩ := hs.later n le_rfl hn
  have hroom : slotAvailable p.1.nextFree = roomAt store ahd n := by
    rw [slotAvailable, roomAt, h.nextFree_eq, decide_eq_decide]
    omega
  have hne : ∀ m < n + 1, m ≠ n → m < n := fun m hm hmn => by omega
  have hfree : ∀ k head, (retreat p.1 n k head).nextFree = p.1.nextFree := fun _ _ => rfl
  simp only [undoNs, noCut]
  rw [show verdict (record store) ahd (liveChain store n) = verdictOf store ahd n from rfl]
  refine ⟨fun m hm => ?_, fun m hm => ?_, ?_, ?_, ?_⟩
  · rw [undone_conclude]
    by_cases hmn : m = n
    · subst hmn
      simp only [retreat, Function.update_self, hundone, Nat.zero_add]
      rfl
    · simp only [retreat, Function.update_of_ne hmn]
      exact h.undone_eq m (hne m hm hmn)
  · by_cases hmn : m = n
    · subst hmn
      rw [appended_conclude, hfree, hroom]
      simp only [retreat, happ, Nat.zero_add]
      rfl
    · rw [appended_conclude_of_ne hmn]
      exact h.appended_eq m (hne m hm hmn)
  · rw [nextFree_conclude, pendingBelow_succ, hfree, hroom, h.nextFree_eq]
    cases (verdictOf store ahd n).pending with
    | false => simp
    | true =>
      simp only [Bool.true_and, roomAt, decide_eq_true_eq, if_true]
      split <;> omega
  · rw [refusedIrrev_conclude, countP_range_succ, ← h.refusedIrrev_eq]
    rfl
  · rw [refusedComp_conclude, countP_range_succ, ← h.refusedComp_eq, hfree, hroom]
    rfl

variable (ahd sender w) in
theorem clean_undone (hi : StoreInv store) :
    Clean store ahd nsMax (undone store ahd sender noCut w).1 := by
  have key : ∀ n ≤ nsMax,
      Clean store ahd n (undoFrom store ahd sender noCut 0 n (initial store w, settle store)).1 := by
    intro n
    induction n with
    | zero =>
      intro _
      refine ⟨by simp, by simp, ?_, rfl, rfl⟩
      show next store = min commitSlots (next store + 0)
      have := hi.next_le
      omega
    | succ n ih =>
      intro hn
      have hst := (staged_initial ahd sender w hi).undoFrom hi
        (cuts_noCut _ _ Faults.none) (n := n) (by omega)
      have h := (ih (by omega)).step hst (by omega)
      rw [undoFrom, ← List.range_eq_range', List.range_succ, List.foldl_append]
      rw [undoFrom, ← List.range_eq_range'] at h
      exact h
  exact key nsMax le_rfl

end

section
variable {store : CairnDisk} {ahd : UInt32} {sender caps fuel m : ℕ} {p : Staging × CairnDisk}
  {w : Bytes}

/-- The caller holds the capability of every namespace the mission touches. -/
def Authorized (store : CairnDisk) (ahd : UInt32) (caps : ℕ) : Prop :=
  ∀ ns < nsMax, Touches store ahd ns → holdsNs caps ns = true

instance (store : CairnDisk) (ahd : UInt32) (caps : ℕ) : Decidable (Authorized store ahd caps) :=
  inferInstanceAs (Decidable (∀ ns < nsMax, Touches store ahd ns → holdsNs caps ns = true))

def rolledBack (store : CairnDisk) (ahd : UInt32) (sender : ℕ) (w : Bytes) : CairnDisk :=
  published store (undone store ahd sender noCut w)

variable (sender fuel w) in
theorem eval_sfarRollback (hi : StoreInv store) (h0 : ahd ≠ 0) (hauth : Authorized store ahd caps) :
    ∃ r, (sfarRollback (commitSlots + 1 + fuel) ahd caps sender w).eval store =
        (some r, rolledBack store ahd sender w) ∧
      r.value.status = .ok ∧ r.value.report = some (undone store ahd sender noCut w).1 := by
  have he := exec_eval Faults.none (sfarRollback (commitSlots + 1 + fuel) ahd caps sender w) store
  rcases sfarRollback_cases hi he with
    ⟨-, hf, -⟩ | ⟨r, hr, ⟨-, -, hK | h0' | ⟨-, ns, hns, ht, hno⟩⟩ |
      ⟨-, -, cut, hcut, ⟨hok, hrep⟩ | ⟨-, hK⟩, hd⟩⟩
  · omega
  · exact absurd hK Faults.not_possible_none
  · exact absurd h0' h0
  · rw [hauth ns hns ht] at hno
    cases hno
  · rw [cuts_eq_none (fun h : Faults.none.reads => h) hcut] at hrep hd
    exact ⟨r, Prod.ext hr hd, hok, hrep⟩
  · exact hK.elim

variable (ahd sender w) in
theorem storeInv_rolledBack (hi : StoreInv store) : StoreInv (rolledBack store ahd sender w) :=
  (staged_undone _ _ hi (cuts_noCut _ _ Faults.none)).storeInv hi

variable (ahd sender w) in
theorem rolledBack_extends (hi : StoreInv store) : Extends store (rolledBack store ahd sender w) :=
  (staged_undone _ _ hi (cuts_noCut _ _ Faults.none)).published_extends

theorem next_rolledBack (hi : StoreInv store) : next (rolledBack store ahd sender w) =
    min commitSlots (next store + pendingBelow store ahd nsMax) :=
  (staged_undone _ _ hi (cuts_noCut _ _ Faults.none)).next_published.trans (clean_undone _ _ _ hi).nextFree_eq

variable (ahd sender w) in
theorem liveChain_rolledBack (hi : StoreInv store) (hm : m < nsMax) :
    compensates store ahd m = false ∧ liveChain (rolledBack store ahd sender w) m =
        standing (record store) ahd (liveChain store m) ∨
      compensates store ahd m = true ∧ ∃ slot action free,
        verdictOf store ahd m = .compensate slot action ∧ next store ≤ free ∧
        free < next (rolledBack store ahd sender w) ∧
        liveChain (rolledBack store ahd sender w) m =
          free :: standing (record store) ahd (liveChain store m) ∧
        rolledBack store ahd sender w (commitFirstSector + free) =
          compensationSector ahd sender m slot action (header (record store slot)).derived free
            (count store m - runOf store ahd m + 1) := by
  have hst := staged_undone sender w hi (cuts_noCut store ahd Faults.none)
  have hclean := clean_undone ahd sender w hi
  have hi' := storeInv_rolledBack ahd sender w hi
  have hx := rolledBack_extends ahd sender w hi
  have happ := hclean.appended_eq m hm
  cases hst.done m hm with
  | back k hk h1 h2 h3 =>
    left
    have hk' : k = runOf store ahd m := h2.symm.trans (hclean.undone_eq m hm)
    refine ⟨?_, ?_⟩
    · by_contra hc
      rw [Bool.not_eq_false] at hc
      rw [hc, h3] at happ
      cases happ
    · rw [(hst.refMove_back hi hm hk h1 h2 h3).liveChain_eq hi hi' hx hm, hk']
      exact drop_undoRun
  | push slot action free hv hle hlt h1 h2 h3 h4 =>
    right
    refine ⟨?_, slot, action, free, hv, hle, ?_, ?_, ?_⟩
    · by_contra hc
      rw [Bool.not_eq_true] at hc
      rw [hc, h3] at happ
      cases happ
    · exact hlt.trans_eq hst.next_published.symm
    · exact (hst.refMove_push hi hm hv hle hlt h1 h2 h3 h4).liveChain_eq hi hi' hx hm
    · exact (published_slot free).trans h4

theorem publishSuper_of_idle {s : Staging} {b : Bytes} (hs : ∀ ns < nsMax, ¬ moved s ns)
    (hf : s.nextFree = u32At b offNext) : publishSuper s b = b := by
  have key : ∀ n ≤ nsMax, (List.range n).foldl (publishEntry s) b = b := by
    intro n
    induction n with
    | zero => exact fun _ => rfl
    | succ n ih =>
      intro hn
      rw [List.range_succ, List.foldl_append, ih (by omega), List.foldl_cons, List.foldl_nil,
        publishEntry_of_not_moved (hs n hn)]
  rw [publishSuper, key nsMax le_rfl, hf, putU32_u32At]

theorem Staged.same_of_idle (h : Staged store ahd sender nsMax p)
    (hs : ∀ ns < nsMax, ¬ moved p.1 ns) (hf : p.1.nextFree = next store) :
    SameStore store (published store p) := by
  refine ⟨?_, fun slot hlt => ?_⟩
  · rw [superOf_published, publishSuper_of_idle hs hf, take_bytes]
  · rw [published_slot, h.same.slots slot hlt]

end

end Dezh.MissionExact

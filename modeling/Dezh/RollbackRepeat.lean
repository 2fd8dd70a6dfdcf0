import Mathlib.Data.Nat.Find
import Dezh.MissionExact

/-!
# Repeating a mission rollback

A compensation is recorded as a reversible effect of the mission it belongs to.
The next rollback of the same mission therefore retracts it, finds the
compensated effect below it again, and records the compensation once more.
Repeating a rollback is harmless exactly when no compensation is pending.
-/
namespace Dezh.RollbackRepeat
open BlockProgram Program ByteLayout CairnFormat CairnService SfarService CairnStore
open CairnOutcomes MissionScan MissionUndo MissionPublish StoreRuns MissionExact

variable {d d' : CairnDisk} {ahd : UInt32} {sender caps fuel m : ℕ} {w : Bytes}

section

theorem standing_standing {rec : ℕ → Bytes} {l : List ℕ} :
    standing rec ahd (standing rec ahd l) = standing rec ahd l ∧
      undoRun rec ahd (standing rec ahd l) = [] := by
  cases h : standing rec ahd l with
  | nil => exact ⟨rfl, rfl⟩
  | cons slot rest =>
    have hr := retractable_of_standing h
    exact ⟨List.dropWhile_cons_of_neg (by simp [hr]), List.takeWhile_cons_of_neg (by simp [hr])⟩

/-- Nothing of the mission can be retracted or compensated. -/
def Idle (d : CairnDisk) (ahd : UInt32) : Prop :=
  ∀ ns < nsMax, (verdictOf d ahd ns).pending = false ∧ runOf d ahd ns = 0

variable (ahd) in
theorem verdictOf_of_same (hi : StoreInv d) (h : SameStore d d') (hm : m < nsMax) :
    verdictOf d' ahd m = verdictOf d ahd m ∧ runOf d' ahd m = runOf d ahd m := by
  have hrec : ∀ slot ∈ liveChain d m, record d' slot = record d slot :=
    fun slot hs => h.record_eq (hi.below m hm slot hs)
  rw [verdictOf, runOf, h.liveChain_eq hi hm, verdict_congr hrec, undoRun_congr hrec]
  exact ⟨rfl, rfl⟩

theorem Idle.of_same (hi : StoreInv d) (h : SameStore d d') (hidle : Idle d ahd) : Idle d' ahd := by
  intro ns hns
  obtain ⟨h1, h2⟩ := verdictOf_of_same ahd hi h hns
  rw [h1, h2]
  exact hidle ns hns

theorem pendingBelow_eq_zero (h : ∀ ns < nsMax, (verdictOf d ahd ns).pending = false) :
    pendingBelow d ahd nsMax = 0 := by
  rw [pendingBelow, List.countP_eq_zero]
  intro ns hns
  simp [h ns (List.mem_range.mp hns)]

theorem compensates_eq_false (h : (verdictOf d ahd m).pending = false) :
    compensates d ahd m = false := by
  rw [compensates, h, Bool.false_and]

variable (sender w) in
theorem Idle.same (hi : StoreInv d) (h : Idle d ahd) : SameStore d (rolledBack d ahd sender w) := by
  have hclean := clean_undone ahd sender w hi
  refine Staged.same_of_idle (staged_undone _ _ hi (cuts_noCut _ _ Faults.none)) (fun ns hns => ?_) ?_
  · have hu := hclean.undone_eq ns hns
    have ha := hclean.appended_eq ns hns
    rw [(h ns hns).2] at hu
    rw [compensates_eq_false (h ns hns).1] at ha
    simp only [moved, hu, ha]
    decide
  · rw [hclean.nextFree_eq, pendingBelow_eq_zero fun ns hns => (h ns hns).1]
    have := hi.next_le
    omega

variable (sender w) in
theorem idle_rolledBack (hi : StoreInv d) (h : ∀ ns < nsMax, (verdictOf d ahd ns).pending = false) :
    Idle (rolledBack d ahd sender w) ahd := by
  intro ns hns
  rcases liveChain_rolledBack ahd sender w hi hns with
    ⟨-, hchain⟩ | ⟨hc, -⟩
  · have hrec : ∀ slot ∈ standing (record d) ahd (liveChain d ns),
        record (rolledBack d ahd sender w) slot = record d slot := by
      intro slot hs
      have hlt := hi.below ns hns slot (mem_of_mem_standing hs)
      rw [record, (rolledBack_extends _ _ _ hi).slots slot hlt]
      rfl
    rw [verdictOf, runOf, hchain, verdict_congr hrec, undoRun_congr hrec, standing_standing.2]
    refine ⟨?_, rfl⟩
    rw [← h ns hns, verdictOf, verdict, standing_standing.1]
    rfl
  · rw [compensates_eq_false (h ns hns)] at hc
    cases hc

end

theorem retractable_compensationSector {ns slot derived free generation : ℕ}
    {action : List UInt8} : retractable ahd
      (bytes (compensationSector ahd sender ns slot action derived free generation)) = true := by
  obtain ⟨hint, hcls, -⟩ := header_compensationSector ahd sender ns slot action derived
    free generation
  rw [retractable, Bool.and_eq_true]
  refine ⟨?_, ?_⟩
  · rw [ofMission, beq_iff_eq]
    exact hint
  · rw [show bytes (compensationSector ahd sender ns slot action derived free generation)
      offRevclass = RevClass.reversible.code from hcls]
    decide

theorem head_ne_of_compensates (hi : StoreInv d) (hm : m < nsMax)
    (hc : compensates d ahd m = true) {sender' : ℕ} {w' : Bytes} :
    head (rolledBack (rolledBack d ahd sender w) ahd sender' w') m ≠
      head (rolledBack d ahd sender w) m := by
  rcases liveChain_rolledBack ahd sender w hi hm with
    ⟨hc', -⟩ | ⟨-, slot, action, free, hv, hle, hlt, hchain, hrec⟩
  · rw [hc] at hc'
    cases hc'
  have hi1 := storeInv_rolledBack ahd sender w hi
  have hi2 := storeInv_rolledBack ahd sender' w' hi1
  obtain ⟨⟨rest, hrest⟩, -⟩ := of_verdict_compensate hv
  have hslot : slot < free :=
    (hi.below m hm slot (mem_of_mem_standing (hrest ▸ List.mem_cons_self))).trans_le hle
  have hfree : record (rolledBack d ahd sender w) free = bytes (compensationSector ahd sender m slot
      action (header (record d slot)).derived free (count d m - runOf d ahd m + 1)) := by
    rw [record, hrec]
  have hslotrec : record (rolledBack d ahd sender w) slot = record d slot := by
    rw [record, (rolledBack_extends _ _ _ hi).slots slot
      (hi.below m hm slot (mem_of_mem_standing (hrest ▸ List.mem_cons_self)))]
    rfl
  rw [hrest] at hchain
  have hstand : standing (record (rolledBack d ahd sender w)) ahd
      (liveChain (rolledBack d ahd sender w) m) = slot :: rest := by
    rw [hchain, standing, List.dropWhile_cons_of_pos, List.dropWhile_cons_of_neg]
    · rw [hslotrec, retractable_of_standing hrest]
      decide
    · rw [hfree]
      exact retractable_compensationSector
  have hhead1 : head (rolledBack d ahd sender w) m = free := by
    rw [hi1.head_eq hm, hchain]
    rfl
  rw [hhead1, hi2.head_eq hm]
  rcases liveChain_rolledBack ahd sender' w' hi1 hm with
    ⟨-, h2⟩ | ⟨-, -, -, free2, -, hle2, -, h2, -⟩
  · rw [h2, hstand]
    exact Nat.ne_of_lt hslot
  · rw [h2]
    exact Nat.ne_of_gt (hlt.trans_le hle2)

theorem authorized_rolledBack (hi : StoreInv d) (h : Authorized d ahd caps) :
    Authorized (rolledBack d ahd sender w) ahd caps := by
  rintro ns hns ⟨slot, hs, hmission⟩
  apply h ns hns
  have hkept : ∀ slot ∈ standing (record d) ahd (liveChain d ns),
      ofMission ahd (record (rolledBack d ahd sender w) slot) = true → Touches d ahd ns := by
    intro slot hs hmission
    have hmem := mem_of_mem_standing hs
    rw [record, (rolledBack_extends _ _ _ hi).slots slot (hi.below ns hns slot hmem)] at hmission
    exact ⟨slot, hmem, hmission⟩
  rcases liveChain_rolledBack ahd sender w hi hns with
    ⟨-, hchain⟩ | ⟨-, slot', action, free, hv, -, -, hchain, -⟩
  · rw [hchain] at hs
    exact hkept slot hs hmission
  · obtain ⟨⟨rest, hrest⟩, hmission', -⟩ := of_verdict_compensate hv
    exact ⟨slot', mem_of_mem_standing (hrest ▸ List.mem_cons_self), hmission'⟩

theorem exists_compensates (hroom : next d < commitSlots)
    (h : ∃ ns < nsMax, (verdictOf d ahd ns).pending = true) :
    ∃ ns < nsMax, compensates d ahd ns = true := by
  classical
  obtain ⟨hns, hp⟩ := Nat.find_spec h
  refine ⟨Nat.find h, hns, ?_⟩
  have hzero : pendingBelow d ahd (Nat.find h) = 0 := by
    rw [pendingBelow, List.countP_eq_zero]
    intro ns hmem hpend
    have hlt := List.mem_range.mp hmem
    exact Nat.find_min h hlt ⟨hlt.trans hns, hpend⟩
  rw [compensates, hp, Bool.true_and, roomAt, hzero]
  exact decide_eq_true hroom

section

def requestRollback (fuel : ℕ) (ahd : UInt32) (caps sender : ℕ) (w : Bytes) (d : CairnDisk) :
    CairnDisk :=
  ((sfarRollback (commitSlots + 1 + fuel) ahd caps sender w).eval d).2

theorem requestRollback_zero : requestRollback fuel 0 caps sender w d = d := by
  rw [requestRollback, sfarRollback, if_pos rfl, eval_pure]

variable (sender fuel w) in
theorem requestRollback_eq (hi : StoreInv d) (h0 : ahd ≠ 0) (hauth : Authorized d ahd caps) :
    requestRollback fuel ahd caps sender w d = rolledBack d ahd sender w := by
  obtain ⟨r, hr, -⟩ := eval_sfarRollback sender fuel w hi h0 hauth
  rw [requestRollback, hr]

def logOf (d : CairnDisk) : List Sector :=
  (List.range (next d)).map fun slot => d (commitFirstSector + slot)

/-- The same live heads, counts and log contents. -/
def SameLedger (d d' : CairnDisk) : Prop :=
  (∀ ns < nsMax, head d' ns = head d ns ∧ count d' ns = count d ns) ∧ logOf d' = logOf d

theorem SameStore.sameLedger (h : SameStore d d') : SameLedger d d' := by
  refine ⟨fun ns _ => ⟨h.head_eq ns, h.count_eq ns⟩, ?_⟩
  rw [logOf, logOf, h.next_eq]
  exact List.map_congr_left fun slot hs => h.slots slot (List.mem_range.mp hs)

def newCompensations (d d' : CairnDisk) (effect : ℕ) : ℕ :=
  (List.range (next d')).countP fun slot =>
    decide (next d ≤ slot) && (header (record d' slot)).status == statusCompensation &&
      (header (record d' slot)).parent == effect

theorem Idle.iterate (hi : StoreInv d) (hidle : Idle d ahd) (hauth : Authorized d ahd caps)
    (h0 : ahd ≠ 0) (k : ℕ) :
    SameStore d ((requestRollback fuel ahd caps sender w)^[k] d) := by
  induction k generalizing d with
  | zero => exact .refl d
  | succ k ih =>
    rw [Function.iterate_succ_apply, requestRollback_eq _ _ _ hi h0 hauth]
    have hs := Idle.same sender w hi hidle
    exact hs.trans (ih (hs.storeInv hi) (hidle.of_same hi hs) (authorized_rolledBack hi hauth))

/-- Repeating a rollback any number of times leaves the ledger as one rollback
left it, with at most one compensation per effect, exactly when the request names
no mission or no compensation is pending in the state it starts from. -/
theorem rollback_idempotent_iff (h : Attained d) (hauth : Authorized d ahd caps)
    (hroom : next d < commitSlots) :
    ((∀ k, SameLedger (requestRollback fuel ahd caps sender w d)
        ((requestRollback fuel ahd caps sender w)^[k + 1] d)) ∧
      ∀ k effect,
        newCompensations d ((requestRollback fuel ahd caps sender w)^[k] d) effect ≤ 1) ↔
    ahd = 0 ∨ ∀ ns < nsMax, (verdictOf d ahd ns).pending = false := by
  have hi := h.storeInv
  have hnone : ∀ d' effect, next d' ≤ next d → newCompensations d d' effect ≤ 1 := by
    intro d' effect hle
    rw [newCompensations, List.countP_eq_zero.mpr]
    · exact Nat.zero_le 1
    · intro slot hs
      have : ¬ next d ≤ slot := by
        have := List.mem_range.mp hs
        omega
      simp [this]
  constructor
  · rintro ⟨hsame, -⟩
    by_contra hcon
    push Not at hcon
    obtain ⟨h0, ns, hns, hp⟩ := hcon
    rw [ne_eq, Bool.not_eq_false] at hp
    obtain ⟨m, hm, hc⟩ := exists_compensates hroom ⟨ns, hns, hp⟩
    have htwo := (hsame 1).1 m hm
    rw [Function.iterate_succ_apply, Function.iterate_one, requestRollback_eq _ _ _ hi h0 hauth,
      requestRollback_eq _ _ _ (storeInv_rolledBack _ _ _ hi) h0 (authorized_rolledBack hi hauth)] at htwo
    exact head_ne_of_compensates hi hm hc htwo.1
  · intro hcond
    by_cases h0 : ahd = 0
    · subst h0
      have hfix : ∀ k, (requestRollback fuel 0 caps sender w)^[k] d = d :=
        fun k => Function.iterate_fixed requestRollback_zero k
      refine ⟨fun k => ?_, fun k effect => ?_⟩
      · rw [hfix, requestRollback_zero]
        exact SameStore.sameLedger (.refl d)
      · rw [hfix]
        exact hnone d effect le_rfl
    · have hp := hcond.resolve_left h0
      have hidle := idle_rolledBack sender w hi hp
      have hrest : ∀ k, SameStore (rolledBack d ahd sender w)
          ((requestRollback fuel ahd caps sender w)^[k + 1] d) := by
        intro k
        rw [Function.iterate_succ_apply, requestRollback_eq _ _ _ hi h0 hauth]
        exact hidle.iterate (storeInv_rolledBack _ _ _ hi) (authorized_rolledBack hi hauth) h0 k
      refine ⟨fun k => ?_, fun k effect => ?_⟩
      · rw [requestRollback_eq _ _ _ hi h0 hauth]
        exact SameStore.sameLedger (hrest k)
      · apply hnone
        cases k with
        | zero => exact le_rfl
        | succ k =>
          rw [(hrest k).next_eq, next_rolledBack hi, pendingBelow_eq_zero hp]
          exact min_le_right _ _

def noted : CairnDisk := ((agentCommit "note" 1 0).program.run .clean blank).2

theorem reachable_noted : Attained noted := .step _ _ reachable_blank

theorem rollback_idempotent_noted :
    SameLedger (requestRollback 0 1 4096 2 (fun _ => 0) noted)
      ((requestRollback 0 1 4096 2 fun _ => 0)^[2] noted) :=
  ((rollback_idempotent_iff reachable_noted (by decide +kernel) (by decide +kernel)).mpr
    (.inr (by decide +kernel))).1 1

def booked : CairnDisk := ((agentCommit "book\x1fcancel" 1 1).program.run .clean blank).2

theorem reachable_booked : Attained booked := .step _ _ reachable_blank

/-- The second rollback retracts the recorded compensation and records it again. -/
theorem booked_compensated_twice :
    Attained booked ∧ Authorized booked 1 4096 ∧ next booked = 1 ∧
      head (requestRollback 0 1 4096 2 (fun _ => 0) booked) 4 = 1 ∧
      head ((requestRollback 0 1 4096 2 fun _ => 0)^[2] booked) 4 = 2 ∧
      newCompensations booked ((requestRollback 0 1 4096 2 fun _ => 0)^[2] booked) 0 = 2 :=
  ⟨reachable_booked, by decide +kernel, by decide +kernel, by decide +kernel, by decide +kernel,
    by decide +kernel⟩

end

end Dezh.RollbackRepeat

import Dezh.ForecastHonesty

/-!
# What a mission rollback may do to a chain

A rollback walks every namespace from its newest record. It takes the run of the
mission's reversible effects off the chain, and where that run ends at an effect
with a registered compensation it puts the record of the compensating action on
top of it. Here this is stated for one namespace, in terms of the chains before
and after: a common rest, the records taken off it, and the record put on it.
-/
namespace Dezh.RollbackSoundness
open BlockProgram Program ByteLayout CairnFormat CairnService SfarService CairnStore CairnOutcomes
open MissionUndo MissionPublish MissionExact StoreRuns ForecastHonesty RollbackRepeat

variable {d d' : CairnDisk} {ahd : UInt32} {caps sender fuel m : ℕ} {w : Bytes}

/-- Slot `slot` holds a compensation of the mission, recorded on top of the chain
`kept`, which ends in the compensatable effect it compensates. -/
structure Compensation (d d' : CairnDisk) (ahd : UInt32) (kept : List ℕ) (slot : ℕ) : Prop where
  fresh : next d ≤ slot
  status : (header (record d' slot)).status = statusCompensation
  intent : (header (record d' slot)).intent = ahd.toNat
  effect : kept.head? = some (header (record d' slot)).parent
  ofMission : ofMission ahd (record d (header (record d' slot)).parent) = true
  compensatable :
    RevClass.ofByte (record d (header (record d' slot)).parent offRevclass) = .compensatable
  text : ∃ action, registered (record d (header (record d' slot)).parent) = some action ∧
    valueOf (record d' slot) = compensationMark ++ action.take 96

/-- From `d` to `d'` the records `removed` are taken off the chain of namespace
`m` and the records `top` are put on what is left, `kept`. -/
structure Undone (d d' : CairnDisk) (ahd : UInt32) (m : ℕ) (removed kept top : List ℕ) : Prop where
  before : liveChain d m = removed ++ kept
  after : liveChain d' m = top ++ kept
  records : ∀ slot ∈ kept, record d' slot = record d slot
  reversible : ∀ slot ∈ removed, ofMission ahd (record d slot) = true ∧
    RevClass.ofByte (record d slot offRevclass) = .reversible
  one : top.length ≤ 1
  compensation : ∀ slot ∈ top, Compensation d d' ahd kept slot

/-- Namespace `m` is as it was: its entry, its chain and its records. -/
structure Unchanged (d d' : CairnDisk) (m : ℕ) : Prop where
  head : head d' m = head d m
  count : count d' m = count d m
  revoked : revoked d' m = revoked d m
  chain : liveChain d' m = liveChain d m
  records : ∀ slot ∈ liveChain d m, record d' slot = record d slot

/-- The newest live record of the namespace is an effect of the mission. -/
def Leads (d : CairnDisk) (ahd : UInt32) (m : ℕ) : Prop :=
  ∃ slot, (liveChain d m).head? = some slot ∧ ofMission ahd (record d slot) = true

section
variable {rec : ℕ → Bytes} {l : List ℕ}

theorem undoRun_append_standing : undoRun rec ahd l ++ standing rec ahd l = l :=
  List.takeWhile_append_dropWhile

theorem of_mem_undoRun {slot : ℕ} (h : slot ∈ undoRun rec ahd l) :
    ofMission ahd (rec slot) = true ∧ RevClass.ofByte (rec slot offRevclass) = .reversible := by
  have hr : retractable ahd (rec slot) = true :=
    List.mem_takeWhile_imp (p := fun slot => retractable ahd (rec slot)) h
  rw [retractable, Bool.and_eq_true, beq_iff_eq] at hr
  exact hr

theorem compensationValue_take (action : List UInt8) :
    compensationValue (action.take 96) = compensationMark ++ action.take 96 := by
  have hmark : compensationMark.length = 15 := by decide
  refine List.take_of_length_le ?_
  rw [List.length_append, List.length_take, hmark]
  omega

end

theorem compensation_of_record (hi : StoreInv d) (hm : m < nsMax) {slot free derived gen : ℕ}
    {action : List UInt8} (hverdict : verdictOf d ahd m = .compensate slot action)
    (hfree : next d ≤ free) (hrecord : d' (commitFirstSector + free) =
      compensationSector ahd sender m slot action derived free gen) :
    Compensation d d' ahd (standing (record d) ahd (liveChain d m)) free := by
  obtain ⟨⟨rest, hrest⟩, hmission, hclass, haction⟩ := of_verdict_compensate hverdict
  have hmem : slot ∈ liveChain d m := mem_of_mem_standing (hrest ▸ List.mem_cons_self)
  have hlt : slot < 2 ^ 32 :=
    Nat.lt_trans (StoreInv.lt_noSlot hi hm slot hmem) (by decide)
  have hrec : record d' free =
      bytes (compensationSector ahd sender m slot action derived free gen) :=
    congrArg bytes hrecord
  obtain ⟨hintent, -, hstatus⟩ :=
    header_compensationSector ahd sender m slot action derived free gen
  have hparent : (header (record d' free)).parent = slot := by
    rw [hrec, parent_compensationSector hlt]
  rw [extractCompensation_eq _ (by decide), Option.map_eq_some_iff] at haction
  obtain ⟨whole, hwhole, rfl⟩ := haction
  refine ⟨hfree, by rw [hrec, hstatus], by rw [hrec, hintent], ?_, ?_, ?_, whole, ?_, ?_⟩
  · rw [hparent, hrest, List.head?_cons]
  · rw [hparent, hmission]
  · rw [hparent, hclass]
  · rw [hparent, hwhole]
  · rw [hrec, valueOf_compensationSector, compensationValue_take]

theorem undone_rolledBack (hi : StoreInv d) (hm : m < nsMax) :
    ∃ removed kept top, Undone d (rolledBack d ahd sender w) ahd m removed kept top := by
  have hrecords : ∀ slot ∈ standing (record d) ahd (liveChain d m),
      record (rolledBack d ahd sender w) slot = record d slot := fun slot hslot =>
    record_rolledBack hi (hi.below m hm slot (mem_of_mem_standing hslot))
  rcases liveChain_rolledBack ahd sender w hi hm with
    ⟨-, hchain⟩ | ⟨-, slot, action, free, hverdict, hfree, -, hchain, hrecord⟩
  · refine ⟨_, _, [], undoRun_append_standing.symm, hchain, hrecords,
      fun slot hslot => of_mem_undoRun hslot, Nat.zero_le _, ?_⟩
    exact fun slot hslot => absurd hslot List.not_mem_nil
  · refine ⟨_, _, [free], undoRun_append_standing.symm, hchain, hrecords,
      fun slot hslot => of_mem_undoRun hslot, le_rfl, fun slot' hslot => ?_⟩
    rw [List.mem_singleton.mp hslot]
    exact compensation_of_record hi hm hverdict hfree hrecord

theorem standing_of_not_leads (h : ¬ Leads d ahd m) :
    standing (record d) ahd (liveChain d m) = liveChain d m ∧ verdictOf d ahd m = .clear := by
  unfold verdictOf verdict
  cases hl : liveChain d m with
  | nil => exact ⟨rfl, rfl⟩
  | cons slot rest =>
    have hmission : ofMission ahd (record d slot) = false := by
      by_contra hc
      exact h ⟨slot, by rw [hl, List.head?_cons], Bool.not_eq_false _ ▸ hc⟩
    have hkeep : ¬ retractable ahd (record d slot) = true := by
      rw [retractable, hmission, Bool.false_and]
      decide
    have hs : standing (record d) ahd (slot :: rest) = slot :: rest :=
      List.dropWhile_cons_of_neg hkeep
    refine ⟨hs, ?_⟩
    rw [hs]
    simp only [verdictAt, hmission, Bool.false_eq_true, if_false]

theorem unchanged_rolledBack (hi : StoreInv d) (hm : m < nsMax) (h : ¬ Leads d ahd m) :
    Unchanged d (rolledBack d ahd sender w) m := by
  obtain ⟨hstanding, hclear⟩ := standing_of_not_leads h
  have hi' := storeInv_rolledBack ahd sender w hi
  have hchain : liveChain (rolledBack d ahd sender w) m = liveChain d m := by
    rcases liveChain_rolledBack ahd sender w hi hm with
      ⟨-, hchain⟩ | ⟨-, slot, action, free, hverdict, -⟩
    · rw [hchain, hstanding]
    · rw [hclear] at hverdict
      cases hverdict
  refine ⟨?_, ?_, revoked_published hm, hchain, fun slot hslot => ?_⟩
  · rw [hi'.head_eq hm, hi.head_eq hm, hchain]
  · rw [hi'.count_eq m hm, hi.count_eq m hm, hchain]
  · exact record_rolledBack hi (hi.below m hm slot hslot)

/-- A failure-free mission rollback by an authorized caller on a reachable store
is answered. In every namespace it takes off only reversible effects of the
mission, from the top of the chain, and puts on at most one record, which is a
compensation of the effect it is put on. A namespace whose newest live record is
not an effect of the mission is left as it was. -/
theorem mission_rollback_sound (hd : Attained d) (hauth : Authorized d ahd caps)
    {reply : Option (Answer RollbackReply)}
    (h : (sfarRollback (commitSlots + 1 + fuel) ahd caps sender w).eval d = (reply, d')) :
    (∃ a, reply = some a ∧ a.value.status = if ahd = 0 then .badRequest else .ok) ∧
      ∀ m < nsMax, (∃ removed kept top, Undone d d' ahd m removed kept top) ∧
        (¬ Leads d ahd m → Unchanged d d' m) := by
  have hi := hd.storeInv
  by_cases h0 : ahd = 0
  · -- there is no mission zero: the request is refused and nothing is touched
    rw [sfarRollback, if_pos h0, Program.eval_pure, Prod.mk.injEq] at h
    obtain ⟨rfl, rfl⟩ := h
    refine ⟨⟨_, rfl, (if_pos h0).symm⟩, fun m hm => ⟨⟨[], liveChain d m, [], rfl, rfl,
      fun _ _ => rfl, ?_, Nat.zero_le _, ?_⟩, fun _ => ⟨rfl, rfl, rfl, rfl, fun _ _ => rfl⟩⟩⟩
    all_goals exact fun slot hslot => absurd hslot List.not_mem_nil
  · obtain ⟨a, heval, hok, -⟩ := eval_sfarRollback sender fuel w hi h0 hauth
    rw [heval, Prod.mk.injEq] at h
    obtain ⟨rfl, rfl⟩ := h
    exact ⟨⟨a, rfl, hok.trans (if_neg h0).symm⟩, fun m hm =>
      ⟨undone_rolledBack hi hm, unchanged_rolledBack hi hm⟩⟩

theorem mission_rollback_sound_booked :
    Attained booked ∧ Authorized booked 1 4096 ∧ ∃ removed kept top, Undone booked
      ((sfarRollback (commitSlots + 1 + 0) 1 4096 2 fun _ => 0).eval booked).2 1 4 removed kept top :=
  ⟨reachable_booked, by decide +kernel,
    ((mission_rollback_sound reachable_booked (by decide +kernel) rfl).2 4 (by decide)).1⟩

end Dezh.RollbackSoundness

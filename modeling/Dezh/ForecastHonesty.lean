import Mathlib.Data.List.TakeWhile
import Dezh.RollbackRepeat

/-!
# The forecast and the rollback it promises

The forecast classifies every live effect of a mission. The rollback works from
the heads down and stops at the first record it cannot retract, so it reaches
less than the forecast counts. A full forecast is kept exactly when in every
namespace the mission's effects form one reversible run at the head, possibly
followed by a single compensatable effect whose registered action fits the
buffer of the rollback, and the log has room for all compensations.
-/
namespace Dezh.ForecastHonesty
open BlockProgram Program ByteLayout ParentChain CairnFormat CairnService SfarService CairnStore
open CairnOutcomes MissionScan MissionUndo MissionPublish StoreRuns MissionExact RollbackRepeat

variable {d : CairnDisk} {ahd : UInt32} {sender caps fuel : ℕ} {w : Bytes}

def valueOf (b : Bytes) : List UInt8 := toList b valueOff (header b).len

def registered (b : Bytes) : Option (List UInt8) := extractCompensation b valueMax

theorem extractCompensation_eq (b : Bytes) {cap : ℕ} (hcap : 0 < cap) :
    extractCompensation b cap = (registered b).map (·.take cap) := by
  have hlen : ∀ n, (toList b valueOff n).length = n := fun n => by simp [toList]
  simp only [registered, extractCompensation]
  cases h : (toList b valueOff (min (u32At b offLen) valueMax)).dropWhile (· != compSep) with
  | nil => rfl
  | cons c rest =>
    have hrest : (rest.takeWhile (· != 0)).length ≤ valueMax := by
      have h1 := (List.takeWhile_sublist (p := (· != (0 : UInt8))) (l := rest)).length_le
      have h2 := (List.dropWhile_sublist (p := (· != compSep))
        (l := toList b valueOff (min (u32At b offLen) valueMax))).length_le
      rw [h, hlen, List.length_cons] at h2
      omega
    simp only [List.take_of_length_le hrest]
    cases hout : rest.takeWhile (· != 0) with
    | nil => simp
    | cons x out =>
      obtain ⟨cap, rfl⟩ : ∃ k, cap = k + 1 := ⟨cap - 1, by omega⟩
      simp

theorem toList_commitSector {h : CommitHeader} {value : Bytes} {len : ℕ} (hlen : len ≤ valueMax) :
    toList (bytes (commitSector h value len)) valueOff len = toList value 0 len := by
  refine List.map_congr_left fun i hi => ?_
  have hi' : i < len := List.mem_range.mp hi
  have hs : valueOff + i < sectorSize := by
    have h2 : valueOff + valueMax = sectorSize := by decide
    omega
  rw [commitSector, bytes_take hs, buildCommit, copy_inside hi', Nat.zero_add]

theorem valueOf_compensationSector {ns slot derived free generation : ℕ} {action : List UInt8} :
    valueOf (bytes (compensationSector ahd sender ns slot action derived free generation)) =
      compensationValue action := by
  have hle : (compensationValue action).length ≤ 128 := by
    rw [compensationValue, List.length_take]
    exact min_le_left _ _
  have hmin : min (compensationValue action).length (valueMax - 1) =
      (compensationValue action).length := by
    have : valueMax - 1 = 447 := by decide
    omega
  have hlen : (header (bytes (compensationSector ahd sender ns slot action derived free
      generation))).len = (compensationValue action).length := by
    rw [compensationSector, header_commitSector, header_encode]
    simp only [compensationHeader, hmin]
    omega
  rw [valueOf, hlen, compensationSector, hmin, toList_commitSector, toList_ofList]
  exact hle.trans (by decide)

theorem compensationValue_of_le {action : List UInt8} (h : action.length ≤ 96) :
    compensationValue action = compensationMark ++ action := by
  rw [compensationValue, List.take_of_length_le]
  rw [List.length_append]
  have : compensationMark.length = 15 := by decide
  omega

theorem local_notePlan (ahd : UInt32) (ns : ℕ) : Local (notePlan ahd ns) := by
  intro slot s w p
  have hm : ofMission ahd (load w s) = ofMission ahd (bytes s) :=
    congrArg (fun h : CommitHeader => h.intent == ahd.toNat) header_load
  have hc : load w s offRevclass = bytes s offRevclass := load_of_lt (by decide)
  simp only [notePlan, Forecast.note, hm, hc, header_load, extractCompensation_load]

def blocking (ahd : UInt32) (b : Bytes) : Bool :=
  ofMission ahd b && (RevClass.ofByte (b offRevclass) == .irreversible ||
    RevClass.ofByte (b offRevclass) == .unknown)

def blockers (p : Forecast) : ℕ := p.irreversible + p.unknown

theorem blockers_notePlan {ns slot : ℕ} {b : Bytes} {p : Forecast} :
    blockers (notePlan ahd ns slot b p) =
      blockers p + if blocking ahd b then 1 else 0 := by
  cases hm : ofMission ahd b with
  | false => simp [notePlan, blocking, hm]
  | true =>
    cases hc : RevClass.ofByte (b offRevclass)
    all_goals simp [notePlan, Forecast.note, blocking, blockers, hm, hc]
    all_goals omega

theorem blockers_foldl {ns : ℕ} {rec : ℕ → Bytes} {l : List ℕ} {p : Forecast} :
    blockers (l.foldl (fun p slot => notePlan ahd ns slot (rec slot) p) p) =
      blockers p + l.countP fun slot => blocking ahd (rec slot) := by
  induction l generalizing p with
  | nil => rfl
  | cons slot l ih =>
    rw [List.foldl_cons, ih, blockers_notePlan, List.countP_cons]
    omega

theorem blocking_of_scanned {rec : ℕ → Bytes} {chain : ℕ → List ℕ} (ns : ℕ) {n : ℕ} {p : Forecast}
    (h : blockers (scanned (notePlan ahd) rec chain ns n p) = 0) :
    blockers p = 0 ∧
      ∀ m, ns ≤ m → m < ns + n → ∀ slot ∈ chain m, blocking ahd (rec slot) = false := by
  induction n generalizing ns p with
  | zero => exact ⟨h, fun m h1 h2 => by omega⟩
  | succ n ih =>
    simp only [scanned, List.range'_succ, List.foldl_cons] at h
    obtain ⟨hp, hrest⟩ := ih (ns + 1) h
    rw [blockers_foldl, Nat.add_eq_zero_iff, List.countP_eq_zero] at hp
    refine ⟨hp.1, fun m h1 h2 slot hs => ?_⟩
    by_cases hm : m = ns
    · subst hm
      exact Bool.eq_false_iff.mpr (hp.2 slot hs)
    · exact hrest m (by omega) (by omega) slot hs

def planConfidence (d : CairnDisk) (ahd : UInt32) (caps : ℕ) (w : Bytes) : Option Confidence :=
  ((sfarPlan ahd caps w).eval d).1.value.confidence

/-- The forecast says that the whole mission can be undone. -/
def Promised (d : CairnDisk) (ahd : UInt32) (caps : ℕ) (w : Bytes) : Prop :=
  planConfidence d ahd caps w = some .full ∨
    planConfidence d ahd caps w = some .fullWithCompensation

theorem blockers_of_confidence {p : Forecast}
    (h : p.confidence = .full ∨ p.confidence = .fullWithCompensation) :
    blockers p = 0 := by
  simp only [Forecast.confidence] at h
  simp only [blockers]
  split at h
  · omega
  · split at h
    · omega
    · simp at h

theorem Promised.classes (h : Promised d ahd caps w) :
    ahd ≠ 0 ∧ ∀ ns < nsMax, ∀ slot ∈ liveChain d ns, blocking ahd (record d slot) = false := by
  have he := exec_eval Faults.none (sfarPlan ahd caps w) d
  rw [Promised, planConfidence] at h
  generalize ((sfarPlan ahd caps w).eval d).1 = a at h he
  generalize ((sfarPlan ahd caps w).eval d).2 = d' at he
  rw [sfarPlan] at he
  by_cases h0 : ahd = 0
  · rw [if_pos h0] at he
    rw [he.1] at h
    rcases h with h | h <;> cases h
  refine ⟨h0, ?_⟩
  rw [if_neg h0] at he
  rcases exec_withSuper he with hk | ⟨-, hK, -⟩
  swap
  · exact absurd hK Faults.not_possible_none
  obtain ⟨t, d2, ht, hk⟩ := exec_bind.mp hk
  obtain ⟨hd, -⟩ := scanFrom_cases (local_noteTouched ahd) ht
  subst d2
  split at hk
  · rw [hk.1] at h
    rcases h with h | h <;> cases h
  obtain ⟨q, d3, hq, hk⟩ := exec_bind.mp hk
  obtain ⟨hd, k, hlen, hval⟩ := scanFrom_cases (local_notePlan ahd) hq
  have hblock : blockers q.value = 0 := by
    split at hk
    · rw [hk.1] at h
      rcases h with h | h <;> cases h
    · rw [hk.1] at h
      exact blockers_of_confidence (h.imp Option.some.inj Option.some.inj)
  rw [hval] at hblock
  intro ns hns slot hs
  have hscan := (blocking_of_scanned _ hblock).2 ns (Nat.zero_le _) (by omega)
  rw [heads_load hns] at hscan
  rcases hlen ns with hK | hle
  · exact hK.elim
  · rw [heads_load hns] at hle
    have hslot := hscan slot
    rw [List.take_of_length_le hle] at hslot
    have hmem : slot ∈ follow commitLinks (record (settle d)) commitSlots (head d ns) := by
      rw [show record (settle d) = record d from funext (record_settle d)]
      exact hs
    have := hslot hmem
    rwa [record_settle] at this

section
variable {d' : CairnDisk} {ns slot : ℕ}

/-- Record `k` is the complete compensation of the effect in `slot`. -/
def CompensatedBy (d' : CairnDisk) (slot : ℕ) (action : List UInt8) (k : ℕ) : Prop :=
  (header (record d' k)).status = statusCompensation ∧ (header (record d' k)).parent = slot ∧
    valueOf (record d' k) = compensationMark ++ action

/-- The effect in `slot` of the store `d` is undone in `d'`. -/
def Undone (d d' : CairnDisk) (ns slot : ℕ) : Prop :=
  match (header (record d slot)).cls with
  | .reversible => slot ∉ liveChain d' ns
  | .compensatable => ∃ action, registered (record d slot) = some action ∧
      ∃ k ∈ liveChain d' ns, CompensatedBy d' slot action k
  | _ => False

/-- The rollback answers, refuses nothing and undoes every live effect. -/
structure Kept (d : CairnDisk) (fuel : ℕ) (ahd : UInt32) (caps sender : ℕ) (w : Bytes) : Prop where
  refuses_nothing : ∃ r s,
    ((sfarRollback (commitSlots + 1 + fuel) ahd caps sender w).eval d).1 = some r ∧
      r.value.status = .ok ∧ r.value.report = some s ∧ s.refusedIrrev = 0 ∧ s.refusedComp = 0
  undone : ∀ ns < nsMax, ∀ slot ∈ liveChain d ns, ofMission ahd (record d slot) = true →
    Undone d (requestRollback fuel ahd caps sender w d) ns slot

/-- Below the retracted run there is nothing of the mission, or one compensatable
effect whose whole registered action fits the rollback's buffer and nothing
more. -/
def Coverable (d : CairnDisk) (ahd : UInt32) (ns : ℕ) : Prop :=
  (∀ slot ∈ standing (record d) ahd (liveChain d ns), ofMission ahd (record d slot) = false) ∨
    ∃ slot rest action, standing (record d) ahd (liveChain d ns) = slot :: rest ∧
      ofMission ahd (record d slot) = true ∧ (header (record d slot)).cls = .compensatable ∧
      registered (record d slot) = some action ∧ action.length ≤ 96 ∧
      ∀ s ∈ rest, ofMission ahd (record d s) = false

variable (ahd) in
theorem mem_undoRun_or_standing (rec : ℕ → Bytes) {l : List ℕ} (h : slot ∈ l) :
    slot ∈ undoRun rec ahd l ∨ slot ∈ standing rec ahd l := by
  rw [← List.mem_append, undoRun, standing, List.takeWhile_append_dropWhile]
  exact h

theorem not_mem_standing {rec : ℕ → Bytes} {l : List ℕ} (hl : l.Nodup)
    (h : slot ∈ undoRun rec ahd l) : slot ∉ standing rec ahd l := by
  rw [← List.takeWhile_append_dropWhile (p := fun slot => retractable ahd (rec slot)) (l := l)] at hl
  exact fun hs => (List.nodup_append.mp hl).2.2 slot h slot hs rfl

theorem exists_newest {p : ℕ → Bool} {l : List ℕ} (hl : l.Pairwise (· > ·))
    (h : ∃ s ∈ l, p s = true) : ∃ s ∈ l, p s = true ∧ ∀ t ∈ l, p t = true → t ≤ s := by
  induction hl with
  | nil =>
    obtain ⟨s, hs, -⟩ := h
    cases hs
  | @cons first l hd _ ih =>
    by_cases hp : p first = true
    · refine ⟨first, List.mem_cons_self, hp, fun t ht _ => ?_⟩
      rcases List.mem_cons.mp ht with rfl | ht
      · exact le_rfl
      · exact (hd t ht).le
    · obtain ⟨s, hs, hps⟩ := h
      rcases List.mem_cons.mp hs with rfl | hs
      · exact absurd hps hp
      · obtain ⟨s, hs, hps, hmax⟩ := ih ⟨s, hs, hps⟩
        refine ⟨s, List.mem_cons_of_mem _ hs, hps, fun t ht hpt => ?_⟩
        rcases List.mem_cons.mp ht with rfl | ht
        · exact absurd hpt hp
        · exact hmax t ht hpt

variable (d ahd) in
theorem pendingBelow_mono {m n : ℕ} (h : m ≤ n) : pendingBelow d ahd m ≤ pendingBelow d ahd n :=
  (List.range_sublist.mpr h).countP_le

theorem room_iff (hle : next d ≤ commitSlots) :
    (∀ ns < nsMax, (verdictOf d ahd ns).pending = true → roomAt d ahd ns = true) ↔
      next d + pendingBelow d ahd nsMax ≤ commitSlots := by
  constructor
  · intro h
    have key : ∀ n ≤ nsMax, next d + pendingBelow d ahd n ≤ commitSlots := by
      intro n
      induction n with
      | zero => exact fun _ => hle
      | succ n ih =>
        intro hn
        rw [pendingBelow_succ]
        split
        · next hp =>
            have := of_decide_eq_true (h n hn hp)
            omega
        · exact ih (by omega)
    exact key nsMax le_rfl
  · intro h ns hns hp
    have hsucc := pendingBelow_succ d ahd ns
    have hmono := pendingBelow_mono d ahd (show ns + 1 ≤ nsMax from hns)
    rw [hp, if_pos rfl] at hsucc
    exact decide_eq_true (by omega)

theorem refuses_nothing_iff (hi : StoreInv d) (h0 : ahd ≠ 0) (hauth : Authorized d ahd caps) :
    (∃ r s, ((sfarRollback (commitSlots + 1 + fuel) ahd caps sender w).eval d).1 = some r ∧
      r.value.status = .ok ∧ r.value.report = some s ∧ s.refusedIrrev = 0 ∧ s.refusedComp = 0) ↔
    (∀ ns < nsMax, (verdictOf d ahd ns).blocked = false ∧ (verdictOf d ahd ns).bare = false) ∧
      next d + pendingBelow d ahd nsMax ≤ commitSlots := by
  obtain ⟨r, hr, hok, hrep⟩ := eval_sfarRollback sender fuel w hi h0 hauth
  have hclean := clean_undone ahd sender w hi
  have hirrev : (undone d ahd sender noCut w).1.refusedIrrev = 0 ↔
      ∀ ns < nsMax, (verdictOf d ahd ns).blocked = false := by
    rw [hclean.refusedIrrev_eq, List.countP_eq_zero]
    simp only [List.mem_range, Bool.not_eq_true]
  have hcomp : (undone d ahd sender noCut w).1.refusedComp = 0 ↔
      ∀ ns < nsMax, (verdictOf d ahd ns).bare = false ∧
        ((verdictOf d ahd ns).pending = true → roomAt d ahd ns = true) := by
    rw [hclean.refusedComp_eq, List.countP_eq_zero]
    simp only [List.mem_range, refusesComp, Bool.or_eq_true, Bool.and_eq_true, Bool.not_eq_true',
      not_or, not_and, Bool.not_eq_true, Bool.not_eq_false]
  rw [hr, ← room_iff hi.next_le]
  constructor
  · rintro ⟨r', s, hr', -, hs, h1, h2⟩
    cases hr'
    rw [hrep, Option.some.injEq] at hs
    rw [← hs] at h1 h2
    have h1' := hirrev.mp h1
    have h2' := hcomp.mp h2
    exact ⟨fun ns hns => ⟨h1' ns hns, (h2' ns hns).1⟩, fun ns hns => (h2' ns hns).2⟩
  · rintro ⟨h1, h2⟩
    refine ⟨r, _, rfl, hok, hrep, hirrev.mpr fun ns hns => (h1 ns hns).1, hcomp.mpr fun ns hns => ?_⟩
    exact ⟨(h1 ns hns).2, h2 ns hns⟩

theorem record_rolledBack (hi : StoreInv d) (hs : slot < next d) :
    record (rolledBack d ahd sender w) slot = record d slot := by
  rw [record, (rolledBack_extends _ _ _ hi).slots slot hs]
  rfl

theorem parent_lt (hi : StoreInv d) (hns : ns < nsMax) {k : ℕ} (hk : k ∈ liveChain d ns)
    (hp : (header (record d k)).parent = slot) (hs : slot ∈ liveChain d ns) : slot < k := by
  rcases (hi.chain ns hns).parent_mem hk with hstop | ⟨-, hlt⟩
  · have hne := StoreInv.lt_noSlot hi hns slot hs
    rw [← hp] at hne
    exact absurd hstop (Nat.ne_of_lt hne)
  · exact hp ▸ hlt

variable (sender w) in
theorem no_effect_left (h : Attained d) (hns : ns < nsMax) {t : List ℕ} (hsort : t.Pairwise (· > ·))
    (hold : ∀ s ∈ t, s ∈ liveChain d ns)
    (hstay : ∀ s ∈ t, s ∈ liveChain (rolledBack d ahd sender w) ns)
    (hcomp : ∀ y ∈ t, ∀ k ∈ liveChain (rolledBack d ahd sender w) ns,
      (header (record (rolledBack d ahd sender w) k)).status = statusCompensation →
      (header (record (rolledBack d ahd sender w) k)).parent = y → k ∈ t)
    (hundone : ∀ y ∈ t, ofMission ahd (record d y) = true →
      Undone d (rolledBack d ahd sender w) ns y) :
    ∀ s ∈ t, ofMission ahd (record d s) = false := by
  have hi := h.storeInv
  by_contra hcon
  push Not at hcon
  obtain ⟨s, hs, hms⟩ := hcon
  rw [ne_eq, Bool.not_eq_false] at hms
  obtain ⟨y, hy, hmission, hnewest⟩ :=
    exists_newest (p := fun s => ofMission ahd (record d s)) hsort ⟨s, hs, hms⟩
  have hu := hundone y hy hmission
  rw [Undone] at hu
  split at hu
  · exact hu (hstay y hy)
  · obtain ⟨action, -, k, hk, hstatus, hparent, -⟩ := hu
    have hkt := hcomp y hy k hk hstatus hparent
    have hkold := hold k hkt
    rw [record_rolledBack hi (hi.below ns hns k hkold)] at hstatus hparent
    obtain ⟨-, effect, -, hp, hint⟩ := h.compensation hns hkold hstatus
    have hky := parent_lt hi hns hkold hparent (hold y hy)
    have hkm : ofMission ahd (record d k) = true := by
      rw [hparent] at hp
      rw [← hp] at hint
      rw [ofMission, beq_iff_eq] at hmission ⊢
      exact hint.symm.trans hmission
    have := hnewest k hkt hkm
    omega
  · exact hu

theorem compensatable_of_standing {top : ℕ} {rest : List ℕ}
    (hstand : standing (record d) ahd (liveChain d ns) = top :: rest)
    (hm : ofMission ahd (record d top) = true) (hblock : blocking ahd (record d top) = false) :
    RevClass.ofByte (record d top offRevclass) = .compensatable := by
  have hret := retractable_of_standing hstand
  rw [retractable, hm, Bool.true_and] at hret
  rw [blocking, hm, Bool.true_and] at hblock
  cases hc : RevClass.ofByte (record d top offRevclass)
  all_goals simp [hc] at hret hblock ⊢

theorem new_of_parent_top (hi : StoreInv d) (hns : ns < nsMax) {top free k : ℕ} {rest : List ℕ}
    (hold : ∀ s ∈ top :: rest, s ∈ liveChain d ns) (hsorted : (top :: rest).Pairwise (· > ·))
    (hk : k ∈ free :: top :: rest)
    (hparent : (header (record (rolledBack d ahd sender w) k)).parent = top) : k = free := by
  rcases List.mem_cons.mp hk with hk | hk
  · exact hk
  · have hkl := hold k hk
    have hkt : k ≤ top := by
      rcases List.mem_cons.mp hk with rfl | hk
      · exact le_rfl
      · exact (List.rel_of_pairwise_cons hsorted hk).le
    rw [record_rolledBack hi (hi.below ns hns k hkl)] at hparent
    have := parent_lt hi hns hkl hparent (hold top List.mem_cons_self)
    omega

theorem coverable_of_undone (h : Attained d) (hns : ns < nsMax)
    (hclass : ∀ slot ∈ liveChain d ns, blocking ahd (record d slot) = false)
    (hbare : (verdictOf d ahd ns).bare = false)
    (hroom : (verdictOf d ahd ns).pending = true → roomAt d ahd ns = true)
    (hundone : ∀ slot ∈ liveChain d ns, ofMission ahd (record d slot) = true →
      Undone d (rolledBack d ahd sender w) ns slot) : Coverable d ahd ns := by
  have hi := h.storeInv
  have hi' := storeInv_rolledBack ahd sender w hi
  have hsorted : (standing (record d) ahd (liveChain d ns)).Pairwise (· > ·) :=
    (hi.chain ns hns).pairwise.sublist (List.dropWhile_sublist _)
  have hresult := liveChain_rolledBack ahd sender w hi hns
  cases hstand : standing (record d) ahd (liveChain d ns) with
  | nil => exact .inl (by simp [hstand])
  | cons top rest =>
    have htop : top ∈ liveChain d ns := mem_of_mem_standing (hstand ▸ List.mem_cons_self)
    have hv : verdictOf d ahd ns = verdictAt ahd top (record d top) := by
      rw [verdictOf, verdict, hstand]
    rw [hstand] at hresult hsorted
    cases hm : ofMission ahd (record d top) with
    | false =>
      left
      rcases hresult with ⟨-, hchain⟩ | ⟨-, slot, action, -, hvs, -⟩
      · rw [hstand]
        refine no_effect_left sender w h hns hsorted ?_ ?_ ?_ ?_
        · exact fun s hs => mem_of_mem_standing (hstand ▸ hs)
        · exact fun s hs => hchain ▸ hs
        · exact fun y _ k hk _ _ => hchain ▸ hk
        · exact fun y hy => hundone y (mem_of_mem_standing (hstand ▸ hy))
      · rw [hv, verdictAt, hm] at hvs
        cases hvs
    | true =>
      have hcls := compensatable_of_standing hstand hm (hclass top htop)
      rw [verdictAt, hm, if_pos rfl, hcls] at hv
      cases hx : extractCompensation (record d top) 96 with
      | none =>
        simp only [hx] at hv
        rw [hv] at hbare
        cases hbare
      | some action96 =>
        simp only [hx] at hv
        have hpend : (verdictOf d ahd ns).pending = true := by rw [hv]; rfl
        rcases hresult with ⟨hc, -⟩ | ⟨-, slot, action', free, hvs, hle, hlt, hchain, hrec⟩
        · rw [compensates, hpend, hroom hpend] at hc
          cases hc
        rw [hv, Verdict.compensate.injEq] at hvs
        obtain ⟨rfl, rfl⟩ := hvs
        have hfree : record (rolledBack d ahd sender w) free = bytes (compensationSector ahd
            sender ns top action96 (header (record d top)).derived free
            (count d ns - runOf d ahd ns + 1)) := by
          rw [record, hrec]
        have htlt : top < 2 ^ 32 := (StoreInv.lt_noSlot hi hns top htop).trans (by decide)
        have hrestlt : ∀ s ∈ rest, s < top := fun s hs => List.rel_of_pairwise_cons hsorted hs
        right
        obtain ⟨action, hreg, k, hk, hstatus, hparent, hvalue⟩ :
            ∃ action, registered (record d top) = some action ∧
              ∃ k ∈ liveChain (rolledBack d ahd sender w) ns,
                CompensatedBy (rolledBack d ahd sender w) top action k := by
          have hu := hundone top htop hm
          rwa [Undone, show (header (record d top)).cls = .compensatable from hcls] at hu
        have hkfree : k = free :=
          new_of_parent_top hi hns (fun s hs => mem_of_mem_standing (hstand ▸ hs)) hsorted
            (hchain ▸ hk) hparent
        refine ⟨top, rest, action, hstand, hm, hcls, hreg, ?_, ?_⟩
        · have h96 : action96 = action.take 96 := by
            rw [extractCompensation_eq _ (by decide), hreg] at hx
            exact (Option.some.inj hx).symm
          rw [hkfree, hfree, valueOf_compensationSector, compensationValue_of_le
            (by rw [h96, List.length_take]; exact min_le_left _ _), h96] at hvalue
          have := List.append_cancel_left hvalue
          rw [← this, List.length_take]
          exact min_le_left _ _
        · refine no_effect_left sender w h hns hsorted.of_cons ?_ ?_ ?_ ?_
          · exact fun s hs => mem_of_mem_standing (hstand ▸ List.mem_cons_of_mem _ hs)
          · intro s hs
            rw [hchain]
            exact List.mem_cons_of_mem _ (List.mem_cons_of_mem _ hs)
          · intro y hy k hk hstatus hparent
            have hyt := hrestlt y hy
            rw [hchain] at hk
            rcases List.mem_cons.mp hk with rfl | hk
            · rw [hfree, parent_compensationSector htlt] at hparent
              omega
            · rcases List.mem_cons.mp hk with rfl | hk
              · rw [record_rolledBack hi (hi.below ns hns k htop)] at hstatus
                have := (h.compensation hns htop hstatus).1
                rw [show (header (record d k)).cls = .compensatable from hcls] at this
                cases this
              · exact hk
          · exact fun y hy => hundone y
              (mem_of_mem_standing (hstand ▸ List.mem_cons_of_mem _ hy))

theorem undone_of_coverable (hi : StoreInv d) (hns : ns < nsMax) (hcov : Coverable d ahd ns)
    (hroom : (verdictOf d ahd ns).pending = true → roomAt d ahd ns = true)
    (hs : slot ∈ liveChain d ns) (hm : ofMission ahd (record d slot) = true) :
    Undone d (rolledBack d ahd sender w) ns slot := by
  have hresult := liveChain_rolledBack ahd sender w hi hns
  rw [Undone]
  rcases mem_undoRun_or_standing ahd (record d) hs with hrun | hstand
  · have hret : retractable ahd (record d slot) = true :=
      List.mem_takeWhile_imp (p := fun slot => retractable ahd (record d slot)) hrun
    have hcls : (header (record d slot)).cls = .reversible := by
      rw [retractable, hm, Bool.true_and, beq_iff_eq] at hret
      exact hret
    have hnot := not_mem_standing (hi.chain ns hns).nodup hrun
    rw [hcls]
    rcases hresult with ⟨-, hchain⟩ | ⟨-, _, _, free, -, hle, -, hchain, -⟩
    · rw [hchain]
      exact hnot
    · have := hi.below ns hns slot hs
      rw [hchain, List.mem_cons, not_or]
      exact ⟨by omega, hnot⟩
  · rcases hcov with hfree | ⟨top, rest, action, htop, hmt, hcls, hreg, hlen, hrest⟩
    · rw [hfree slot hstand] at hm
      cases hm
    rw [htop] at hstand
    rcases List.mem_cons.mp hstand with rfl | hstand
    swap
    · rw [hrest slot hstand] at hm
      cases hm
    have hx : extractCompensation (record d slot) 96 = some action := by
      rw [extractCompensation_eq _ (by decide), hreg]
      exact congrArg some (List.take_of_length_le hlen)
    have hcls' : RevClass.ofByte (record d slot offRevclass) = .compensatable := hcls
    have hv : verdictOf d ahd ns = .compensate slot action := by
      rw [verdictOf, verdict, htop]
      simp only [verdictAt, hm, if_true, hcls', hx]
    rw [hcls]
    have hpend : (verdictOf d ahd ns).pending = true := by rw [hv]; rfl
    rcases hresult with ⟨hc, -⟩ | ⟨-, slot', action', free, hvs, -, -, hchain, hrec⟩
    · rw [compensates, hpend, hroom hpend] at hc
      cases hc
    rw [hv, Verdict.compensate.injEq] at hvs
    obtain ⟨rfl, rfl⟩ := hvs
    refine ⟨action, hreg, free, ?_, ?_⟩
    · rw [hchain]
      exact List.mem_cons_self
    · rw [CompensatedBy, record, hrec, valueOf_compensationSector, compensationValue_of_le hlen]
      exact ⟨(header_compensationSector _ _ _ _ _ _ _ _).2.2,
        parent_compensationSector ((StoreInv.lt_noSlot hi hns slot hs).trans (by decide)), rfl⟩

theorem verdict_of_coverable (hcov : Coverable d ahd ns) :
    (verdictOf d ahd ns).blocked = false ∧ (verdictOf d ahd ns).bare = false := by
  rw [verdictOf, verdict]
  rcases hcov with hfree | ⟨top, rest, action, htop, hmt, hcls, hreg, -⟩
  · cases hstand : standing (record d) ahd (liveChain d ns) with
    | nil => exact ⟨rfl, rfl⟩
    | cons top rest =>
      have hm := hfree top (hstand ▸ List.mem_cons_self)
      simp only [verdictAt, hm]
      exact ⟨rfl, rfl⟩
  · have hcls' : RevClass.ofByte (record d top offRevclass) = .compensatable := hcls
    have hx : extractCompensation (record d top) 96 = some (action.take 96) := by
      rw [extractCompensation_eq _ (by decide), hreg]
      rfl
    rw [htop]
    simp only [verdictAt, hmt, if_true, hcls', hx]
    exact ⟨rfl, rfl⟩

/-- For an authorized caller a full forecast is kept by the rollback from the same
state exactly when every namespace is coverable and the log has room for all
pending compensations. -/
theorem forecast_kept_iff {w' : Bytes} (h : Attained d) (hauth : Authorized d ahd caps) :
    (Promised d ahd caps w → Kept d fuel ahd caps sender w') ↔
      (Promised d ahd caps w → (∀ ns < nsMax, Coverable d ahd ns) ∧
        next d + pendingBelow d ahd nsMax ≤ commitSlots) := by
  have hi := h.storeInv
  refine forall_congr' fun hp => ?_
  obtain ⟨h0, hclass⟩ := hp.classes
  have hreq := requestRollback_eq sender fuel w' hi h0 hauth
  constructor
  · rintro ⟨hrefuse, hundone⟩
    obtain ⟨hverdict, hfit⟩ := (refuses_nothing_iff hi h0 hauth).mp hrefuse
    rw [hreq] at hundone
    refine ⟨fun ns hns => ?_, hfit⟩
    exact coverable_of_undone h hns (hclass ns hns) (hverdict ns hns).2
      ((room_iff hi.next_le).mpr hfit ns hns) (hundone ns hns)
  · rintro ⟨hcov, hfit⟩
    refine ⟨?_, fun ns hns slot hs hm => ?_⟩
    · exact (refuses_nothing_iff hi h0 hauth).mpr
        ⟨fun ns hns => verdict_of_coverable (hcov ns hns), hfit⟩
    · rw [hreq]
      exact undone_of_coverable hi hns (hcov ns hns) ((room_iff hi.next_le).mpr hfit ns hns) hs hm

theorem forecast_kept_noted :
    Promised noted 1 4096 (fun _ => 0) ∧ Kept noted 0 1 4096 2 fun _ => 0 := by
  have hp : Promised noted 1 4096 fun _ => 0 := .inl (by decide +kernel)
  have hfree : ∀ ns < nsMax, ∀ slot ∈ standing (record noted) 1 (liveChain noted ns),
      ofMission 1 (record noted slot) = false := by decide +kernel
  have hfit : next noted + pendingBelow noted 1 nsMax ≤ commitSlots := by decide +kernel
  refine ⟨hp, (forecast_kept_iff (w := fun _ => 0) reachable_noted (by decide +kernel)).mpr
    (fun _ => ⟨fun ns hns => .inl (hfree ns hns), hfit⟩) hp⟩

def overtaken : CairnDisk := ((agentCommit "later" 0 0).program.run .clean noted).2

/-- The forecast is full, the rollback succeeds, and the effect still stands. -/
theorem overtaken_not_undone :
    Attained overtaken ∧ Authorized overtaken 1 4096 ∧ next overtaken = 2 ∧
      planConfidence overtaken 1 4096 (fun _ => 0) = some .full ∧
      (header (record overtaken 0)).intent = 1 ∧
      (header (record overtaken 0)).cls = .reversible ∧
      liveChain overtaken 4 = [1, 0] ∧
      liveChain (requestRollback 0 1 4096 2 (fun _ => 0) overtaken) 4 = [1, 0] :=
  ⟨.step _ _ reachable_noted, by decide +kernel, by decide +kernel, by decide +kernel,
    by decide +kernel, by decide +kernel, by decide +kernel, by decide +kernel⟩

end

end Dezh.ForecastHonesty

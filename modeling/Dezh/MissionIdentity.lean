import Dezh.IntentTable
import Dezh.ForecastHonesty

/-!
# Missions across boots

The ledger outlives a boot, the counter of intent ids does not. A history mixes
boots, openings of intents, commits under open intents and every other mutation
of the store, each with its own device failures. Beside the state of the machine
it keeps, for every record, the opening the record was committed under; a
compensation belongs to the opening of the effect it compensates.
-/
namespace Dezh.MissionIdentity
open BlockProgram Program ByteLayout ParentChain CairnFormat CairnService SfarService CairnStore
open CairnOutcomes MissionScan MissionUndo MissionPublish StoreRuns ForecastHonesty IntentTable PackageTasks

variable {m : Mutation}

section
variable {ahd : UInt32} {K : Faults} {d d' : CairnDisk} {caps : ℕ} {w : Bytes}

def planLine (ns slot : ℕ) (b : Bytes) : PlanLine :=
  ⟨ns, slot, header b,
    if RevClass.ofByte (b offRevclass) = .compensatable then extractCompensation b 128 else none⟩

theorem lines_notePlan (ns slot : ℕ) (b : Bytes) (p : Forecast) :
    (notePlan ahd ns slot b p).lines =
      p.lines ++ if ofMission ahd b then [planLine ns slot b] else [] := by
  cases hm : ofMission ahd b with
  | false => simp [notePlan, hm]
  | true =>
    cases hc : RevClass.ofByte (b offRevclass)
    all_goals simp [notePlan, Forecast.note, planLine, hm, hc]

theorem total_notePlan {ns slot : ℕ} {b : Bytes} {p : Forecast} (h : p.total = p.lines.length) :
    (notePlan ahd ns slot b p).total = (notePlan ahd ns slot b p).lines.length := by
  rw [Forecast.total] at h
  cases hm : ofMission ahd b with
  | false =>
    rw [notePlan, hm]
    exact h
  | true =>
    cases hc : RevClass.ofByte (b offRevclass)
    all_goals simp [notePlan, Forecast.note, Forecast.total, hm, hc]
    all_goals omega

theorem lines_scanned {rec : ℕ → Bytes} {chain : ℕ → List ℕ} (ns n : ℕ) (p : Forecast) :
    (scanned (notePlan ahd) rec chain ns n p).lines = p.lines ++ (List.range' ns n).flatMap fun m =>
        ((chain m).filter fun slot => ofMission ahd (rec slot)).map
          fun slot => planLine m slot (rec slot) := by
  have hchain : ∀ m (l : List ℕ) (p : Forecast),
      (l.foldl (fun p slot => notePlan ahd m slot (rec slot) p) p).lines = p.lines ++
        (l.filter fun slot => ofMission ahd (rec slot)).map
          fun slot => planLine m slot (rec slot) := by
    intro m l
    induction l with
    | nil => simp
    | cons slot l ih =>
      intro p
      rw [List.foldl_cons, ih, lines_notePlan]
      cases hm : ofMission ahd (rec slot)
      all_goals simp [hm]
  induction n generalizing ns p with
  | zero => simp [scanned]
  | succ n ih =>
    have h := ih (ns + 1) ((chain ns).foldl (fun p slot => notePlan ahd ns slot (rec slot) p) p)
    simp only [scanned] at h ⊢
    rw [List.range'_succ, List.foldl_cons, h, hchain, List.flatMap_cons, List.append_assoc]

theorem total_scanned {rec : ℕ → Bytes} {chain : ℕ → List ℕ} (ns n : ℕ) {p : Forecast}
    (h : p.total = p.lines.length) :
    (scanned (notePlan ahd) rec chain ns n p).total =
      (scanned (notePlan ahd) rec chain ns n p).lines.length := by
  have hchain : ∀ m (l : List ℕ) (p : Forecast), p.total = p.lines.length →
      (l.foldl (fun p slot => notePlan ahd m slot (rec slot) p) p).total =
        (l.foldl (fun p slot => notePlan ahd m slot (rec slot) p) p).lines.length := by
    intro m l
    induction l with
    | nil => exact fun _ hp => hp
    | cons slot l ih => exact fun p hp => ih _ (total_notePlan hp)
  induction n generalizing ns p with
  | zero => exact h
  | succ n ih =>
    have := ih (ns + 1) (hchain ns (chain ns) p h)
    simpa only [scanned, List.range'_succ, List.foldl_cons] using this

theorem sfarPlan_lines {a : Answer PlanReply} (h : (sfarPlan ahd caps w).Exec K d a d') :
    a.value.forecast.total = a.value.forecast.lines.length ∧
      (a.value.forecast.lines = [] ∧
          (K.Possible ∨ ahd = 0 ∨ ∃ ns < nsMax, holdsNs caps ns = false) ∨
        ∃ k : ℕ → ℕ, (∀ m < nsMax, K.reads ∨ (liveChain d m).length ≤ k m) ∧
          a.value.forecast.lines = (List.range' 0 nsMax).flatMap fun m =>
            (((liveChain d m).take (k m)).filter fun slot => ofMission ahd (record d slot)).map
              fun slot => planLine m slot (record d slot)) := by
  rw [sfarPlan] at h
  by_cases h0 : ahd = 0
  · rw [if_pos h0] at h
    rw [h.1]
    exact ⟨rfl, .inl ⟨rfl, .inr (.inl h0)⟩⟩
  rw [if_neg h0] at h
  rcases exec_withSuper h with hk | ⟨⟨r, rfl⟩, hK, -⟩
  swap
  · exact ⟨rfl, .inl ⟨rfl, .inl hK⟩⟩
  obtain ⟨t, d2, ht, hk⟩ := exec_bind.mp hk
  obtain ⟨hd, -⟩ := scanFrom_cases (local_noteTouched ahd) ht
  subst d2
  split at hk
  · next hden =>
      rw [hk.1]
      refine ⟨rfl, .inl ⟨rfl, .inr (.inr ?_)⟩⟩
      rw [denied_iff, ← Bool.not_eq_true, sfarAuthorized_iff] at hden
      by_contra hall
      refine hden fun ns hns _ => ?_
      by_contra hno
      exact hall ⟨ns, hns, Bool.not_eq_true _ ▸ hno⟩
  obtain ⟨q, d3, hq, hk⟩ := exec_bind.mp hk
  obtain ⟨-, k, hlen, hval⟩ := scanFrom_cases (local_notePlan ahd) hq
  have hrec : record (settle d) = record d := funext (record_settle d)
  rw [hrec] at hval hlen
  have hchain : ∀ m < nsMax, follow commitLinks (record d) commitSlots
      (heads (load w (superOf d)) m) = liveChain d m := fun m hm => by rw [heads_load hm]; rfl
  rw [@scanned_congr _ _ _ _ (fun m => (liveChain d m).take (k m)) _ _
    fun m _ hm => by rw [hchain m (by omega)]] at hval
  have htot : q.value.total = q.value.lines.length := by
    rw [hval]
    exact total_scanned 0 nsMax rfl
  have hlines := congrArg Forecast.lines hval
  rw [lines_scanned] at hlines
  refine ⟨?_, .inr ⟨k, fun m hm => hchain m hm ▸ hlen m, ?_⟩⟩
  · split at hk
    · rw [hk.1]
      rfl
    · rw [hk.1]
      exact htot
  · split at hk
    · next hzero =>
        rw [hk.1]
        rw [htot, List.length_eq_zero_iff] at hzero
        rw [hzero] at hlines
        exact hlines
    · rw [hk.1]
      exact hlines

end

/-- One opening of an intent: the boot it happened in and the id handed out. -/
structure Opening where
  boot : ℕ
  id : UInt16
  deriving DecidableEq, Repr

/-- The machine with its store, and for every record slot the opening that the
record in it was committed under. -/
structure World where
  disk : CairnDisk
  ahds : Ahds
  boots : ℕ
  owner : ℕ → Option Opening
  inv : StoreInv disk
  valid : ahds.Valid

variable {v : World}

inductive Event where
  | boot
  | openAhd (kind : String) (lease : UInt32)
  | intentRevoke (id : UInt16)
  | leaseUse (id : UInt16)
  | store (m : Mutation) (f : Schedule)

def admitted (a : Ahds) : Mutation → Prop
  | .commit _ _ _ _ _ intent _ _ =>
    intent = 0 ∨ intent.toNat < 2 ^ 16 ∧ (a.ahdSlotIndex intent.toUInt16).isSome = true
  | _ => True

instance (a : Ahds) (m : Mutation) : Decidable (admitted a m) := by
  cases m
  all_goals
    unfold admitted
    infer_instance

namespace World

def credit (v : World) (d' : CairnDisk) (slot : ℕ) : Mutation → Option Opening
  | .commit _ _ _ _ _ intent _ _ =>
    if intent = 0 then none else some ⟨v.boots, intent.toUInt16⟩
  | .sfarRollback _ _ _ _ _ => v.owner (header (record d' slot)).parent
  | _ => none

def mutate (v : World) (m : Mutation) (f : Schedule) : World :=
  { v with
    disk := (m.program.run f v.disk).2
    owner := fun slot =>
      if slot < next v.disk then v.owner slot else v.credit (m.program.run f v.disk).2 slot m
    inv := Mutation.storeInv v.inv (exec_run _ (Schedule.Within.all f)) }

def setAhds (v : World) (a : Ahds) (h : a.Valid) : World := { v with ahds := a, valid := h }

def step (v : World) : Event → World
  | .boot => { v with ahds := .boot, boots := v.boots + 1, valid := Ahds.valid_boot }
  | .openAhd kind lease => v.setAhds (v.ahds.opened kind lease) (v.valid.opened kind lease)
  | .intentRevoke id =>
    v.setAhds (v.ahds.intentRevoke id) ((Ahds.sameIds_intentRevoke _ _).valid v.valid)
  | .leaseUse id => v.setAhds (v.ahds.leased id) ((Ahds.sameIds_leased _ _).valid v.valid)
  | .store m f => if admitted v.ahds m then v.mutate m f else v

theorem step_store {v : World} (f : Schedule) (h : admitted v.ahds m) :
    v.step (.store m f) = v.mutate m f := if_pos h

theorem step_refused {v : World} (f : Schedule) (h : ¬ admitted v.ahds m) :
    v.step (.store m f) = v := if_neg h

def start (s : { d : CairnDisk // StoreInv d }) : World :=
  ⟨s.1, .boot, 0, fun _ => none, s.2, Ahds.valid_boot⟩

def states (v : World) : List Event → List World
  | [] => [v]
  | e :: history => v :: (v.step e).states history

end World

/-- What a rollback of an intent does to a live chain: every retracted record and
every compensated effect belongs to the opening. -/
def Within (owner : ℕ → Option Opening) (o : Opening) (d d' : CairnDisk) (ns : ℕ) : Prop :=
  (∀ slot ∈ liveChain d ns, slot ∉ liveChain d' ns → owner slot = some o) ∧
    ∀ slot ∈ liveChain d' ns, slot ∉ liveChain d ns →
      owner (header (record d' slot)).parent = some o

/-- For every intent opened since the last boot, the forecast counts and the
rollback retracts or compensates effects of that very opening only, whoever asks
and whatever fails. -/
structure Faithful (v : World) : Prop where
  plan : ∀ id, v.ahds.IsOpen id → ∀ caps w f,
    ∀ line ∈ ((sfarPlan id.toUInt32 caps w).run f v.disk).1.value.forecast.lines,
      v.owner line.slot = some ⟨v.boots, id⟩
  rollback : ∀ id, v.ahds.IsOpen id → ∀ fuel caps sender w f, ∀ ns < nsMax,
    Within v.owner ⟨v.boots, id⟩ v.disk
      ((sfarRollback fuel id.toUInt32 caps sender w).run f v.disk).2 ns

def Fresh (v : World) : Event → Prop
  | .openAhd kind lease => (v.ahds.openAhd kind lease).isSome = true →
      ∀ ns < nsMax, ∀ slot ∈ liveChain v.disk ns,
        (header (record v.disk slot)).intent ≠ v.ahds.nextId.toNat
  | _ => True

def AllFresh (v : World) : List Event → Prop
  | [] => True
  | e :: history => Fresh v e ∧ AllFresh (v.step e) history

/-- Every live record under the id of an open intent belongs to its opening. -/
def Owned (v : World) : Prop :=
  ∀ id, v.ahds.IsOpen id → ∀ ns < nsMax, ∀ slot ∈ liveChain v.disk ns,
    (header (record v.disk slot)).intent = id.toNat → v.owner slot = some ⟨v.boots, id⟩

theorem ofMission_iff {id : UInt16} {b : Bytes} :
    ofMission id.toUInt32 b = true ↔ (header b).intent = id.toNat := by
  rw [ofMission, beq_iff_eq, UInt16.toNat_toUInt32]
  rfl

def allCairnNsCaps : ℕ := (List.range nsMax).foldl (fun caps ns => caps ||| taskNsCap ns) 0

theorem holdsNs_allCairnNsCaps : ∀ ns < nsMax, holdsNs allCairnNsCaps ns = true := by decide

section
variable {id : UInt16}

theorem take_undoRun (rec : ℕ → Bytes) (ahd : UInt32) (l : List ℕ) :
    l.take (undoRun rec ahd l).length = undoRun rec ahd l := by
  have h : (undoRun rec ahd l ++ standing rec ahd l).take (undoRun rec ahd l).length =
      undoRun rec ahd l := List.take_left
  rwa [undoRun, standing, List.takeWhile_append_dropWhile] at h

theorem Owned.plan (h : Owned v) (ho : v.ahds.IsOpen id) (caps : ℕ) (w : Bytes) (f : Schedule) :
    ∀ line ∈ ((sfarPlan id.toUInt32 caps w).run f v.disk).1.value.forecast.lines,
      v.owner line.slot = some ⟨v.boots, id⟩ := by
  intro line hline
  have hx := exec_run (d := v.disk) (sfarPlan id.toUInt32 caps w) (Schedule.Within.all f)
  rcases (sfarPlan_lines hx).2 with ⟨hnil, -⟩ | ⟨k, -, hlines⟩
  · rw [hnil] at hline
    cases hline
  · rw [hlines, List.mem_flatMap] at hline
    obtain ⟨m, hm, hline⟩ := hline
    obtain ⟨slot, hslot, rfl⟩ := List.mem_map.mp hline
    rw [List.mem_filter, ofMission_iff] at hslot
    rw [List.mem_range'_1] at hm
    exact h id ho m (by omega) slot (List.mem_of_mem_take hslot.1) hslot.2

theorem Owned.rollback (h : Owned v) (ho : v.ahds.IsOpen id) (fuel caps sender : ℕ) (w : Bytes)
    (f : Schedule) {ns : ℕ} (hns : ns < nsMax) :
    Within v.owner ⟨v.boots, id⟩ v.disk
      ((sfarRollback fuel id.toUInt32 caps sender w).run f v.disk).2 ns := by
  have hx := exec_run (d := v.disk) (sfarRollback fuel id.toUInt32 caps sender w)
    (Schedule.Within.all f)
  have hrun : ∀ slot ∈ undoRun (record v.disk) id.toUInt32 (liveChain v.disk ns),
      v.owner slot = some ⟨v.boots, id⟩ := by
    intro slot hs
    have hret := List.mem_takeWhile_imp hs
    rw [retractable, Bool.and_eq_true, ofMission_iff] at hret
    exact h id ho ns hns slot (List.takeWhile_subset _ hs) hret.1
  rcases sfarRollback_liveChain v.inv hns hx with ⟨k, hk, hchain⟩ |
    ⟨effect, action, free, hv, hle, hchain, hsector⟩
  · rw [Within, hchain]
    constructor
    · intro slot hs hnot
      apply hrun
      have hmem : slot ∈ (liveChain v.disk ns).take k := by
        rw [← List.take_append_drop k (liveChain v.disk ns)] at hs
        exact (List.mem_append.mp hs).resolve_right hnot
      rw [← take_undoRun (record v.disk)]
      exact List.take_subset_take_left _ hk hmem
    · intro slot hs hnot
      exact absurd (List.mem_of_mem_drop hs) hnot
  · rw [Within, hchain]
    constructor
    · intro slot hs hnot
      rcases mem_undoRun_or_standing id.toUInt32 (record v.disk) hs with hs | hs
      · exact hrun slot hs
      · exact absurd (List.mem_cons_of_mem _ hs) hnot
    · intro slot hs hnot
      rcases List.mem_cons.mp hs with rfl | hs
      · obtain ⟨⟨rest, hrest⟩, hmission, -⟩ := of_verdict_compensate hv
        have hmem := mem_of_mem_standing (hrest ▸ List.mem_cons_self)
        have hlt := StoreInv.lt_noSlot v.inv hns effect hmem
        rw [record, hsector, parent_compensationSector (hlt.trans (by decide))]
        exact h id ho ns hns effect hmem (ofMission_iff.mp hmission)
      · exact absurd (mem_of_mem_standing hs) hnot

theorem Faithful.owned (h : Faithful v) : Owned v := by
  intro id ho ns hns slot hs hint
  have hpos := (v.valid.isOpen ho).1
  have hx := exec_eval Faults.none (sfarPlan id.toUInt32 allCairnNsCaps fun _ => 0) v.disk
  rcases (sfarPlan_lines hx).2 with ⟨-, hK | h0 | ⟨m, hm, hno⟩⟩ | ⟨k, hk, hlines⟩
  · exact absurd hK Faults.not_possible_none
  · have := congrArg UInt32.toNat h0
    rw [UInt16.toNat_toUInt32] at this
    change id.toNat = 0 at this
    omega
  · rw [holdsNs_allCairnNsCaps m hm] at hno
    cases hno
  · refine h.plan id ho allCairnNsCaps (fun _ => 0) .clean (planLine ns slot (record v.disk slot)) ?_
    rw [run_clean, hlines, List.mem_flatMap]
    refine ⟨ns, by rw [List.mem_range'_1]; omega, List.mem_map.mpr ⟨slot, ?_, rfl⟩⟩
    rw [List.mem_filter, ofMission_iff]
    rw [List.take_of_length_le ((hk ns hns).resolve_left fun hr => hr)]
    exact ⟨hs, hint⟩

theorem faithful_iff : Faithful v ↔ Owned v := by
  constructor
  · exact Faithful.owned
  · intro h
    constructor
    · exact fun id ho caps w f => h.plan ho caps w f
    · exact fun id ho fuel caps sender w f ns hns => h.rollback ho fuel caps sender w f hns

end

section
variable {e : Event}

/-- Every opening a record belongs to has happened. -/
def Past (v : World) : Prop :=
  ∀ slot o, v.owner slot = some o →
    o.boot < v.boots ∨ o.boot = v.boots ∧ o.id.toNat < v.ahds.nextId.toNat

theorem Past.setAhds {a : Ahds} {ha : a.Valid} (h : Past v)
    (hnext : v.ahds.nextId.toNat ≤ a.nextId.toNat) : Past (v.setAhds a ha) := by
  intro slot o ho
  have := h slot o ho
  change o.boot < v.boots ∨ o.boot = v.boots ∧ o.id.toNat < a.nextId.toNat
  omega

theorem isOpen_of_admitted {input w : Bytes} {ns : Fin nsMax} {len sender : ℕ}
    {intent derived : UInt32} {revClass : UInt8} {a : Ahds} (h0 : intent ≠ 0)
    (h : admitted a (.commit input w ns len sender intent derived revClass)) :
    a.IsOpen intent.toUInt16 ∧ intent.toUInt16.toNat = intent.toNat := by
  obtain ⟨hlt, hsome⟩ := h.resolve_left h0
  refine ⟨Ahds.ahdSlotIndex_isSome.mp hsome, ?_⟩
  rw [UInt32.toNat_toUInt16]
  exact Nat.mod_eq_of_lt hlt

theorem Past.mutate (h : Past v) (f : Schedule) (hm : admitted v.ahds m) : Past (v.mutate m f) := by
  intro slot o ho
  simp only [World.mutate] at ho ⊢
  split at ho
  · exact h slot o ho
  · cases m with
    | commit input w ns len sender intent derived revClass =>
      rw [World.credit] at ho
      split at ho
      · cases ho
      · next h0 =>
          cases ho
          exact .inr ⟨rfl, (v.valid.isOpen (isOpen_of_admitted h0 hm).1).2⟩
    | sfarRollback => exact h _ o ho
    | rollback | setRevoked => cases ho

theorem Past.step (h : Past v) (e : Event) : Past (v.step e) := by
  cases e with
  | boot =>
    intro slot o ho
    have := h slot o ho
    left
    change o.boot < v.boots + 1
    omega
  | openAhd kind lease =>
    apply h.setAhds
    rcases v.ahds.opened_cases kind lease with ⟨-, ha⟩ | ⟨id, k, ha⟩
    · rw [ha]
    · obtain ⟨-, -, -, hn, -⟩ := Ahds.openAhd_eq ha
      rw [hn, v.valid.nextId_succ]
      exact Nat.le_succ _
  | intentRevoke id => exact h.setAhds (by rw [(Ahds.sameIds_intentRevoke _ _).next])
  | leaseUse id => exact h.setAhds (by rw [(Ahds.sameIds_leased _ _).next])
  | store m f =>
    by_cases hm : admitted v.ahds m
    · rw [World.step_store f hm]
      exact h.mutate f hm
    · rw [World.step_refused f hm]
      exact h

theorem Owned.of_isOpen {a : Ahds} {ha : a.Valid} (h : Owned v)
    (hopen : ∀ id, a.IsOpen id → v.ahds.IsOpen id) : Owned (v.setAhds a ha) :=
  fun id ho => h id (hopen id ho)

theorem Owned.mutate (h : Owned v) (f : Schedule) (hm : admitted v.ahds m) :
    Owned (v.mutate m f) := by
  intro id ho ns hns slot hs hint
  have hx := exec_run (d := v.disk) m.program (Schedule.Within.all f)
  have hext := Mutation.extends hx
  change slot ∈ liveChain (m.program.run f v.disk).2 ns at hs
  change (header (record (m.program.run f v.disk).2 slot)).intent = id.toNat at hint
  simp only [World.mutate]
  rcases Mutation.live_cases v.inv hx hns hs with hold | hnew
  · have hlt := v.inv.below ns hns slot hold
    rw [if_pos hlt]
    refine h id ho ns hns slot hold ?_
    rw [← hint, record, record, hext.slots slot hlt]
  · cases m with
    | commit input w n len sender intent derived revClass =>
      obtain ⟨rfl, -, hintent⟩ := hnew
      have hpos := (v.valid.isOpen ho).1
      have hid : id.toNat = intent.toNat := hint.symm.trans hintent
      have h0 : intent ≠ 0 := by
        rintro rfl
        change id.toNat = 0 at hid
        omega
      rw [if_neg (lt_irrefl _), World.credit, if_neg h0]
      have heq : intent.toUInt16 = id := by
        rw [← UInt16.toNat_inj, (isOpen_of_admitted h0 hm).2, hid]
      rw [heq]
    | sfarRollback w fuel ahd caps sender =>
      obtain ⟨hle, -, hintent, effect, hmem, hparent, heff⟩ := hnew
      rw [if_neg (not_lt.mpr hle), World.credit, hparent]
      exact h id ho ns hns effect hmem (heff.trans (hintent.symm.trans hint))
    | rollback | setRevoked => exact hnew.elim

theorem Owned.step (h : Owned v) (hf : Fresh v e) : Owned (v.step e) := by
  cases e with
  | boot => exact fun id ho => absurd ho Ahds.not_isOpen_boot
  | openAhd kind lease =>
    rcases v.ahds.opened_cases kind lease with ⟨-, ha⟩ | ⟨id, k, ha⟩
    · exact h.of_isOpen fun j ho => by rwa [ha] at ho
    · have hfresh := hf (Option.isSome_iff_exists.mpr ⟨_, ha⟩)
      intro j ho ns hns slot hs hint
      rcases Ahds.isOpen_of_openAhd ha ho with rfl | hold
      · rw [(Ahds.openAhd_eq ha).1] at hint
        exact absurd hint (hfresh ns hns slot hs)
      · exact h j hold ns hns slot hs hint
  | intentRevoke id => exact h.of_isOpen fun j => (Ahds.sameIds_intentRevoke _ _).isOpen.mp
  | leaseUse id => exact h.of_isOpen fun j => (Ahds.sameIds_leased _ _).isOpen.mp
  | store m f =>
    by_cases hm : admitted v.ahds m
    · rw [World.step_store f hm]
      exact h.mutate f hm
    · rw [World.step_refused f hm]
      exact h

theorem fresh_of_owned (hp : Past v) (h : Owned (v.step e)) : Fresh v e := by
  cases e with
  | openAhd kind lease =>
    intro hsome ns hns slot hs hint
    rcases v.ahds.opened_cases kind lease with ⟨hnone, -⟩ | ⟨id, k, ha⟩
    · rw [hnone] at hsome
      cases hsome
    · have hid := (Ahds.openAhd_eq ha).1
      have howner := h id (Ahds.isOpen_openAhd ha) ns hns slot hs (by rw [hid]; exact hint)
      have hpast := hp slot ⟨v.boots, id⟩ howner
      rw [hid] at hpast
      dsimp only at hpast
      omega
  | boot | intentRevoke | leaseUse | store => exact trivial

theorem owned_states_iff (hp : Past v) (ho : Owned v) (history : List Event) :
    (∀ u ∈ v.states history, Owned u) ↔ AllFresh v history := by
  induction history generalizing v with
  | nil =>
    rw [World.states, List.forall_mem_singleton]
    exact iff_of_true ho trivial
  | cons e history ih =>
    rw [World.states, List.forall_mem_cons, AllFresh]
    constructor
    · rintro ⟨-, h⟩
      have hnext : Owned (v.step e) := by
        apply h
        cases history
        all_goals exact List.mem_cons_self
      exact ⟨fresh_of_owned hp hnext, (ih (hp.step e) hnext).mp h⟩
    · intro h
      exact ⟨ho, (ih (hp.step e) (ho.step h.1)).mpr h.2⟩

/-- Over every history, forecasts and rollbacks of open intents stay within their
own opening exactly when every intent is opened under an id that no live record
carries. -/
theorem missions_distinct_iff (s : { d : CairnDisk // StoreInv d }) (history : List Event) :
    (∀ v ∈ (World.start s).states history, Faithful v) ↔ AllFresh (World.start s) history := by
  have hpast : Past (World.start s) := fun slot o ho => by cases ho
  have howned : Owned (World.start s) := fun id ho => absurd ho Ahds.not_isOpen_boot
  rw [← owned_states_iff hpast howned]
  exact forall₂_congr fun v _ => faithful_iff

/-- An intent is opened, a value is committed under it, the machine boots again
and a second intent is opened. -/
def twoBoots : List Event :=
  [.openAhd "writer" ahdUnlimited, .store (agentCommit "a" 1 0) .clean, .boot,
    .openAhd "writer" ahdUnlimited]

def blankStore : { d : CairnDisk // StoreInv d } := ⟨blank, storeInv_fresh (by decide)⟩

def secondBoot : World := twoBoots.foldl World.step (World.start blankStore)

/-- The intent opened in the second boot counts and retracts the value that was
committed under an intent of the first. -/
theorem second_boot_takes_first :
    secondBoot ∈ (World.start blankStore).states twoBoots ∧
      secondBoot.boots = 1 ∧ secondBoot.ahds.IsOpen 1 ∧ secondBoot.owner 0 = some ⟨0, 1⟩ ∧
      ((sfarPlan 1 allCairnNsCaps fun _ => 0).run .clean
        secondBoot.disk).1.value.forecast.lines.map PlanLine.slot = [0] ∧
      liveChain secondBoot.disk 4 = [0] ∧
      liveChain ((sfarRollback (commitSlots + 1) 1 allCairnNsCaps 0 fun _ => 0).run .clean
        secondBoot.disk).2 4 = [] ∧
      ¬ ∀ v ∈ (World.start blankStore).states twoBoots, Faithful v := by
  have hmem : secondBoot ∈ (World.start blankStore).states twoBoots := by
    simp only [twoBoots, World.states, secondBoot, List.foldl_cons, List.foldl_nil, List.mem_cons,
      true_or, or_true]
  have hopen : secondBoot.ahds.IsOpen 1 := by decide +kernel
  have howner : secondBoot.owner 0 = some ⟨0, 1⟩ := by decide +kernel
  have hboots : secondBoot.boots = 1 := by decide +kernel
  have hlines : ((sfarPlan 1 allCairnNsCaps fun _ => 0).run .clean
      secondBoot.disk).1.value.forecast.lines.map PlanLine.slot = [0] := by decide +kernel
  refine ⟨hmem, hboots, hopen, howner, hlines, by decide +kernel, by decide +kernel, fun h => ?_⟩
  obtain ⟨line, hline, hslot⟩ := List.mem_map.mp (hlines ▸ List.mem_singleton_self 0)
  have hclaimed := (h _ hmem).plan 1 hopen allCairnNsCaps (fun _ => 0) .clean line hline
  rw [hslot, howner, hboots] at hclaimed
  cases hclaimed

end

end Dezh.MissionIdentity

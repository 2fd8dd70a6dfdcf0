import Dezh.RecordEncoders

/-!
# What a mission rollback does to one chain

The walk of the rollback from a head retracts the run of the mission's newest
reversible effects. What it meets below that run decides how the namespace ends:
nothing more of the mission, a compensatable effect with a registered action, a
compensatable effect without one, or an effect that cannot be undone.
-/
namespace Dezh.MissionUndo
open BlockProgram Program ByteLayout ParentChain CairnFormat CairnService SfarService CairnStore
open CairnOutcomes RecordEncoders

variable {K : Faults} {d d' : CairnDisk} {ahd : UInt32} {sender ns fuel cur : ℕ} {s : Staging}
  {w : Bytes} {a : Walk}

inductive Verdict where
  | clear
  | compensate (slot : ℕ) (action : List UInt8)
  | unregistered (slot : ℕ)
  | refused (slot : ℕ) (cls : RevClass)
  deriving DecidableEq, Repr

variable {v : Verdict}

namespace Verdict

def pending : Verdict → Bool
  | .compensate _ _ => true
  | _ => false

def blocked : Verdict → Bool
  | .refused _ _ => true
  | _ => false

def bare : Verdict → Bool
  | .unregistered _ => true
  | _ => false

end Verdict

def retractable (ahd : UInt32) (b : Bytes) : Bool :=
  ofMission ahd b && RevClass.ofByte (b offRevclass) == .reversible

def undoRun (rec : ℕ → Bytes) (ahd : UInt32) (l : List ℕ) : List ℕ :=
  l.takeWhile fun slot => retractable ahd (rec slot)

def standing (rec : ℕ → Bytes) (ahd : UInt32) (l : List ℕ) : List ℕ :=
  l.dropWhile fun slot => retractable ahd (rec slot)

def verdictAt (ahd : UInt32) (slot : ℕ) (b : Bytes) : Verdict :=
  if ofMission ahd b then
    match RevClass.ofByte (b offRevclass) with
    | .compensatable =>
      match extractCompensation b 96 with
      | some action => .compensate slot action
      | none => .unregistered slot
    | .reversible => .clear
    | cls => .refused slot cls
  else .clear

def verdict (rec : ℕ → Bytes) (ahd : UInt32) (l : List ℕ) : Verdict :=
  match standing rec ahd l with
  | [] => .clear
  | slot :: _ => verdictAt ahd slot (rec slot)

def compensationHeader (ahd : UInt32) (sender ns slot : ℕ) (action : List UInt8)
    (derived free generation : ℕ) : CommitHeader where
  slot := free
  parent := slot
  ns := ns
  hash := (fnv64 (ofList (compensationValue action)) 0
    (min (compensationValue action).length (valueMax - 1))).toNat
  actor := sender
  flags := 1
  len := min (compensationValue action).length (valueMax - 1)
  intent := ahd.toNat
  derived := derived
  revClass := RevClass.reversible.code
  status := statusCompensation
  generation := generation

def compensationSector (ahd : UInt32) (sender ns slot : ℕ) (action : List UInt8)
    (derived free generation : ℕ) : Sector :=
  commitSector (compensationHeader ahd sender ns slot action derived free generation)
    (ofList (compensationValue action)) (min (compensationValue action).length (valueMax - 1))

theorem take_rawCommit (w : Bytes) (ahd : UInt32) (sender ns slot : ℕ) (action : List UInt8)
    (derived free generation : ℕ) :
    take sectorSize (rawCommit w free slot ns (compensationValue action) sender ahd.toNat derived
      statusCompensation generation) =
      compensationSector ahd sender ns slot action derived free generation := by
  rw [compensationSector, take_rawCommit_eq]
  rfl

def retreat (s : Staging) (ns k head : ℕ) : Staging :=
  { s with
    newHead := Function.update s.newHead ns head
    undone := Function.update s.undone ns (s.undone ns + k) }

def conclude (s : Staging) (ns : ℕ) : Verdict → Staging
  | .clear => s
  | .compensate slot action =>
    if slotAvailable s.nextFree then s.compensate ns slot action else s.refuseComp .logFull
  | .unregistered slot => s.refuseComp (.unregistered ns slot)
  | .refused slot cls => s.refuseIrrev (.refused ns slot cls)

def concludeDisk (d : CairnDisk) (ahd : UInt32) (sender ns : ℕ) (s : Staging) :
    Verdict → CairnDisk
  | .compensate slot action =>
    if slotAvailable s.nextFree then
      Function.update d (commitFirstSector + s.nextFree)
        (compensationSector ahd sender ns slot action (header (record d slot)).derived s.nextFree
          (s.generation ns))
    else d
  | _ => d

theorem retreat_zero {s : Staging} {ns head : ℕ} (h : s.newHead ns = head) :
    retreat s ns 0 head = s := by
  simp only [retreat, ← h, Function.update_eq_self, Nat.add_zero]

theorem retract_retreat {s : Staging} {ns parent k head : ℕ} :
    retreat (s.retract ns parent) ns k head = retreat s ns (k + 1) head := by
  simp only [retreat, Staging.retract, Function.update_idem, Function.update_self,
    Nat.add_assoc, Nat.add_comm 1 k]

def visit (ahd : UInt32) (sender ns fuel cur : ℕ) (s : Staging) (w : Bytes) : Program Sector Walk :=
  if ofMission ahd w then
    match RevClass.ofByte (w offRevclass) with
    | .compensatable => compensateAt ahd sender ns cur s w
    | .reversible =>
      rollbackChain ahd sender ns fuel (u32At w offParent) (s.retract ns (u32At w offParent)) w
    | cls => pure (.finished (s.refuseIrrev (.refused ns cur cls)) w)
  else pure (.finished s w)

theorem exec_rollbackChain_succ (hc : cur ≠ noSlot) :
    (rollbackChain ahd sender ns (fuel + 1) cur s w).Exec K d a d' ↔
      isCommit (record d cur) = true ∧
          (visit ahd sender ns fuel cur s (load w (d (commitFirstSector + cur)))).Exec K d a d' ∨
        isCommit (record d cur) = false ∧
          a = .finished s (load w (d (commitFirstSector + cur))) ∧ d' = d ∨
        K.reads ∧ a = .finished s (reported w false) ∧ d' = d := by
  rw [rollbackChain, if_neg hc, exec_bind]
  constructor
  · rintro ⟨r, d1, hr, h⟩
    obtain ⟨hd, hr'⟩ := exec_rw_read.mp hr
    subst d1
    rcases hr' with rfl | ⟨hK, rfl⟩
    · simp only [Bool.true_and, isCommit_window] at h
      cases hm : isCommit (record d cur) with
      | true =>
        simp only [hm, if_true] at h
        exact .inl ⟨rfl, h⟩
      | false =>
        simp only [hm, Bool.false_eq_true, if_false] at h
        exact .inr (.inl ⟨rfl, h⟩)
    · exact .inr (.inr ⟨hK, h⟩)
  · rintro (⟨hm, h⟩ | ⟨hm, h⟩ | ⟨hK, h⟩)
    · refine ⟨_, d, exec_rw_read.mpr ⟨rfl, .inl rfl⟩, ?_⟩
      simp only [Bool.true_and, isCommit_window, hm, if_true]
      exact h
    · refine ⟨_, d, exec_rw_read.mpr ⟨rfl, .inl rfl⟩, ?_⟩
      simp only [Bool.true_and, isCommit_window, hm, Bool.false_eq_true, if_false]
      exact h
    · exact ⟨_, d, exec_rw_read.mpr ⟨rfl, .inr ⟨hK, rfl⟩⟩, h⟩

theorem compensateAt_cases {b : Bytes} (hx : extractCompensation w 96 = extractCompensation b 96)
    (hd : u32At w offDerived = (header b).derived)
    (h : (compensateAt ahd sender ns cur s w).Exec K d a d') :
    (∃ action w', extractCompensation b 96 = some action ∧ slotAvailable s.nextFree = true ∧
      ∃ f, f = compensationSector ahd sender ns cur action (header b).derived s.nextFree
        (s.generation ns) ∧
      (a = .finished (s.compensate ns cur action) w' ∧
          d' = Function.update d (commitFirstSector + s.nextFree) f ∨
        a = .aborted w' ∧ (K.lost ∧ d' = d ∨
          K.landed ∧ d' = Function.update d (commitFirstSector + s.nextFree) f))) ∨
      (∃ action, extractCompensation b 96 = some action ∧ slotAvailable s.nextFree = false ∧
        a = .finished (s.refuseComp .logFull) w ∧ d' = d) ∨ extractCompensation b 96 = none ∧
        a = .finished (s.refuseComp (.unregistered ns cur)) w ∧ d' = d := by
  rw [compensateAt, hx] at h
  cases hc : extractCompensation b 96 with
  | none =>
    rw [hc] at h
    exact .inr (.inr ⟨rfl, h⟩)
  | some action =>
    rw [hc] at h
    cases ha : slotAvailable s.nextFree with
    | false =>
      simp only [ha, Bool.false_eq_true, if_false] at h
      exact .inr (.inl ⟨action, rfl, rfl, h⟩)
    | true =>
      simp only [ha, if_true] at h
      obtain ⟨r, d1, hr, h⟩ := exec_bind.mp h
      rw [appendCommitRaw, exec_rw_write, take_rawCommit, hd] at hr
      rcases hr with ⟨rfl, rfl⟩ | ⟨rfl, hl⟩
      · obtain ⟨rfl, rfl⟩ := h
        exact .inl ⟨action, _, rfl, rfl, _, rfl, .inl ⟨rfl, rfl⟩⟩
      · obtain ⟨rfl, rfl⟩ := h
        exact .inl ⟨action, _, rfl, rfl, _, rfl, .inr ⟨rfl, hl⟩⟩

/-- The walk has ended with a verdict: it is recorded, or its compensation could
not be written. -/
def Concluded (K : Faults) (d : CairnDisk) (ahd : UInt32) (sender ns : ℕ) (s : Staging)
    (v : Verdict) (a : Walk) (d' : CairnDisk) : Prop :=
  (∃ w', a = .finished (conclude s ns v) w') ∧ d' = concludeDisk d ahd sender ns s v ∨
    (∃ w', a = .aborted w') ∧ (∃ slot action, v = .compensate slot action) ∧
      slotAvailable s.nextFree = true ∧
      (K.lost ∧ d' = d ∨ K.landed ∧ d' = concludeDisk d ahd sender ns s v)

theorem visit_cases
    (h : (visit ahd sender ns fuel cur s (load w (d (commitFirstSector + cur)))).Exec K d a d') :
    retractable ahd (record d cur) = true ∧
        (∃ w', (rollbackChain ahd sender ns fuel (header (record d cur)).parent
          (s.retract ns (header (record d cur)).parent) w').Exec K d a d') ∨
      retractable ahd (record d cur) = false ∧
        Concluded K d ahd sender ns s (verdictAt ahd cur (record d cur)) a d' := by
  simp only [visit, ofMission_window, revClass_window, parent_window] at h
  simp only [retractable, verdictAt]
  cases hm : ofMission ahd (record d cur) with
  | false =>
    simp only [hm, Bool.false_eq_true, if_false] at h
    obtain ⟨rfl, rfl⟩ := h
    exact .inr ⟨rfl, .inl ⟨⟨_, rfl⟩, rfl⟩⟩
  | true =>
    simp only [hm, if_true] at h
    cases hr : RevClass.ofByte (record d cur offRevclass) with
    | reversible =>
      simp only [hr] at h
      exact .inl ⟨rfl, _, h⟩
    | compensatable =>
      simp only [hr] at h
      refine .inr ⟨rfl, ?_⟩
      rcases compensateAt_cases extractCompensation_window derived_window h with
        ⟨action, w', hx, hs, f, rfl, h⟩ | ⟨action, hx, hs, rfl, rfl⟩ | ⟨hx, rfl, rfl⟩
      · simp only [hx, if_true]
        have hd : concludeDisk d ahd sender ns s (.compensate cur action) = _ := if_pos hs
        rcases h with ⟨rfl, rfl⟩ | ⟨rfl, h⟩
        · refine .inl ⟨⟨w', ?_⟩, hd.symm⟩
          simp only [conclude, hs, if_true]
        · refine .inr ⟨⟨w', rfl⟩, ⟨cur, action, rfl⟩, hs, ?_⟩
          rwa [hd]
      · simp only [hx, if_true]
        refine .inl ⟨⟨load w (d' (commitFirstSector + cur)), ?_⟩, ?_⟩
        · simp only [conclude, hs, Bool.false_eq_true, if_false]
        · simp only [concludeDisk, hs, Bool.false_eq_true, if_false]
      · simp only [hx, if_true]
        exact .inl ⟨⟨_, rfl⟩, rfl⟩
    | irreversible | unknown =>
      simp only [hr] at h
      obtain ⟨rfl, rfl⟩ := h
      exact .inr ⟨rfl, .inl ⟨⟨_, rfl⟩, rfl⟩⟩

theorem rollbackChain_cases {good : ℕ → ℕ → Bytes → Prop} {l : List ℕ}
    (hc : Chain commitLinks good (record d) cur l) (hv : ∀ s k r, good s k r → isCommit r = true)
    (hl : ∀ slot ∈ l, slot < noSlot) (hs : s.newHead ns = cur)
    (h : (rollbackChain ahd sender ns fuel cur s w).Exec K d a d') :
    a = .running ∧ fuel ≤ l.length ∧ d' = d ∨ (K.reads ∧ ∃ j ≤ (undoRun (record d) ahd l).length,
        (∃ w', a = .finished (retreat s ns j ((l.drop j).headD noSlot)) w') ∧ d' = d) ∨
      Concluded K d ahd sender ns (retreat s ns (undoRun (record d) ahd l).length
          ((standing (record d) ahd l).headD noSlot)) (verdict (record d) ahd l) a d' := by
  induction hc generalizing fuel s w with
  | nil =>
    cases fuel with
    | zero =>
      obtain ⟨rfl, rfl⟩ := h
      exact .inl ⟨rfl, le_rfl, rfl⟩
    | succ fuel =>
      have hstop : commitLinks.stop = noSlot := rfl
      rw [rollbackChain, if_pos hstop] at h
      obtain ⟨rfl, rfl⟩ := h
      refine .inr (.inr (.inl ⟨⟨w, ?_⟩, rfl⟩))
      exact congrArg (Walk.finished · w) (retreat_zero hs).symm
  | @cons slot rest hg hd hc ih =>
    cases fuel with
    | zero =>
      obtain ⟨rfl, rfl⟩ := h
      exact .inl ⟨rfl, Nat.zero_le _, rfl⟩
    | succ fuel =>
      have hne : slot ≠ noSlot := Nat.ne_of_lt (hl slot List.mem_cons_self)
      rcases (exec_rollbackChain_succ hne).mp h with ⟨-, h⟩ | ⟨hm, -⟩ | ⟨hK, rfl, rfl⟩
      · rcases visit_cases h with ⟨hr, w', h⟩ | ⟨hr, h⟩
        · have hrun : undoRun (record d) ahd (slot :: rest) =
              slot :: undoRun (record d) ahd rest := List.takeWhile_cons_of_pos hr
          have hstand : standing (record d) ahd (slot :: rest) = standing (record d) ahd rest :=
            List.dropWhile_cons_of_pos hr
          have hverdict : verdict (record d) ahd (slot :: rest) = verdict (record d) ahd rest := by
            rw [verdict, verdict, hstand]
          rw [hrun, hstand, hverdict, List.length_cons]
          rcases ih (fun s h => hl s (List.mem_cons_of_mem slot h))
              (Function.update_self _ _ _) h with ⟨rfl, hf, rfl⟩ | ⟨hK, j, hj, h, rfl⟩ | h
          · exact .inl ⟨rfl, Nat.succ_le_succ hf, rfl⟩
          · refine .inr (.inl ⟨hK, j + 1, Nat.succ_le_succ hj, ?_, rfl⟩)
            rwa [retract_retreat] at h
          · rw [retract_retreat] at h
            exact .inr (.inr h)
        · have hrun : undoRun (record d) ahd (slot :: rest) = [] :=
            List.takeWhile_cons_of_neg (by simp [hr])
          have hstand : standing (record d) ahd (slot :: rest) = slot :: rest :=
            List.dropWhile_cons_of_neg (by simp [hr])
          refine .inr (.inr ?_)
          rw [verdict, hrun, hstand, List.length_nil, List.headD_cons, retreat_zero hs]
          exact h
      · rw [hv _ _ _ hg] at hm
        exact absurd hm (by decide)
      · refine .inr (.inl ⟨hK, 0, Nat.zero_le _, ⟨reported w false, ?_⟩, rfl⟩)
        exact congrArg (Walk.finished · (reported w false)) (retreat_zero hs).symm

/-- Only commit slots from `free` on may differ. -/
def Fills (free : ℕ) (d d' : CairnDisk) : Prop :=
  ∀ sector, sector < commitFirstSector + free ∨ commitFirstSector + commitSlots ≤ sector →
    d' sector = d sector

namespace Fills
variable {n n' : ℕ} {d'' : CairnDisk}

theorem refl (n : ℕ) (d : CairnDisk) : Fills n d d := fun _ _ => rfl

theorem trans (h : Fills n d d') (h' : Fills n' d' d'') (hn : n ≤ n') : Fills n d d'' :=
  fun sector hs => (h' sector (by omega)).trans (h sector hs)

theorem update (hn : n < commitSlots) (b : Sector) :
    Fills n d (Function.update d (commitFirstSector + n) b) :=
  fun sector hs => Function.update_of_ne (by omega) _ _

theorem super_eq (h : Fills n d d') : d' superSector = d superSector :=
  h superSector (.inl (by simp only [superSector, commitFirstSector]; omega))

theorem same (h : Fills (next d) (settle d) d') : SameStore d d' := by
  refine ⟨superOf_of_magic (h.super_eq.trans (settle_super d)) (superOf_magic d), ?_⟩
  intro slot hs
  rw [h _ (.inl (by omega)), settle_of_ne d (slot_ne_super slot)]

end Fills

/-- The free slot counter grows, and only while slots are left. -/
def Grows (s s' : Staging) : Prop :=
  s.nextFree ≤ s'.nextFree ∧ (s'.nextFree = s.nextFree ∨ s'.nextFree ≤ commitSlots)

theorem Grows.refl (s : Staging) : Grows s s := ⟨le_rfl, .inl rfl⟩

theorem Grows.trans {s s' s'' : Staging} (h : Grows s s') (h' : Grows s' s'') : Grows s s'' := by
  simp only [Grows] at *
  omega

theorem grows_conclude : Grows s (conclude s ns v) := by
  cases v with
  | compensate slot action =>
    simp only [conclude]
    split
    · next h => exact ⟨Nat.le_succ _, .inr (of_decide_eq_true h)⟩
    · exact .refl s
  | _ => exact .refl s

theorem fills_concludeDisk : Fills s.nextFree d (concludeDisk d ahd sender ns s v) := by
  cases v with
  | compensate slot action =>
    simp only [concludeDisk]
    split
    · next h => exact .update (of_decide_eq_true h) _
    · exact .refl _ d
  | _ => exact .refl _ d

theorem Concluded.frame (h : Concluded K d ahd sender ns s v a d') :
    Fills s.nextFree d d' ∧ ∀ s' w', a = .finished s' w' → Grows s s' := by
  rcases h with ⟨⟨w1, rfl⟩, rfl⟩ | ⟨⟨w1, rfl⟩, -, -, hl⟩
  · refine ⟨fills_concludeDisk, ?_⟩
    intro s' w' h
    cases h
    exact grows_conclude
  · refine ⟨?_, fun s' w' h => nomatch h⟩
    rcases hl with ⟨-, rfl⟩ | ⟨-, rfl⟩
    · exact .refl _ d'
    · exact fills_concludeDisk

theorem rollbackChain_frame (h : (rollbackChain ahd sender ns fuel cur s w).Exec K d a d') :
    Fills s.nextFree d d' ∧ ∀ s' w', a = .finished s' w' → Grows s s' := by
  induction fuel generalizing cur s w with
  | zero =>
    obtain ⟨rfl, rfl⟩ := h
    exact ⟨.refl _ d', fun s' w' h => nomatch h⟩
  | succ fuel ih =>
    have hstay : ∀ w1, a = .finished s w1 → d' = d →
        Fills s.nextFree d d' ∧ ∀ s' w', a = .finished s' w' → Grows s s' := by
      rintro w1 rfl rfl
      refine ⟨.refl _ d', ?_⟩
      intro s' w' h
      cases h
      exact .refl s
    by_cases hc : cur = noSlot
    · rw [rollbackChain, if_pos hc] at h
      exact hstay w h.1 h.2
    · rcases (exec_rollbackChain_succ hc).mp h with ⟨-, hk⟩ | ⟨-, hk, hd⟩ | ⟨-, hk, hd⟩
      · rcases visit_cases hk with ⟨-, w', hk⟩ | ⟨-, hk⟩
        · have hrest := ih hk
          exact hrest
        · exact hk.frame
      · exact hstay _ hk hd
      · exact hstay _ hk hd

theorem newHead_conclude {m : ℕ} (hm : m ≠ ns) : (conclude s ns v).newHead m = s.newHead m := by
  cases v with
  | compensate slot action =>
    simp only [conclude]
    split
    · exact Function.update_of_ne hm _ _
    · rfl
  | _ => rfl

theorem rollbackChain_newHead {s' : Staging} {w' : Bytes} {m : ℕ} (hm : m ≠ ns)
    (h : (rollbackChain ahd sender ns fuel cur s w).Exec K d (.finished s' w') d') :
    s'.newHead m = s.newHead m := by
  induction fuel generalizing cur s w with
  | zero => cases h.1
  | succ fuel ih =>
    by_cases hc : cur = noSlot
    · rw [rollbackChain, if_pos hc] at h
      cases h.1
      rfl
    · rcases (exec_rollbackChain_succ hc).mp h with ⟨-, hk⟩ | ⟨-, hk, -⟩ | ⟨-, hk, -⟩
      · rcases visit_cases hk with ⟨-, w1, hk⟩ | ⟨-, hk⟩
        · rw [ih hk]
          exact Function.update_of_ne hm _ _
        · rcases hk with ⟨⟨w1, hk⟩, -⟩ | ⟨⟨w1, hk⟩, -⟩
          · cases hk
            exact newHead_conclude hm
          · cases hk
      · cases hk
        rfl
      · cases hk
        rfl

theorem rollbackFrom_frame {n : ℕ} (h : (rollbackFrom fuel ahd sender n ns s w).Exec K d a d') :
    Fills s.nextFree d d' ∧ ∀ s' w', a = .finished s' w' → Grows s s' := by
  induction n generalizing ns s w d with
  | zero =>
    obtain ⟨rfl, rfl⟩ := h
    refine ⟨.refl _ d', ?_⟩
    intro s' w' h
    cases h
    exact .refl s
  | succ n ih =>
    obtain ⟨r, d1, hr, hk⟩ := exec_bind.mp h
    obtain ⟨hfill, hgrow⟩ := rollbackChain_frame hr
    cases r with
    | finished s1 w1 =>
      have hg := hgrow s1 w1 rfl
      obtain ⟨hfill', hgrow'⟩ := ih hk
      exact ⟨hfill.trans hfill' hg.1, fun s' w' h => hg.trans (hgrow' s' w' h)⟩
    | aborted w1 | running =>
      obtain ⟨rfl, rfl⟩ := hk
      exact ⟨hfill, fun s' w' h => nomatch h⟩

end Dezh.MissionUndo

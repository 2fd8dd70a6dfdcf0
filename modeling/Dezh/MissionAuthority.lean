import Dezh.RollbackRepeat

/-!
# The authority of a mission rollback under read failures

The authority check of a rollback is a walk of its own over the live chains, and
it ends silently at the first unreadable record. The mutating walk then reads the
same records again. When a read of the check fails and the same read succeeds
later, the rollback goes through without the capability of the namespace it
changes.
-/
namespace Dezh.MissionAuthority
open Function BlockProgram Program ByteLayout CairnFormat CairnService SfarService CairnStore
open CairnOutcomes MissionScan MissionUndo MissionPublish MissionExact RollbackRepeat

variable {K : Faults} {d d' : CairnDisk} {ahd : UInt32} {sender caps fuel ns : ℕ} {w : Bytes}

/-- Some head has moved or some record has been appended. -/
def Changed (d d' : CairnDisk) : Prop :=
  (∃ ns < nsMax, head d' ns ≠ head d ns) ∨ next d' ≠ next d ∨
    ∃ slot, d' (commitFirstSector + slot) ≠ d (commitFirstSector + slot)

/-- The newest record of the namespace is an effect of the mission that the
rollback can retract or compensate. -/
def UndoableHead (d : CairnDisk) (ahd : UInt32) (ns : ℕ) : Prop :=
  head d ns ≠ noSlot ∧ isCommit (record d (head d ns)) = true ∧
    ofMission ahd (record d (head d ns)) = true ∧
    ((header (record d (head d ns))).cls = .reversible ∧
        (header (record d (head d ns))).parent ≠ head d ns ∨
      (header (record d (head d ns))).cls = .compensatable ∧
        (extractCompensation (record d (head d ns)) 96).isSome = true ∧ next d < commitSlots)

theorem not_changed_iff : ¬ Changed d d' ↔ (∀ ns < nsMax, head d' ns = head d ns) ∧
    next d' = next d ∧ ∀ slot, d' (commitFirstSector + slot) = d (commitFirstSector + slot) := by
  simp only [Changed, not_or, not_exists, not_and, not_not]

theorem not_changed_settle : ¬ Changed d (settle d) :=
  not_changed_iff.mpr ⟨fun ns _ => (SameStore.settle d).head_eq ns, (SameStore.settle d).next_eq,
    fun slot => settle_of_ne d (slot_ne_super slot)⟩

theorem record_settle_eq : record (settle d) = record d := funext (record_settle d)

theorem undoableHead_settle : UndoableHead (settle d) ahd ns ↔ UndoableHead d ahd ns := by
  rw [UndoableHead, UndoableHead, record_settle_eq, (SameStore.settle d).head_eq,
    (SameStore.settle d).next_eq]

theorem touches_settle : Touches (settle d) ahd ns ↔ Touches d ahd ns := by
  rw [Touches, Touches, liveChain, liveChain, record_settle_eq, (SameStore.settle d).head_eq]

/-- The staged references stand where the store has them. -/
def Quiet (d : CairnDisk) (s : Staging) : Prop :=
  (∀ m < nsMax, s.newHead m = head d m) ∧ s.nextFree = next d

theorem Quiet.retract {s : Staging} (h : Quiet d s) : Quiet d (s.retract ns (head d ns)) := by
  refine ⟨fun m hm => ?_, h.2⟩
  by_cases hmn : m = ns
  · rw [hmn]
    exact update_self _ _ _
  · rw [← h.1 m hm]
    exact update_of_ne hmn _ _

theorem Quiet.concluded {s : Staging} {a : Walk} (hq : ¬ UndoableHead d ahd ns) (h : Quiet d s)
    (hh : head d ns ≠ noSlot) (hm : isCommit (record d (head d ns)) = true)
    (hc : Concluded K d ahd sender ns s (verdictAt ahd (head d ns) (record d (head d ns))) a d') :
    d' = d ∧ ∀ s' w', a = .finished s' w' → Quiet d s' := by
  have hno : ∀ slot action,
      verdictAt ahd (head d ns) (record d (head d ns)) = .compensate slot action →
      ¬ s.nextFree < commitSlots := by
    intro slot action hv hlt
    rw [verdictAt] at hv
    split at hv
    · next hmission =>
        split at hv
        · next hcls =>
            split at hv
            · next hx =>
                exact hq ⟨hh, hm, hmission, .inr ⟨hcls, by rw [hx]; rfl, h.2 ▸ hlt⟩⟩
            · cases hv
        · cases hv
        · cases hv
    · cases hv
  rcases hc with ⟨⟨w1, rfl⟩, rfl⟩ | ⟨-, ⟨slot, action, hv⟩, hfree, -⟩
  · rcases conclude_cases s ns (verdictAt ahd (head d ns) (record d (head d ns))) d ahd sender with
      ⟨slot, action, hv, hlt, -⟩ | ⟨hhead, -, hnext, hdisk⟩
    · exact absurd hlt (hno slot action hv)
    · refine ⟨hdisk, ?_⟩
      rintro s' w' ⟨⟩
      exact ⟨fun m hm => (congrFun hhead m).trans (h.1 m hm), hnext.trans h.2⟩
  · exact absurd (of_decide_eq_true hfree) (hno slot action hv)

theorem rollbackChain_quiet {s : Staging} {a : Walk} (hq : ¬ UndoableHead d ahd ns) (h : Quiet d s)
    (hx : (rollbackChain ahd sender ns fuel (head d ns) s w).Exec K d a d') :
    d' = d ∧ ∀ s' w', a = .finished s' w' → Quiet d s' := by
  induction fuel generalizing s w with
  | zero =>
    obtain ⟨rfl, rfl⟩ := hx
    exact ⟨rfl, fun s' w' hs => nomatch hs⟩
  | succ fuel ih =>
    have hstay : ∀ w1, a = .finished s w1 → d' = d →
        d' = d ∧ ∀ s' w', a = .finished s' w' → Quiet d s' := by
      rintro w1 rfl rfl
      refine ⟨rfl, ?_⟩
      rintro s' w' ⟨⟩
      exact h
    by_cases hh : head d ns = noSlot
    · rw [rollbackChain, if_pos hh] at hx
      exact hstay w hx.1 hx.2
    · rcases (exec_rollbackChain_succ hh).mp hx with ⟨hm, hk⟩ | ⟨-, hk, hd⟩ | ⟨-, hk, hd⟩
      · rcases visit_cases hk with ⟨hr, w', hk⟩ | ⟨-, hc⟩
        · have hparent : (header (record d (head d ns))).parent = head d ns := by
            by_contra hne
            rw [retractable, Bool.and_eq_true, beq_iff_eq] at hr
            exact hq ⟨hh, hm, hr.1, .inl ⟨hr.2, hne⟩⟩
          rw [hparent] at hk
          exact ih h.retract hk
        · exact h.concluded hq hh hm hc
      · exact hstay _ hk hd
      · exact hstay _ hk hd

theorem rollbackFrom_quiet {s : Staging} {a : Walk} {n : ℕ} (hn : ns + n ≤ nsMax)
    (hq : ∀ m < nsMax, ¬ UndoableHead d ahd m) (h : Quiet d s)
    (hx : (rollbackFrom fuel ahd sender n ns s w).Exec K d a d') :
    d' = d ∧ ∀ s' w', a = .finished s' w' → Quiet d s' := by
  induction n generalizing ns s w with
  | zero =>
    obtain ⟨rfl, rfl⟩ := hx
    refine ⟨rfl, ?_⟩
    rintro s' w' ⟨⟩
    exact h
  | succ n ih =>
    obtain ⟨r, d1, hr, hk⟩ := exec_bind.mp hx
    rw [h.1 ns (by omega)] at hr
    obtain ⟨hd, hfin⟩ := rollbackChain_quiet (hq ns (by omega)) h hr
    subst d1
    cases r with
    | finished s1 w1 => exact ih (by omega) (hfin s1 w1 rfl) hk
    | aborted w1 | running =>
      obtain ⟨rfl, rfl⟩ := hk
      exact ⟨rfl, fun s' w' hs => nomatch hs⟩

section
variable {s : Staging} {a : Option (Answer RollbackReply)}

variable (K d s w) in
theorem exec_publish : (publish s w).Exec K d
    (some ⟨{ status := .ok, report := some s },
      reported (publishSuper s (load w (superOf d))) true⟩)
    (published d (s, settle d)) := by
  refine exec_bind.mpr ⟨_, _, exec_cairnLoadSuper K d w, ?_⟩
  rw [if_pos rfl]
  refine exec_bind.mpr ⟨_, _, exec_rw_write_ok K _ _ _, ?_⟩
  rw [take_image (publishSuper _) (publishSuper_congr _)]
  exact ⟨rfl, rfl⟩

theorem Quiet.not_changed (h : Quiet d s) : ¬ Changed d (published d (s, settle d)) := by
  refine not_changed_iff.mpr ⟨fun ns hns => ?_, ?_, published_slot_any⟩
  · have hlt : head d ns < 2 ^ 32 := u32At_lt
    rw [head_published hns]
    split
    · exact (congrArg (· % 2 ^ 32) (h.1 ns hns)).trans (Nat.mod_eq_of_lt hlt)
    · rfl
  · have hlt : next d < 2 ^ 32 := u32At_lt
    rw [next_published_any, h.2, Nat.mod_eq_of_lt hlt]

end

theorem changed_settle_iff : Changed (settle d) d' ↔ Changed d d' := by
  have hslot : ∀ slot, settle d (commitFirstSector + slot) = d (commitFirstSector + slot) :=
    fun slot => settle_of_ne d (slot_ne_super slot)
  simp only [Changed, (SameStore.settle d).head_eq, (SameStore.settle d).next_eq, hslot]

theorem quiet_initial : Quiet (settle d) (initial d w) :=
  ⟨fun m hm => (heads_load hm).trans ((SameStore.settle d).head_eq m).symm,
    (SameStore.settle d).next_eq.symm⟩

theorem not_changed_of_quiet {a : Option (Answer RollbackReply)}
    (hq : ∀ ns < nsMax, ¬ UndoableHead d ahd ns)
    (h : (sfarRollback fuel ahd caps sender w).Exec K d a d') : ¬ Changed d d' := by
  have hsame : d' = d ∨ d' = settle d → ¬ Changed d d' := by
    rintro (rfl | rfl)
    · exact not_changed_iff.mpr ⟨fun _ _ => rfl, rfl, fun _ => rfl⟩
    · exact not_changed_settle
  rcases exec_sfarRollback h with
    ⟨-, -, -, ⟨-, hd⟩ | ⟨-, hd⟩⟩ | ⟨-, t, -, ⟨-, -, hd⟩ | ⟨-, x, d1, hwalk, hk⟩⟩
  · exact hsame (.inl hd)
  · exact hsame hd
  · exact hsame (.inr hd)
  obtain ⟨rfl, hfin⟩ := rollbackFrom_quiet (by omega)
    (fun m hm hu => hq m hm (undoableHead_settle.mp hu)) quiet_initial hwalk
  cases x with
  | running | aborted v => exact hsame (.inr hk.2)
  | finished s v =>
    rcases (publish_disk hk).2 with hd | hd | rfl
    · exact hsame (.inr hd)
    · exact hsame (.inr (hd.trans (settle_settle d)))
    · rw [← changed_settle_iff]
      exact (hfin s v rfl).not_changed

section
variable {A : Type}

theorem exec_scanFrom_blind (hK : K.reads) {note : ℕ → ℕ → Bytes → A → A} {heads : ℕ → ℕ}
    {acc : A} (n : ℕ) : ∃ w', (scanFrom note heads n ns acc w).Exec K d ⟨acc, w'⟩ d := by
  induction n generalizing ns w with
  | zero => exact ⟨w, rfl, rfl⟩
  | succ n ih =>
    have hchain : ∃ w₁, (scanChain (note ns) commitSlots (heads ns) acc w).Exec K d ⟨acc, w₁⟩ d := by
      rw [commitSlots, scanChain]
      split
      · exact ⟨w, rfl, rfl⟩
      · exact ⟨reported w false,
          exec_bind.mpr ⟨_, d, exec_rw_read.mpr ⟨rfl, .inr ⟨hK, rfl⟩⟩, rfl, rfl⟩⟩
    obtain ⟨w₁, hchain⟩ := hchain
    obtain ⟨w', hrest⟩ := ih
    exact ⟨w', exec_bind.mpr ⟨_, d, hchain, hrest⟩⟩

theorem exec_rollbackChain_blind (hK : K.reads) {cur : ℕ} {s : Staging} :
    ∃ w', (rollbackChain ahd sender ns (fuel + 1) cur s w).Exec K d (.finished s w') d := by
  by_cases hc : cur = noSlot
  · rw [rollbackChain, if_pos hc]
    exact ⟨w, rfl, rfl⟩
  · exact ⟨_, (exec_rollbackChain_succ hc).mpr (.inr (.inr ⟨hK, rfl, rfl⟩))⟩

theorem exec_rollbackFrom_blind (hK : K.reads) {s : Staging} (n : ℕ) :
    ∃ w', (rollbackFrom (fuel + 1) ahd sender n ns s w).Exec K d (.finished s w') d := by
  induction n generalizing ns w with
  | zero => exact ⟨w, rfl, rfl⟩
  | succ n ih =>
    obtain ⟨w₁, hchain⟩ := exec_rollbackChain_blind hK
    obtain ⟨w', hrest⟩ := ih
    exact ⟨w', exec_bind.mpr ⟨_, d, hchain, hrest⟩⟩

/-- A walk over the namespaces can be blind for all but one. -/
theorem exec_rollbackFrom_at (hK : K.reads) {s : Staging} {Q : Staging → CairnDisk → Prop}
    {first n : ℕ} (hle : first ≤ ns) (hlt : ns < first + n)
    (h : ∀ w, ∃ s' w' d', (rollbackChain ahd sender ns (fuel + 1) (s.newHead ns) s w).Exec K d
      (.finished s' w') d' ∧ Q s' d') :
    ∃ s' w' d', (rollbackFrom (fuel + 1) ahd sender n first s w).Exec K d (.finished s' w') d' ∧
      Q s' d' := by
  induction n generalizing first w with
  | zero => omega
  | succ n ih =>
    by_cases hf : first = ns
    · subst hf
      obtain ⟨s', w₁, d', hchain, hq⟩ := h w
      obtain ⟨w', hrest⟩ := exec_rollbackFrom_blind hK n
      exact ⟨s', w', d', exec_bind.mpr ⟨_, d', hchain, hrest⟩, hq⟩
    · obtain ⟨w₁, hchain⟩ := exec_rollbackChain_blind hK
      obtain ⟨s', w', d', hrest, hq⟩ := ih (show first + 1 ≤ ns by omega) (by omega)
      exact ⟨s', w', d', exec_bind.mpr ⟨_, d, hchain, hrest⟩, hq⟩

variable (sender fuel w) in
theorem exec_rollbackChain_undo (hK : K.reads) (hu : UndoableHead d ahd ns) {s : Staging}
    (hs : s.newHead ns = head d ns) (hfree : s.nextFree = next d) :
    ∃ s' w' d',
      (rollbackChain ahd sender ns (fuel + 2) (s.newHead ns) s w).Exec K d (.finished s' w') d' ∧
      superOf d' = superOf d ∧
      (moved s' ns ∧ s'.newHead ns < 2 ^ 32 ∧ s'.newHead ns ≠ head d ns ∨
        s'.nextFree = next d + 1 ∧ next d < commitSlots) := by
  obtain ⟨hh, hm, hmission, hcls⟩ := hu
  rw [hs]
  have hstep : ∀ {a : Walk} {d'' : CairnDisk},
      (visit ahd sender ns (fuel + 1) (head d ns) s
        (load w (d (commitFirstSector + head d ns)))).Exec K d a d'' →
      (rollbackChain ahd sender ns (fuel + 2) (head d ns) s w).Exec K d a d'' :=
    fun hv => (exec_rollbackChain_succ hh).mpr (.inl ⟨hm, hv⟩)
  rcases hcls with ⟨hrev, hparent⟩ | ⟨hcomp, hx, hlt⟩
  · have hrev' : RevClass.ofByte (record d (head d ns) offRevclass) = .reversible := hrev
    have hvisit : ∃ w', (visit ahd sender ns (fuel + 1) (head d ns) s
        (load w (d (commitFirstSector + head d ns)))).Exec K d
        (.finished (s.retract ns (header (record d (head d ns))).parent) w') d := by
      simp only [visit, ofMission_window, hmission, if_true, revClass_window, hrev', parent_window]
      exact exec_rollbackChain_blind hK
    obtain ⟨w', hvisit⟩ := hvisit
    refine ⟨_, _, d, hstep hvisit, rfl, .inl ⟨.inl ?_, ?_, ?_⟩⟩
    all_goals simp only [Staging.retract, update_self]
    · omega
    · exact u32At_lt
    · exact hparent
  · obtain ⟨action, haction⟩ := Option.isSome_iff_exists.mp hx
    have hcomp' : RevClass.ofByte (record d (head d ns) offRevclass) = .compensatable := hcomp
    have hroom : slotAvailable s.nextFree = true := by
      rw [hfree]
      exact decide_eq_true hlt
    have hvisit : ∃ w' b, (visit ahd sender ns (fuel + 1) (head d ns) s
        (load w (d (commitFirstSector + head d ns)))).Exec K d
        (.finished (s.compensate ns (head d ns) action) w')
        (update d (commitFirstSector + s.nextFree) b) := by
      simp only [visit, ofMission_window, hmission, if_true, revClass_window, hcomp', compensateAt,
        extractCompensation_window, haction, hroom]
      exact ⟨_, _, exec_bind.mpr ⟨_, _, exec_rw_write_ok K d _ _, rfl, rfl⟩⟩
    obtain ⟨w', b, hvisit⟩ := hvisit
    refine ⟨_, w', _, hstep hvisit, ?_, .inr ⟨?_, hlt⟩⟩
    · exact (SameStore.update_slot d hfree.ge b).super
    · rw [← hfree]
      rfl

theorem exec_sfarRollback_blind (hK : K.reads) (h0 : ahd ≠ 0) {Q : Staging → CairnDisk → Prop}
    (h : ∀ v, ∃ s w' d', (rollbackFrom fuel ahd sender nsMax 0 (initial d w) v).Exec K (settle d)
      (.finished s w') d' ∧ Q s d') :
    ∃ s a d', (sfarRollback fuel ahd caps sender w).Exec K d (some a) (published d' (s, settle d')) ∧
      a.value.status = .ok ∧ Q s d' := by
  obtain ⟨v, hscan⟩ : ∃ v, (sfarTouchedNs ahd (initial d w).newHead (load w (superOf d))).Exec K
      (settle d) ⟨0, v⟩ (settle d) := exec_scanFrom_blind hK nsMax
  obtain ⟨s, w', d', hwalk, hq⟩ := h v
  refine ⟨s, ⟨{ status := .ok, report := some s },
    reported (publishSuper s (load w' (superOf d'))) true⟩, d', ?_, rfl, hq⟩
  rw [sfarRollback, if_neg h0]
  refine exec_bind.mpr ⟨_, _, exec_cairnLoadSuper K d w, ?_⟩
  simp only [if_true, next_load]
  refine exec_bind.mpr ⟨_, _, hscan, ?_⟩
  rw [if_neg (by simp)]
  exact exec_bind.mpr ⟨_, _, hwalk, exec_publish K d' w' s⟩

theorem exists_moved (hK : K.reads) (h0 : ahd ≠ 0) (hns : ns < nsMax)
    (hu : UndoableHead d ahd ns) (fuel caps sender : ℕ) (w : Bytes) :
    ∃ a d', (sfarRollback (fuel + 2) ahd caps sender w).Exec K d (some a) d' ∧
      a.value.status = .ok ∧
      ((∃ ns < nsMax, head d' ns ≠ head d ns) ∨ next d' ≠ next d) := by
  obtain ⟨s, a, d1, hexec, hok, hsup, hmove⟩ : ∃ s a d1,
      (sfarRollback (fuel + 2) ahd caps sender w).Exec K d (some a) _ ∧ _ :=
    exec_sfarRollback_blind hK h0
      fun v => exec_rollbackFrom_at (w := v) hK (Nat.zero_le ns) (by omega) fun v =>
        exec_rollbackChain_undo sender fuel v hK (undoableHead_settle.mpr hu)
          (quiet_initial (w := w).1 ns hns) (quiet_initial (w := w)).2
  refine ⟨a, _, hexec, hok, ?_⟩
  have hhead : head d1 ns = head d ns := by
    rw [head, hsup, ← head, (SameStore.settle d).head_eq]
  rw [(SameStore.settle d).head_eq, (SameStore.settle d).next_eq] at hmove
  rcases hmove with ⟨hmv, hlt, hne⟩ | ⟨hfree, hlt⟩
  · refine .inl ⟨ns, hns, ?_⟩
    rw [head_published hns, if_pos hmv, Nat.mod_eq_of_lt hlt]
    exact hne
  · refine .inr ?_
    have hlt' : next d < 255 := hlt
    rw [next_published_any, hfree]
    omega

end

def authorityWalk (ahd : UInt32) (w : Bytes) : Program Sector (Answer ℕ) := do
  let r ← cairnLoadSuper w
  sfarTouchedNs ahd (heads r.window) r.window

def authorityReads (d : CairnDisk) (ahd : UInt32) (w : Bytes) : ℕ := (authorityWalk ahd w).readCount d

theorem authorized_of_reads {reads : ℕ → Bool}
    (hreads : ∀ i < authorityReads d ahd w, reads i = true)
    (h : Changed d ((sfarRollback fuel ahd caps sender w).run (.reliable reads) d).2) :
    Authorized d ahd caps := by
  by_cases h0 : ahd = 0
  · rw [sfarRollback, if_pos h0] at h
    exact absurd h (not_changed_iff.mpr ⟨fun _ _ => rfl, rfl, fun _ => rfl⟩)
  rw [authorityReads, authorityWalk, readCount_bind, eval_cairnLoadSuper] at hreads
  have hfirst : ∀ i < (cairnLoadSuper w).readCount d, reads i = true :=
    fun i hi => hreads i (by omega)
  have hsecond : ∀ i < (sfarTouchedNs ahd (heads (load w (superOf d)))
      (load w (superOf d))).readCount (settle d),
      reads (i + (cairnLoadSuper w).readCount d) = true :=
    fun i hi => hreads _ (by simp only; omega)
  obtain ⟨hload, hafter⟩ := run_reliable _ hfirst
  obtain ⟨htouch, hlater⟩ := run_reliable _ hsecond
  have hexec := exec_eval Faults.none
    (sfarTouchedNs ahd (heads (load w (superOf d))) (load w (superOf d))) (settle d)
  obtain ⟨hd, htouched⟩ := sfarTouchedNs_cases quiet_initial.1 hexec
  rw [sfarRollback, if_neg h0, run_bind, hload, hafter, eval_cairnLoadSuper] at h
  simp only [if_true] at h
  rw [run_bind, htouch, hlater] at h
  split at h
  · exact absurd (hd ▸ h) not_changed_settle
  · next hden =>
      rw [denied_iff, Bool.not_eq_false, sfarAuthorized_iff] at hden
      intro ns hns ht
      exact hden ns hns (((htouched ns hns).2 (touches_settle.mpr ht)).resolve_left id)

/-- Under every pattern of failing reads a change implies the capability of every
touched namespace, exactly when the request names no mission, the caller is
authorized anyway, or no newest record can be undone. Under one pattern it is
enough that the reads before the authority decision succeed. -/
theorem mission_authority_iff (d : CairnDisk) (ahd : UInt32) (caps : ℕ) :
    ((∀ reads fuel sender w,
        Changed d ((sfarRollback fuel ahd caps sender w).run (.reliable reads) d).2 →
          Authorized d ahd caps) ↔
      ahd = 0 ∨ Authorized d ahd caps ∨ ∀ ns < nsMax, ¬ UndoableHead d ahd ns) ∧
    ∀ reads fuel sender w, (∀ i < authorityReads d ahd w, reads i = true) →
      Changed d ((sfarRollback fuel ahd caps sender w).run (.reliable reads) d).2 →
        Authorized d ahd caps := by
  refine ⟨⟨fun h => ?_, fun h reads fuel sender w hchange => ?_⟩, fun reads fuel sender w =>
    authorized_of_reads⟩
  · by_contra hcon
    push Not at hcon
    obtain ⟨h0, hauth, ns, hns, hu⟩ := hcon
    obtain ⟨a, d', hexec, -, hmoved⟩ :=
      exists_moved (show Faults.readsOnly.reads from trivial) h0 hns hu 0 caps 0 fun _ => 0
    obtain ⟨f, hf, hrun⟩ := hexec.exists_run
    rw [hf.eq_reliable] at hrun
    refine hauth (h f.reads 2 0 (fun _ => 0) ?_)
    rw [hrun]
    exact hmoved.imp_right .inl
  · have hexec := exec_run (d := d) (sfarRollback fuel ahd caps sender w)
      (Schedule.reliable_within reads)
    rcases h with rfl | h | hq
    · rw [sfarRollback, if_pos rfl] at hchange
      exact absurd hchange (not_changed_iff.mpr ⟨fun _ _ => rfl, rfl, fun _ => rfl⟩)
    · exact h
    · exact absurd hchange (not_changed_of_quiet hq hexec)

/-- The read of the only record fails during the authority walk and succeeds
afterwards: a caller without any capability retracts it. -/
theorem noted_retracted_unauthorized :
    Touches noted 1 4 ∧ holdsNs 0 4 = false ∧ head noted 4 = 0 ∧
      head ((sfarRollback 256 1 0 9 fun _ => 0).run (.reliable (· != 1)) noted).2 4 = noSlot :=
  ⟨by decide +kernel, by decide +kernel, by decide +kernel, by decide +kernel⟩

end Dezh.MissionAuthority

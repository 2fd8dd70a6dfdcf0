import Dezh.FaultAtomicity
import Dezh.PackageIntegrity
import Dezh.PackageTasks

/-!
# What a package does to the ledger

Two questions about a launched package and the storage daemon, both on a disk that
does not fail. May a package without the write capability commit or roll back? May
a package choose what the ledger says about its effects? For a bytecode package the
kernel answers both: the interpreter checks the write capability, and the kernel
packs the intent, the derived capabilities and the class. For a native package
nothing on the way does: the daemon looks at the namespace bit, which a read grant
carries as well, and takes the provenance from the word the task has sent.
-/
namespace Dezh.PackageAuthority
open BlockProgram Program ByteLayout ParentChain CairnFormat CairnService SfarService BlockDaemon
open CairnStore CairnOutcomes MissionScan MissionExact MissionAuthority FaultAtomicity
open DaemonWalks PackageIntegrity PackageFormat PackageTasks NamespaceSecrets StoreRuns

variable {d : CairnDisk} {r : Request} {w : Bytes} {fuel ns caps : ℕ}

section
variable {k : Bytes → Program Sector (Answer Status)}

theorem eval_cairnNsRevoked (hns : ns < nsMax) :
    (cairnNsRevoked w ns).eval d = (⟨revoked d ns != 0, load w (superOf d)⟩, settle d) := by
  rw [cairnNsRevoked, eval_bind, eval_cairnLoadSuper]
  simp [revoked_load hns, hns]

theorem eval_gated_denied (h : cairnNsAllowed ns caps = false) :
    ((gated ns caps w k).eval d).2 = settle d := by
  rw [gated, eval_bind, cairnNsRevoked, eval_bind, eval_cairnLoadSuper]
  simp only [eval_pure, h]
  split
  · rfl
  · rfl

theorem eval_gated_open (h : cairnNsAllowed ns caps = true) (hrev : revoked d ns = 0) :
    (gated ns caps w k).eval d = (k (load w (superOf d))).eval (settle d) := by
  rw [gated, eval_bind, eval_cairnNsRevoked (lt_of_allowed h).1, hrev]
  simp [h]

end

section
variable {input : Bytes} {len sender : ℕ} {intent derived : UInt32} {revClass : UInt8}

theorem eval_cairnCommit (hns : ns < nsMax) :
    ((cairnCommit input w ns len sender intent derived revClass).eval d).2 =
      if next d < commitSlots then committed d input ns len sender intent derived revClass
      else settle d := by
  by_cases hn : next d < commitSlots
  · rw [if_pos hn]
    rcases cairnCommit_cases hns (exec_eval .none (cairnCommit input w ns len sender intent derived
      revClass) d) with ⟨-, -, hd⟩ | ⟨-, hK | hfull, -⟩ | ⟨-, hK, -⟩
    · exact hd
    · rcases hK with hK | hK | hK <;> exact hK.elim
    · exact absurd hn (Nat.not_lt_of_le hfull)
    · exact hK.elim
  · rw [if_neg hn, cairnCommit, eval_bind, eval_cairnLoadSuper]
    simp [slotAvailable, hn]

theorem eval_serve_commit (hw : r.wellFormed = true) (hop : r.op = some .cairnCommit) :
    ((serve fuel r w).eval d).2 =
      if cairnNsAllowed r.cairnNs r.caps = true ∧ revoked d r.cairnNs = 0 ∧ next d < commitSlots then
        committed d r.input r.cairnNs r.cairnAux r.sender r.sandIntent r.sandDerived r.sandRevclass
      else settle d := by
  rw [serve_eq hw hop, eval_bind]
  change ((dispatch fuel .cairnCommit r w).eval d).2 = _
  rw [dispatch, answered, eval_bind]
  change ((gated r.cairnNs r.caps w _).eval d).2 = _
  by_cases hall : cairnNsAllowed r.cairnNs r.caps = true
  · have hns := (lt_of_allowed hall).1
    by_cases hrev : revoked d r.cairnNs = 0
    · rw [eval_gated_open hall hrev, eval_cairnCommit hns, (SameStore.settle d).next_eq,
        committed_settle, settle_settle]
      simp [hall, hrev]
    · rw [eval_gated_revoked hns hrev, if_neg fun h => hrev h.2.1]
  · rw [eval_gated_denied (Bool.eq_false_of_not_eq_true hall), if_neg fun h => hall h.1]

end

theorem touches_of_undoable {ahd : UInt32} (h : UndoableHead d ahd ns) : Touches d ahd ns := by
  obtain ⟨hne, hcommit, hmission, -⟩ := h
  refine ⟨head d ns, ?_, hmission⟩
  have hsucc : commitSlots = 254 + 1 := rfl
  have hstop : ¬ head d ns = commitLinks.stop := hne
  have hvalid : commitLinks.valid (record d (head d ns)) = true := hcommit
  rw [liveChain, hsucc, follow, if_neg hstop, if_pos hvalid]
  exact List.mem_cons_self

section
variable (hno : ∀ ns < nsMax, holdsNs caps ns = false)
include hno

theorem not_allowed_of_unheld (ns : ℕ) : cairnNsAllowed ns caps = false := by
  unfold cairnNsAllowed
  by_cases h : ns < nsMax
  · rw [hno ns h, Bool.and_false]
  · rw [decide_eq_false h, Bool.false_and]

theorem not_changed_of_unheld (ahd : UInt32) (sender : ℕ) :
    ¬ Changed d ((sfarRollback fuel ahd caps sender w).eval d).2 := by
  intro hc
  have hrun : (sfarRollback fuel ahd caps sender w).run (.reliable fun _ => true) d =
      (sfarRollback fuel ahd caps sender w).eval d := (run_reliable _ fun _ _ => rfl).1
  have hauth : Authorized d ahd caps := by
    rw [← hrun] at hc
    exact authorized_of_reads (fun _ _ => rfl) hc
  have hquiet : ∀ ns < nsMax, ¬ UndoableHead d ahd ns := by
    intro ns hns hu
    have := hauth ns hns (touches_of_undoable hu)
    rw [hno ns hns] at this
    cases this
  exact not_changed_of_quiet hquiet (exec_eval .none _ d) hc

end

/-! ### Read-only packages -/

/-- The request commits or rolls back, and it takes effect. -/
def Alters (r : Request) (d d' : CairnDisk) : Prop :=
  (r.op = some .cairnCommit ∨ r.op = some .cairnRollback ∨ r.op = some .sfarRollback) ∧ Changed d d'

theorem not_alters_of_unheld (hno : ∀ ns < nsMax, holdsNs r.caps ns = false) :
    ¬ Alters r d ((serve fuel r w).eval d).2 := by
  intro ⟨hop, hc⟩
  by_cases hw : r.wellFormed = true
  · have hdenied := not_allowed_of_unheld hno r.cairnNs
    rcases hop with hop | hop | hop
    · rw [eval_serve_commit hw hop, if_neg (by simp [hdenied])] at hc
      exact not_changed_settle hc
    · rw [serve_eq hw hop, eval_bind] at hc
      change Changed d ((dispatch fuel .cairnRollback r w).eval d).2 at hc
      rw [dispatch, answered, eval_bind] at hc
      change Changed d ((gated r.cairnNs r.caps w _).eval d).2 at hc
      rw [eval_gated_denied hdenied] at hc
      exact not_changed_settle hc
    · rw [serve_eq hw hop, eval_bind] at hc
      change Changed d ((dispatch fuel .sfarRollback r w).eval d).2 at hc
      rw [dispatch, eval_bind] at hc
      exact not_changed_of_unheld hno _ _ hc
  · rw [serve, if_neg hw] at hc
    exact not_changed_iff.mpr ⟨fun _ _ => rfl, rfl, fun _ => rfl⟩ hc

theorem unheld_of_cairnNs {l : Launch} (h : l.cairnNs = none) :
    ∀ ns < nsMax, holdsNs l.taskCaps ns = false := by
  intro ns hns
  apply Bool.eq_false_of_not_eq_true
  rw [l.holdsNs_taskCaps hns, h]
  exact nofun

def ownCommit (l : Launch) (ns id : ℕ) : Request :=
  ⟨typedWord 43 id 0 (ns * 2 ^ 12), firstForegroundTask, l.taskCaps, fun _ => 0⟩

section
variable {l : Launch} {id : ℕ} (hns : ns < 5) (hid : id < 2 ^ 16)
include hns hid

theorem op_ownCommit : (ownCommit l ns id).op = some .cairnCommit := by
  rw [Request.op, ownCommit, requestOp_typedWord (by decide) hid (by decide) (by omega)]
  rfl

theorem cairnNs_ownCommit : (ownCommit l ns id).cairnNs = ns := by
  rw [Request.cairnNs, ownCommit, requestArg_typedWord (by decide) hid (by decide) (by omega),
    show 0xf = 2 ^ 4 - 1 from rfl, field_eq]
  omega

theorem sandIntent_ownCommit : (ownCommit l ns id).sandIntent.toNat = id := by
  rw [Request.sandIntent, ownCommit, requestId_typedWord (by decide) hid (by decide) (by omega),
    UInt32.toNat_ofNat_of_lt' (by have : UInt32.size = 2 ^ 32 := rfl; omega)]

theorem eval_ownCommit (hl : l.cairnNs = some ns) :
    ((serve fuel (ownCommit l ns id) w).eval blank).2 =
      committed blank (fun _ => 0) ns (ownCommit l ns id).cairnAux firstForegroundTask
        (ownCommit l ns id).sandIntent (ownCommit l ns id).sandDerived
        (ownCommit l ns id).sandRevclass := by
  have hmax : ns < nsMax := Nat.lt_of_lt_of_le hns (by decide)
  have hcaps : holdsNs (ownCommit l ns id).caps ns = true := (l.holdsNs_taskCaps hmax).mpr hl
  have hall : cairnNsAllowed ns (ownCommit l ns id).caps = true := by
    rw [cairnNsAllowed, hcaps, decide_eq_true hmax]
    rfl
  have hrev : ∀ ns < 5, revoked blank ns = 0 := by decide +kernel
  have hnext : next blank < commitSlots := by decide +kernel
  have hw : (ownCommit l ns id).wellFormed = true :=
    wellFormed_typedWord (by decide) hid (by decide) (by omega) rfl
  rw [eval_serve_commit hw (op_ownCommit hns hid), cairnNs_ownCommit hns hid,
    if_pos ⟨hall, hrev ns hns, hnext⟩]
  rfl

end

theorem next_blank : next blank = 0 := by decide +kernel

/-- A read-only package causes no commit and no rollback, on any store, exactly
when it is no native package with a namespace and the IPC capability. -/
theorem read_only_iff (l : Launch) (hro : l.mcaps &&& mcapCairnWrite = 0) :
    (∀ r, l.Sends r → ∀ fuel d w, ¬ Alters r d ((serve fuel r w).eval d).2) ↔
      l.kind ≠ kindElfRiscv64 ∨ l.mcaps &&& mcapIpc = 0 ∨ l.mcaps &&& mcapCairnRead = 0 ∨
        cairnNsId l.name = none := by
  have reads : ∀ m < 2 ^ 5, m &&& mcapCairnWrite = 0 →
      (m &&& (mcapCairnRead ||| mcapCairnWrite) = 0 ↔ m &&& mcapCairnRead = 0) := by decide
  have hreads := reads l.mcaps l.mcaps_lt hro
  constructor
  · intro h
    by_contra hcon
    simp only [not_or, not_not] at hcon
    obtain ⟨hk, hipc, hread, hname⟩ := hcon
    obtain ⟨ns, hns⟩ := Option.ne_none_iff_exists'.mp hname
    have hl : l.cairnNs = some ns := by
      rw [Launch.cairnNs, appCairnNs, if_neg (mt hreads.mp hread)]
      exact hns
    have hsend : l.Sends (ownCommit l ns 0) := .native hk (l.taskCaps_ipc.mpr hipc) _ _ _
    have hlt := cairnNs_lt hl
    apply h _ hsend 0 blank fun _ => 0
    refine ⟨Or.inl (op_ownCommit hlt (by decide)), Or.inr (Or.inl ?_)⟩
    rw [eval_ownCommit hlt (by decide) hl, next_committed (by rw [next_blank]; decide)]
    exact Nat.succ_ne_self _
  · intro h r hr fuel d w
    cases hr with
    | native hk hipc word sender input =>
      apply not_alters_of_unheld
      apply unheld_of_cairnNs
      rcases h with h | h | h | h
      · exact absurd hk h
      · exact absurd h (l.taskCaps_ipc.mp hipc)
      · rw [Launch.cairnNs, appCairnNs, if_pos (hreads.mpr h)]
      · rw [Launch.cairnNs, appCairnNs, h]
        exact ite_self _
    | put hk hh he hns => exact absurd he (Launch.not_put_of_readOnly hh hro)
    | get hk hh he hns input =>
      rintro ⟨hop, -⟩
      rw [op_getRequest (cairnNs_lt hns)] at hop
      rcases hop with hop | hop | hop <;> cases hop

def readingNote : Launch := ⟨kindElfRiscv64, ascii "note", mcapIpc ||| mcapCairnRead, 0, by decide⟩

/-- The package has no write capability and commits to the note namespace. -/
theorem reading_note_commits :
    readingNote.mcaps &&& mcapCairnWrite = 0 ∧ readingNote.Sends (ownCommit readingNote 0 0) ∧
      Alters (ownCommit readingNote 0 0) blank
        ((serve 0 (ownCommit readingNote 0 0) fun _ => 0).eval blank).2 := by
  have hl : readingNote.cairnNs = some 0 := by decide
  refine ⟨by decide, .native rfl (by decide) _ _ _, Or.inl (by decide), Or.inr (Or.inl ?_)⟩
  rw [eval_ownCommit (by decide) (by decide) hl, next_committed (by rw [next_blank]; decide)]
  exact Nat.succ_ne_self _

/-- The condition fails for this package. -/
theorem read_only_iff_note :
    readingNote.mcaps &&& mcapCairnWrite = 0 ∧
      ¬ ∀ r, readingNote.Sends r → ∀ fuel d w, ¬ Alters r d ((serve fuel r w).eval d).2 := by
  refine ⟨by decide, ?_⟩
  rw [read_only_iff readingNote (by decide)]
  decide

/-! ### Provenance -/

/-- The record in `slot` was written on the way from `d` to `d'`. -/
def Caused (d d' : CairnDisk) (slot : ℕ) : Prop :=
  d' (commitFirstSector + slot) ≠ d (commitFirstSector + slot) ∧ isCommit (record d' slot) = true

/-- The record says what the kernel has derived for the launch. -/
def Stamped (l : Launch) (h : CommitHeader) : Prop :=
  h.intent = l.intent.toNat ∧ h.derived = l.mcaps ∧ h.revClass = sandRevReversible

theorem isCommit_probe (w : Bytes) :
    isCommit (bytes (take sectorSize (setData w (ascii "DEZH-DAEMON-BLOCK-OK")))) = false := by
  have hfirst : ∀ i < 4, bytes (take sectorSize (setData w (ascii "DEZH-DAEMON-BLOCK-OK"))) i =
      ofList (ascii "DEZH-DAEMON-BLOCK-OK") i := by
    intro i hi
    rw [bytes_take (Nat.lt_of_lt_of_le hi (by decide)), setData, copy]
    have hlen : min (ascii "DEZH-DAEMON-BLOCK-OK").length (sectorSize - 1) = 20 := by decide
    rw [hlen, if_pos ⟨Nat.zero_le i, by omega⟩]
    rfl
  rw [isCommit_congr hfirst]
  decide

theorem not_caused_of_refused (h : r.wellFormed = false ∨ r.op = none) (slot : ℕ) :
    ¬ Caused d ((serve fuel r w).eval d).2 slot := by
  intro ⟨hne, _⟩
  apply hne
  unfold serve
  by_cases hw : r.wellFormed = true
  · rw [if_pos hw]
    rcases h with h | h
    · rw [h] at hw
      cases hw
    · rw [h]
      rfl
  · rw [if_neg hw]
    rfl

theorem not_caused_of_op {op : Op} (hop : r.op = some op) (ha : appends op = false) (slot : ℕ) :
    ¬ Caused d ((serve fuel r w).eval d).2 slot := by
  by_cases hw : r.wellFormed = true
  swap
  · exact not_caused_of_refused (Or.inl (Bool.eq_false_of_not_eq_true hw)) slot
  intro ⟨hne, hcommit⟩
  have hemits : (dispatch fuel op r w).Emits .none
      (fun s b => ∀ slot, s = commitFirstSector + slot → isCommit (bytes b) = false) d := by
    cases hn : namesSector op with
    | false =>
      apply emits_dispatch _ _ _ hn
      · intro s b hs slot heq
        have : s ≤ 19 := by rcases hs with hs | hs <;> omega
        have : commitFirstSector = 1601 := rfl
        omega
      · intro b slot heq
        exact absurd heq.symm (slot_ne_super slot)
      · intro happ
        rw [ha] at happ
        cases happ
    | true =>
      cases op with
      | bwrite =>
        apply emits_answered
        apply emits_access_write
        exact fun _ _ => isCommit_probe w
      | pkgStoreInit =>
        apply emits_answered
        apply emits_access_write
        intro slot heq
        have : pkgStoreMarkerSector = 24 := rfl
        have : commitFirstSector = 1601 := rfl
        omega
      | pkgWrite area =>
        apply emits_answered
        unfold pkgWrite
        split_ifs with hr
        · trivial
        · apply emits_access_write
          intro slot heq
          have : area.last ≤ 1599 := by cases area <;> decide
          have : commitFirstSector = 1601 := rfl
          omega
      | _ => cases hn
  have hexec : (dispatch fuel op r w).Exec .none d
      ((dispatch fuel op r w).eval d).1 ((serve fuel r w).eval d).2 := by
    rw [serve_eq hw hop, eval_bind]
    exact exec_eval .none (dispatch fuel op r w) d
  cases hemits.changed hexec (commitFirstSector + slot) with
  | inl h => exact hne h
  | inr h =>
    rw [record, h slot rfl] at hcommit
    cases hcommit

theorem caused_by_commit (hw : r.wellFormed = true) (hop : r.op = some .cairnCommit) {slot : ℕ}
    (h : Caused d ((serve fuel r w).eval d).2 slot) :
    (header (record ((serve fuel r w).eval d).2 slot)).intent = r.sandIntent.toNat ∧
      (header (record ((serve fuel r w).eval d).2 slot)).derived = r.sandDerived.toNat ∧
      (header (record ((serve fuel r w).eval d).2 slot)).revClass = r.sandRevclass := by
  rw [eval_serve_commit hw hop] at h ⊢
  split_ifs at h ⊢ with hopen
  · obtain ⟨hne, -⟩ := h
    rw [committed_slot] at hne
    split_ifs at hne with hslot
    · have hi := r.sandIntent.toNat_lt
      have hd := r.sandDerived.toNat_lt
      rw [record, committed_slot, if_pos hslot, newCommit, header_commitSector, header_encode]
      exact ⟨Nat.mod_eq_of_lt hi, Nat.mod_eq_of_lt hd, rfl⟩
    · exact absurd rfl hne
  · exact absurd (settle_of_ne d (slot_ne_super slot)) h.1

theorem not_caused_of_unheld (hno : ∀ ns < nsMax, holdsNs r.caps ns = false) (slot : ℕ) :
    ¬ Caused d ((serve fuel r w).eval d).2 slot := by
  by_cases hw : r.wellFormed = true
  · cases hop : r.op with
    | none => exact not_caused_of_refused (Or.inr hop) slot
    | some op =>
      cases ha : appends op with
      | false => exact not_caused_of_op hop ha slot
      | true =>
        intro ⟨hne, _⟩
        apply @not_alters_of_unheld d r w fuel hno
        refine ⟨?_, Or.inr (Or.inr ⟨slot, hne⟩)⟩
        cases op with
        | cairnCommit => exact Or.inl hop
        | sfarRollback => exact Or.inr (Or.inr hop)
        | _ => cases ha
  · exact not_caused_of_refused (Or.inl (Bool.eq_false_of_not_eq_true hw)) slot

section
variable {l : Launch} {data : List UInt8} (hns : ns < 5)
include hns

theorem putRequest_fields :
    (l.putRequest ns data).wellFormed = true ∧ (l.putRequest ns data).op = some .cairnCommit ∧
      (l.putRequest ns data).sandIntent.toNat = l.intent.toNat ∧
      (l.putRequest ns data).sandDerived.toNat = l.mcaps ∧
      (l.putRequest ns data).sandRevclass = sandRevReversible := by
  obtain ⟨hw, hop, -, -, hi, hd, hc⟩ := commitWord_fields (r := l.putRequest ns data) (by omega) l.mcaps_lt
    (by decide) l.intent rfl
  exact ⟨hw, hop, hi, hd, hc⟩

end

theorem caused_ownCommit {l : Launch} {id : ℕ} (hns : ns < 5) (hid : id < 2 ^ 16)
    (hl : l.cairnNs = some ns) :
    Caused blank ((serve fuel (ownCommit l ns id) w).eval blank).2 0 := by
  have hcommit : ∀ {len intent derived revClass}, isCommit (bytes (newCommit blank (fun _ => 0) ns
      len firstForegroundTask intent derived revClass)) = true := isCommit_commitSector
  rw [eval_ownCommit hns hid hl, Caused, record, committed_slot, if_pos next_blank.symm]
  refine ⟨fun heq => ?_, hcommit⟩
  have hblank := heq ▸ hcommit
  revert hblank
  decide

/-- Every record a package causes carries the provenance of its launch, on any
store, exactly when it is no native package with a namespace and the IPC
capability. -/
theorem provenance_iff (l : Launch) :
    (∀ r, l.Sends r → ∀ fuel d w slot, Caused d ((serve fuel r w).eval d).2 slot →
      Stamped l (header (record ((serve fuel r w).eval d).2 slot))) ↔
      l.kind ≠ kindElfRiscv64 ∨ l.mcaps &&& mcapIpc = 0 ∨ l.cairnNs = none := by
  constructor
  · intro h
    by_contra hcon
    simp only [not_or, not_not] at hcon
    obtain ⟨hk, hipc, hname⟩ := hcon
    obtain ⟨ns, hl⟩ := Option.ne_none_iff_exists'.mp hname
    have hlt := cairnNs_lt hl
    -- an intent other than the one of the launch
    obtain ⟨id, hid, hforged⟩ : ∃ id < 2 ^ 16, id ≠ l.intent.toNat := by
      by_cases h0 : l.intent.toNat = 0
      · exact ⟨1, by decide, by omega⟩
      · exact ⟨0, by decide, fun he => h0 he.symm⟩
    have hsend : l.Sends (ownCommit l ns id) := .native hk (l.taskCaps_ipc.mpr hipc) _ _ _
    have hw : (ownCommit l ns id).wellFormed = true :=
      wellFormed_typedWord (by decide) hid (by decide) (by omega) rfl
    have hcaused : Caused blank ((serve 0 (ownCommit l ns id) fun _ => 0).eval blank).2 0 :=
      caused_ownCommit hlt hid hl
    have hstamp := (h _ hsend 0 blank (fun _ => 0) 0 hcaused).1
    rw [(caused_by_commit hw (op_ownCommit hlt hid) hcaused).1, sandIntent_ownCommit hlt hid] at hstamp
    exact hforged hstamp
  · intro h r hr fuel d w slot hcaused
    cases hr with
    | native hk hipc word sender input =>
      have hno : l.cairnNs = none := by
        rcases h with h | h | h
        · exact absurd hk h
        · exact absurd h (l.taskCaps_ipc.mp hipc)
        · exact h
      exact absurd hcaused (not_caused_of_unheld (unheld_of_cairnNs hno) slot)
    | put hk hh he hns =>
      obtain ⟨hw, hop, hi, hd, hc⟩ := @putRequest_fields _ l _ (cairnNs_lt hns)
      obtain ⟨h1, h2, h3⟩ := caused_by_commit hw hop hcaused
      exact ⟨h1.trans hi, h2.trans hd, h3.trans hc⟩
    | get hk hh he hns input =>
      have hop := op_getRequest (cairnNs_lt hns) input
      exact absurd hcaused (not_caused_of_op hop rfl slot)

def forgingNote : Launch :=
  ⟨kindElfRiscv64, ascii "note", mcapIpc ||| mcapCairnRead ||| mcapCairnWrite, 5, by decide⟩

/-- The ledger says that the effect belongs to intent 3. -/
theorem forging_note_recorded :
    forgingNote.Sends (ownCommit forgingNote 0 3) ∧
      Caused blank ((serve 0 (ownCommit forgingNote 0 3) fun _ => 0).eval blank).2 0 ∧
      (header (record ((serve 0 (ownCommit forgingNote 0 3) fun _ => 0).eval blank).2 0)).intent = 3 := by
  have hcaused : Caused blank ((serve 0 (ownCommit forgingNote 0 3) fun _ => 0).eval blank).2 0 := by
    constructor
    · intro h
      have := congrFun h ⟨0, by decide⟩
      revert this
      decide +kernel
    · decide +kernel
  refine ⟨.native rfl (by decide) _ _ _, hcaused, by decide +kernel⟩

end Dezh.PackageAuthority

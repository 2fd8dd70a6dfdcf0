import Dezh.InstallRecovery

/-!
# Repeated recovery

A recovery that was cut off is run again on the store it leaves behind. As long as the
registry on disk is the old one, the second run decides as the first one did. Once the
new registry is written it finds a state that the first run has set. A pending package
that the first run has committed is not pending any more, so the second run sets it
aside. Once the first sector of the journal is cleared, the journal is empty or it is
corrupt, and a manual recovery of a corrupt journal sets all pending slots aside. In
every other case the second run ends where the first one would have ended.
-/
namespace Dezh.RecoveryRepeat
open BlockProgram Program ByteLayout CairnFormat PackageFormat PackageStore PackageCodec
  PackageAreas PackageCommands InstallTrace InstallRecovery StorePhases

variable {reg : Bytes} {img : Image} {r : JournalRecord} {d : Disk Sector} {manual : Bool} {n : ℕ}
variable {m : ℕ}

section
variable {i : ℕ}

def PendingState (state : UInt8) : Prop := state = statePendingInstall ∨ state = statePendingRemove

instance (state : UInt8) : Decidable (PendingState state) := instDecidableOr

theorem not_pendingState_quarantined : ¬ PendingState stateQuarantined := by decide

theorem quarantine_foldl (n : ℕ) :
    (List.range n).foldl (fun reg slot =>
      if entryState reg slot = statePendingInstall ∨ entryState reg slot = statePendingRemove
      then setEntryState reg slot stateQuarantined else reg) reg i =
      if i % entrySize = 0 ∧ i < n * entrySize ∧ PendingState (reg i) then stateQuarantined
      else reg i := by
  induction n generalizing i with
  | zero => rw [if_neg (by omega)]; rfl
  | succ n ih =>
    rw [List.range_succ, List.foldl_append, List.foldl_cons, List.foldl_nil]
    -- the passes before this one have not touched its entry
    have hentry : entryState ((List.range n).foldl (fun reg slot =>
        if entryState reg slot = statePendingInstall ∨ entryState reg slot = statePendingRemove
        then setEntryState reg slot stateQuarantined else reg) reg) n = reg (entryOff n) := by
      rw [entryState, ih, if_neg (by unfold entryOff; omega)]
    rw [hentry]
    by_cases hi : i = entryOff n
    · subst hi
      have hmod : entryOff n % entrySize = 0 := Nat.mul_mod_left n entrySize
      have hlt : entryOff n < (n + 1) * entrySize := by
        unfold entryOff entrySize
        omega
      split_ifs with hpending hall hall
      · exact putU8_self
      · exact absurd ⟨hmod, hlt, hpending⟩ hall
      · exact absurd hall.2.2 hpending
      · exact hentry
    · have hbelow : i % entrySize = 0 → (i < (n + 1) * entrySize ↔ i < n * entrySize) := by
        unfold entryOff at hi
        unfold entrySize at hi ⊢
        omega
      have hcond : (i % entrySize = 0 ∧ i < (n + 1) * entrySize ∧ PendingState (reg i)) ↔
          (i % entrySize = 0 ∧ i < n * entrySize ∧ PendingState (reg i)) :=
        and_congr_right fun hmod => and_congr_left fun _ => hbelow hmod
      simp only [hcond]
      rw [← ih]
      split_ifs
      · exact setEntryState_of_ne hi
      · rfl

theorem quarantinePendingSlots_apply : quarantinePendingSlots reg i =
    if i % entrySize = 0 ∧ i < registrySize ∧ PendingState (reg i) then stateQuarantined
    else reg i := quarantine_foldl maxPkgs

end

section
variable {v : List Phase × Bytes}

/-- A pending package is committed. -/
def Commits (img : Image) (r : JournalRecord) : Prop :=
  r.phase = phaseRegistryPending ∧ entryState img.registry r.slot = statePendingInstall ∧
    (r.op = opReplace ∧ verified img.blobs (stageBlobSector r.slot) r = true ∨
      r.op = opInstall ∧ verified img.blobs (slotBlobSector r.slot) r = true)

/-- What a recovery can do with a record. -/
inductive Decision (img : Image) (r : JournalRecord) : List Phase × Bytes → Prop
  | undo (hop : r.op = opInstall ∨ r.op = opReplace)
      (hphase : r.phase = phaseStarted ∨ r.phase = phaseBlobWritten) :
      Decision img r ([], rollbackSlotToOldState img.registry r)
  | promote (hop : r.op = opReplace) (hphase : r.phase = phaseRegistryPending)
      (hstate : entryState img.registry r.slot = statePendingInstall)
      (hverified : verified img.blobs (stageBlobSector r.slot) r = true) :
      Decision img r ([.blob (slotBlobSector r.slot) (blobAt img.blobs (stageBlobSector r.slot) r.rawLen)],
        setEntryState img.registry r.slot stateActive)
  | commit (hop : r.op = opInstall) (hphase : r.phase = phaseRegistryPending)
      (hstate : entryState img.registry r.slot = statePendingInstall)
      (hverified : verified img.blobs (slotBlobSector r.slot) r = true) :
      Decision img r ([], setEntryState img.registry r.slot stateActive)
  | quarantine (hop : r.op = opInstall ∨ r.op = opReplace) (hphase : r.phase = phaseRegistryPending)
      (hrefused : ¬ Commits img r) :
      Decision img r ([], setEntryState img.registry r.slot stateQuarantined)
  | restore (hop : r.op = opRollback) (hphase : r.phase = phaseRegistryPending)
      (hl : r.rawLen ≤ maxRawBytes)
      (hcrc : checksum (blobAt img.blobs (previousBlobSector r.slot) r.rawLen) = r.rawCrc) :
      Decision img r
        ([.blob (slotBlobSector r.slot) (blobAt img.blobs (previousBlobSector r.slot) r.rawLen)],
          setEntryState img.registry r.slot stateActive)
  | remove (hop : r.op = opRemove) :
      Decision img r ([], setEntryState img.registry r.slot stateRemoved)

theorem decision_of_verdict (h : img.verdict r = some v) : Decision img r v := by
  unfold Image.verdict at h
  simp only at h
  split_ifs at h with hop hundo hphase hpromote hcommit hrollback hrestore hremove
  · obtain rfl := Option.some.inj h
    exact .undo hop hundo
  · obtain rfl := Option.some.inj h
    exact .promote hpromote.1 hphase hpromote.2.1 hpromote.2.2
  · obtain rfl := Option.some.inj h
    exact .commit hcommit.1 hphase hcommit.2.1 hcommit.2.2
  · obtain rfl := Option.some.inj h
    refine .quarantine hop hphase ?_
    rintro ⟨-, hstate, ⟨hop', hverified⟩ | ⟨hop', hverified⟩⟩
    · exact hpromote ⟨hop', hstate, hverified⟩
    · exact hcommit ⟨hop', hstate, hverified⟩
  · obtain rfl := Option.some.inj h
    exact .restore hrollback hrestore.1 hrestore.2.1 hrestore.2.2
  · obtain rfl := Option.some.inj h
    exact .remove hremove

theorem Decision.of_outside (h : Decision img r v) {i : ℕ}
    (hi : i < entryOff r.slot ∨ entryOff r.slot + entrySize ≤ i) : v.2 i = img.registry i := by
  have hset {state : UInt8} : setEntryState img.registry r.slot state i = img.registry i :=
    setEntryState_of_outside hi
  have hundo : rollbackSlotToOldState img.registry r i = img.registry i := by
    unfold rollbackSlotToOldState
    split_ifs
    · exact copy_of_outside hi
    · exact hset
  cases h with
  | undo => exact hundo
  | promote | commit | quarantine | restore | remove => exact hset

end

section
variable {k : Kernel}

def recovered (img : Image) (manual : Bool) : Image :=
  (img.plan manual).elim img fun l => complete l img

def cut (img : Image) (manual : Bool) (n : ℕ) : Image :=
  (img.plan manual).elim img fun l => crash l n img

theorem placed_plan {img : Image} {l : List Phase} (h : img.plan manual = some l) :
    ∀ ph ∈ l, ph.Placed := by
  have hcommit (reg : Bytes) : ∀ ph ∈ commit reg, ph.Placed := by simp [commit, Phase.Placed]
  unfold Image.plan at h
  split at h
  · obtain rfl := Option.some.inj h
    exact fun ph hph => absurd hph List.not_mem_nil
  · split_ifs at h
    obtain rfl := Option.some.inj h
    exact hcommit _
  · rename_i r _
    obtain ⟨v, hv, rfl⟩ := Option.map_eq_some_iff.mp h
    have hbase : 64 ≤ slotBlobSector r.slot := le_slotBlobSector r.slot
    have hfirst : ∀ ph ∈ v.1, ph.Placed := by
      cases decision_of_verdict hv <;> simp [Phase.Placed, hbase]
    intro ph hph
    rcases List.mem_append.mp hph with hph | hph
    · exact hfirst ph hph
    · exact hcommit _ ph hph

theorem trace_recoverStore (k : Kernel) (manual : Bool) (d : Disk Sector) :
    ∃ a, (recoverStore k manual).Trace d a (writesOf (((imageOf d).plan manual).getD [])) := by
  let k1 : Kernel := { k with registry := registryOf d }
  have hread : (readRegistry k).Trace d (true, k1) [] := trace_readRegistry
  have hreg : k1.registry = registryOf d := rfl
  cases h : (imageOf d).plan manual with
  | none =>
    have htrace := trace_recover_refused hreg h
    exact ⟨_, hread.bind_nil htrace⟩
  | some l =>
    obtain ⟨k', htrace, -⟩ := trace_recover_plan hreg h
    exact ⟨_, hread.bind_nil htrace⟩

theorem imageOf_recoverStore (k : Kernel) (manual : Bool) (d : Disk Sector) :
    imageOf ((recoverStore k manual).eval d).2 = recovered (imageOf d) manual := by
  obtain ⟨a, htrace⟩ := trace_recoverStore k manual d
  rw [htrace.disk]
  unfold recovered
  cases h : (imageOf d).plan manual with
  | none => rfl
  | some l => exact imageOf_complete (placed_plan h)

theorem imageOf_crashAfter (k : Kernel) (manual : Bool) (d : Disk Sector) (n : ℕ) :
    imageOf (crashAfter n (recoverStore k manual) d) = cut (imageOf d) manual n := by
  obtain ⟨a, htrace⟩ := trace_recoverStore k manual d
  rw [htrace.crashAfter]
  unfold cut
  cases h : (imageOf d).plan manual with
  | none =>
    rw [Option.getD_none, writesOf_nil, List.take_nil]
    rfl
  | some l => exact imageOf_crash (placed_plan h)

end

section
variable {v : List Phase × Bytes}

theorem crash_commit : crash (commit reg) n img =
    ⟨overlay (min (n - 3) journalSectors) (fun _ => 0) img.journal,
      overlay (min n registrySectors) reg img.registry, img.blobs⟩ := by
  simp only [commit, crash, Phase.after, Phase.size, Nat.sub_sub, registrySectors]

theorem complete_commit : complete (commit reg) img =
    ⟨overlay journalSectors (fun _ => 0) img.journal, overlay registrySectors reg img.registry,
      img.blobs⟩ := by
  simp only [complete, commit, List.foldl_cons, List.foldl_nil, Phase.after, Phase.size, min_self]

theorem Decision.copies (h : Decision img r v) :
    v.1 = [] ∨ ∃ raw, v.1 = [.blob (slotBlobSector r.slot) raw] := by
  cases h with
  | undo | commit | quarantine | remove => exact .inl rfl
  | promote | restore => exact .inr ⟨_, rfl⟩

theorem Decision.crash_eq (h : Decision img r v) (hs : r.slot < maxPkgs) :
    let c := (writesOf v.1).length
    crash (v.1 ++ StorePhases.commit v.2) n img =
      ⟨overlay (min (n - (c + 3)) journalSectors) (fun _ => 0) img.journal,
        if n < c + entryWrites r.slot then img.registry else v.2,
        replay img.blobs ((writesOf v.1).take n)⟩ := by
  have hregistry {m : ℕ} : overlay (min m registrySectors) v.2 img.registry =
      if m < entryWrites r.slot then img.registry else v.2 :=
    overlay_registry hs fun i hi => h.of_outside hi
  have hentry := entryWrites_bounds hs
  rcases h.copies with hv | ⟨raw, hv⟩
  · rw [hv, List.nil_append, crash_commit, hregistry]
    simp only [writesOf_nil, List.length_nil, Nat.zero_add, List.take_nil, replay_nil]
  · rw [hv, List.singleton_append, crash, crash_commit]
    have hlength : (blobWrites (slotBlobSector r.slot) raw).length = sectorsFor raw.length :=
      length_stripe
    have hcond : n - sectorsFor raw.length < entryWrites r.slot ↔
        n < sectorsFor raw.length + entryWrites r.slot := by omega
    simp only [Phase.after, Phase.size, hregistry, Nat.sub_sub, writesOf_cons, writesOf_nil,
      List.append_nil, Phase.writes, hlength, hcond]

theorem Decision.complete_eq (h : Decision img r v) (hs : r.slot < maxPkgs) :
    complete (v.1 ++ StorePhases.commit v.2) img =
      ⟨overlay journalSectors (fun _ => 0) img.journal, v.2, replay img.blobs (writesOf v.1)⟩ := by
  have hregistry : overlay registrySectors v.2 img.registry = v.2 := by
    have hoverlay := overlay_registry (m := registrySectors) hs fun i hi => h.of_outside hi
    have hentry := entryWrites_bounds hs
    rw [min_self, if_neg (by unfold registrySectors; omega)] at hoverlay
    exact hoverlay
  rcases h.copies with hv | ⟨raw, hv⟩
  · rw [hv, List.nil_append, complete_commit, hregistry]
    rfl
  · have hfirst : complete ([.blob (slotBlobSector r.slot) raw] ++ StorePhases.commit v.2) img =
        complete (StorePhases.commit v.2) ((Phase.blob (slotBlobSector r.slot) raw).after
          (sectorsFor raw.length) img) := rfl
    have hall : (blobWrites (slotBlobSector r.slot) raw).take (sectorsFor raw.length) =
        blobWrites (slotBlobSector r.slot) raw := by
      rw [List.take_of_length_le]
      rw [blobWrites, length_stripe]
    rw [hv, hfirst, complete_commit]
    simp only [Phase.after, hregistry, hall, writesOf_cons, writesOf_nil, List.append_nil,
      Phase.writes]

theorem Decision.rewrite (h : Decision img r v) (b : Disk Sector) :
    replay (replay b ((writesOf v.1).take n)) (writesOf v.1) = replay b (writesOf v.1) := by
  rcases h.copies with hv | ⟨raw, hv⟩
  · rw [hv, writesOf_nil, List.take_nil]
    rfl
  · rw [hv, writesOf_cons, writesOf_nil, List.append_nil]
    funext s
    unfold Phase.writes blobWrites
    rw [replay_stripe, replay_stripe]
    split_ifs with hs
    · rfl
    · rw [replay_take_stripe, if_neg (by omega)]

/-- The journal bytes that are not cleared yet. -/
def Remains (raw : Bytes) (m : ℕ) : Prop :=
  ∃ i < journalSize, m * sectorSize ≤ i ∧ raw i ≠ 0

theorem decode_of_cleared {raw : Bytes} (h : ¬ Remains raw m) :
    decodeJournal (overlay (min m journalSectors) (fun _ => 0) raw) = .empty := by
  have hzero : (toList (overlay (min m journalSectors) (fun _ => 0) raw) 0 journalSize).all
      (· == 0) = true := by
    rw [List.all_eq_true]
    intro x hx
    obtain ⟨i, hi, rfl⟩ := List.mem_map.mp hx
    have hi' := List.mem_range.mp hi
    rw [Nat.zero_add, beq_iff_eq]
    unfold overlay
    split_ifs with hlt
    · rfl
    · by_contra hne
      refine h ⟨i, hi', ?_, hne⟩
      unfold journalSectors at hlt
      unfold journalSize journalSectors at hi'
      unfold sectorSize at *
      omega
  rw [decodeJournal, if_pos hzero]

theorem decode_of_remains {raw : Bytes} (hm : 0 < m) (h : Remains raw m) :
    decodeJournal (overlay (min m journalSectors) (fun _ => 0) raw) = .corrupt .badMagic := by
  obtain ⟨i, hi, hle, hne⟩ := h
  have hsome : ¬ (toList (overlay (min m journalSectors) (fun _ => 0) raw) 0 journalSize).all
      (· == 0) = true := by
    rw [List.all_eq_true]
    intro hall
    have hzero := hall _ (List.mem_map.mpr ⟨i, List.mem_range.mpr hi, rfl⟩)
    rw [Nat.zero_add, beq_iff_eq, overlay, if_neg ?_] at hzero
    · exact hne hzero
    · have hmin : min m journalSectors * sectorSize ≤ m * sectorSize :=
        Nat.mul_le_mul_right _ (Nat.min_le_left _ _)
      omega
  have hmagic : toList (overlay (min m journalSectors) (fun _ => 0) raw) 0 4 ≠ journalMagic := by
    have hzero : toList (overlay (min m journalSectors) (fun _ => 0) raw) 0 4 =
        toList (fun _ => 0) 0 4 := by
      refine toList_congr fun i hi => ?_
      rw [overlay, if_pos ?_]
      unfold journalSectors sectorSize
      omega
    rw [hzero]
    decide
  rw [decodeJournal, if_neg hsome, if_pos hmagic]

end

section
variable {v v' : List Phase × Bytes}

/-- Registry and blob areas agree. -/
def Same (a b : Image) : Prop := a.registry = b.registry ∧ a.blobs = b.blobs

theorem recovered_of_verdict (manual : Bool) (hdecode : decodeJournal img.journal = .valid r)
    (hv : img.verdict r = some v) :
    (recovered img manual).registry = v.2 ∧
      (recovered img manual).blobs = replay img.blobs (writesOf v.1) := by
  have hplan : img.plan manual = some (v.1 ++ commit v.2) := by
    unfold Image.plan
    simp only [hdecode, hv, Option.map_some]
  rw [recovered, hplan, Option.elim_some,
    (decision_of_verdict hv).complete_eq (decodeJournal_slot hdecode)]
  exact ⟨rfl, rfl⟩

theorem cut_of_verdict (manual : Bool) (n : ℕ) (hdecode : decodeJournal img.journal = .valid r)
    (hv : img.verdict r = some v) :
    cut img manual n =
      ⟨overlay (min (n - ((writesOf v.1).length + 3)) journalSectors) (fun _ => 0) img.journal,
        if n < (writesOf v.1).length + entryWrites r.slot then img.registry else v.2,
        replay img.blobs ((writesOf v.1).take n)⟩ := by
  have hplan : img.plan manual = some (v.1 ++ commit v.2) := by
    unfold Image.plan
    simp only [hdecode, hv, Option.map_some]
  rw [cut, hplan, Option.elim_some]
  exact (decision_of_verdict hv).crash_eq (decodeJournal_slot hdecode)

theorem same_iff_of_verdict (hdecode : decodeJournal img.journal = .valid r)
    (hv : img.verdict r = some v) (hn : n < (writesOf v.1).length + 4)
    (hv' : (cut img manual n).verdict r = some v') :
    Same (recovered (cut img manual n) manual) (recovered img manual) ↔
      v'.2 = v.2 ∧ replay (cut img manual n).blobs (writesOf v'.1) =
        replay img.blobs (writesOf v.1) := by
  have hjournal : (cut img manual n).journal = img.journal := by
    rw [cut_of_verdict manual n hdecode hv]
    simp only
    rw [show n - ((writesOf v.1).length + 3) = 0 by omega, Nat.zero_min, overlay_zero]
  have hdecode' : decodeJournal (cut img manual n).journal = .valid r := by
    rw [hjournal, hdecode]
  obtain ⟨hreg, hblobs⟩ := recovered_of_verdict manual hdecode hv
  obtain ⟨hreg', hblobs'⟩ := recovered_of_verdict manual hdecode' hv'
  rw [Same, hreg, hblobs, hreg', hblobs']

theorem verified_congr {b b' : Disk Sector} {base : ℕ}
    (h : blobAt b base r.rawLen = blobAt b' base r.rawLen) : verified b base r = verified b' base r := by
  unfold verified
  rw [h]

theorem verdict_congr {img' : Image} (hregistry : img'.registry = img.registry)
    (hblobs : img'.blobs = img.blobs) : img'.verdict r = img.verdict r := by
  unfold Image.verdict
  rw [hregistry, hblobs]

theorem same_of_old (hdecode : decodeJournal img.journal = .valid r)
    (hv : img.verdict r = some v) (hn : n < (writesOf v.1).length + entryWrites r.slot) :
    Same (recovered (cut img manual n) manual) (recovered img manual) := by
  have hs := decodeJournal_slot hdecode
  have hentry := entryWrites_bounds hs
  have hdecision := decision_of_verdict hv
  have hcut := cut_of_verdict manual n hdecode hv
  rw [if_pos hn] at hcut
  have hblobs : (cut img manual n).blobs = replay img.blobs ((writesOf v.1).take n) := by rw [hcut]
  have hregistry : (cut img manual n).registry = img.registry := by rw [hcut]
  have hkept (hnone : v.1 = []) : (cut img manual n).blobs = img.blobs := by
    rw [hblobs, hnone, writesOf_nil, List.take_nil, replay_nil]
  have hverdict : (cut img manual n).verdict r = some v := by
    cases hdecision with
    | promote hop hphase hstate hverified =>
      have hl := (of_decide_eq_true (Bool.and_eq_true_iff.mp hverified).1).2.1
      have hstaged : blobAt (cut img manual n).blobs (stageBlobSector r.slot) r.rawLen =
          blobAt img.blobs (stageBlobSector r.slot) r.rawLen := by
        rw [hblobs, writesOf_cons, writesOf_nil, List.append_nil]
        exact blobAt_of_disjoint (length_toList.trans_le hl) hl (.inr (current_le_stage hs))
      have hstate' : entryState (cut img manual n).registry r.slot = statePendingInstall := by
        rw [hregistry, hstate]
      have hverified' := (verified_congr hstaged).trans hverified
      rw [verdict_promote (cut img manual n) r hop hphase hstate' hverified', hstaged, hregistry]
    | restore hop hphase hl hcrc =>
      have hprevious : blobAt (cut img manual n).blobs (previousBlobSector r.slot) r.rawLen =
          blobAt img.blobs (previousBlobSector r.slot) r.rawLen := by
        rw [hblobs, writesOf_cons, writesOf_nil, List.append_nil]
        exact blobAt_of_disjoint (length_toList.trans_le hl) hl (.inr (current_le_previous hs))
      have hcrc' : checksum (blobAt (cut img manual n).blobs (previousBlobSector r.slot) r.rawLen) =
          r.rawCrc := by rw [hprevious, hcrc]
      rw [verdict_restore (cut img manual n) r hop hphase hl hcrc', hprevious, hregistry]
    | undo | commit | quarantine | remove => exact (verdict_congr hregistry (hkept rfl)).trans hv
  rw [same_iff_of_verdict hdecode hv (by omega) hverdict, hblobs]
  exact ⟨rfl, hdecision.rewrite img.blobs⟩

theorem rollback_rollback {reg : Bytes} :
    rollbackSlotToOldState (rollbackSlotToOldState reg r) r = rollbackSlotToOldState reg r := by
  unfold rollbackSlotToOldState
  split_ifs
  · refine clearRegistrySlot_self fun i hi => ?_
    exact copy_inside hi
  · exact setEntryState_setEntryState

section
variable {img' : Image} (h : Decision img r v) (hregistry : img'.registry = v.2)
include h hregistry

theorem Decision.again (hs : r.slot < maxPkgs)
    (hblobs : img'.blobs = replay img.blobs (writesOf v.1)) (hrefused : ¬ Commits img r) :
    img'.verdict r = some v := by
  cases h with
  | undo hop hphase => rw [verdict_undo img' r hop hphase, hregistry, rollback_rollback]
  | promote hop hphase hstate hverified =>
    exact absurd ⟨hphase, hstate, .inl ⟨hop, hverified⟩⟩ hrefused
  | commit hop hphase hstate hverified =>
    exact absurd ⟨hphase, hstate, .inr ⟨hop, hverified⟩⟩ hrefused
  | quarantine hop hphase =>
    have hstate : entryState img'.registry r.slot ≠ statePendingInstall := by
      rw [hregistry, entryState_setEntryState]
      decide
    rw [verdict_quarantine img' r hop hphase hstate, hregistry, setEntryState_setEntryState]
  | restore hop hphase hl hcrc =>
    have hprevious : blobAt img'.blobs (previousBlobSector r.slot) r.rawLen =
        blobAt img.blobs (previousBlobSector r.slot) r.rawLen := by
      rw [hblobs, writesOf_cons, writesOf_nil, List.append_nil]
      exact blobAt_blobWrites_of_disjoint (length_toList.trans_le hl) hl
        (.inr (current_le_previous hs))
    have hcrc' : checksum (blobAt img'.blobs (previousBlobSector r.slot) r.rawLen) = r.rawCrc := by
      rw [hprevious, hcrc]
    rw [verdict_restore img' r hop hphase hl hcrc', hprevious, hregistry,
      setEntryState_setEntryState]
  | remove hop => rw [verdict_remove img' r hop, hregistry, setEntryState_setEntryState]

theorem Decision.set_aside (hcommits : Commits img r) :
    entryState v.2 r.slot = stateActive ∧
      img'.verdict r = some ([], setEntryState v.2 r.slot stateQuarantined) := by
  obtain ⟨hpending, -, hverified⟩ := id hcommits
  have hop' : r.op = opInstall ∨ r.op = opReplace := by
    rcases hverified with ⟨hop, -⟩ | ⟨hop, -⟩
    · exact .inr hop
    · exact .inl hop
  have hactive (hv : v.2 = setEntryState img.registry r.slot stateActive) :
      entryState v.2 r.slot = stateActive ∧
        img'.verdict r = some ([], setEntryState v.2 r.slot stateQuarantined) := by
    have hstate : entryState img'.registry r.slot ≠ statePendingInstall := by
      rw [hregistry, hv, entryState_setEntryState]
      decide
    rw [verdict_quarantine img' r hop' hpending hstate, hregistry]
    exact ⟨by rw [hv, entryState_setEntryState], rfl⟩
  cases h with
  | undo hop hphase =>
    rw [hpending] at hphase
    exact absurd hphase (by decide)
  | promote | commit => exact hactive rfl
  | quarantine hop hphase hrefused => exact absurd hcommits hrefused
  | restore hop | remove hop =>
    rw [hop] at hop'
    exact absurd hop' (by decide)

end

theorem same_iff_of_new (hdecode : decodeJournal img.journal = .valid r)
    (hv : img.verdict r = some v) (hn : (writesOf v.1).length + entryWrites r.slot ≤ n)
    (hn' : n < (writesOf v.1).length + 4) :
    Same (recovered (cut img manual n) manual) (recovered img manual) ↔ ¬ Commits img r := by
  have hs := decodeJournal_slot hdecode
  have hentry := entryWrites_bounds hs
  have hdecision := decision_of_verdict hv
  have hcut := cut_of_verdict manual n hdecode hv
  rw [if_neg (by omega), List.take_of_length_le (by omega)] at hcut
  have hblobs : (cut img manual n).blobs = replay img.blobs (writesOf v.1) := by rw [hcut]
  have hregistry : (cut img manual n).registry = v.2 := by rw [hcut]
  by_cases hcommits : Commits img r
  · obtain ⟨hactive, hverdict⟩ := hdecision.set_aside hregistry hcommits
    rw [same_iff_of_verdict hdecode hv hn' hverdict]
    refine iff_of_false (fun hsame => ?_) (not_not_intro hcommits)
    have hstate := congrArg (entryState · r.slot) hsame.1
    rw [hactive, entryState_setEntryState] at hstate
    exact absurd hstate (by decide)
  · have hverdict := hdecision.again hregistry hs hblobs hcommits
    have hrewrite := hdecision.rewrite (n := (writesOf v.1).length) img.blobs
    rw [List.take_length] at hrewrite
    rw [same_iff_of_verdict hdecode hv hn' hverdict, hblobs]
    exact iff_of_true ⟨rfl, hrewrite⟩ hcommits

theorem quarantinePendingSlots_eq_self_iff {reg : Bytes} :
    quarantinePendingSlots reg = reg ↔ ¬ ∃ t < maxPkgs, PendingState (entryState reg t) := by
  constructor
  · rintro h ⟨t, ht, hpending⟩
    have hbyte := congrFun h (entryOff t)
    have hmod : entryOff t % entrySize = 0 := Nat.mul_mod_left t entrySize
    have hlt : entryOff t < registrySize :=
      (Nat.lt_add_of_pos_right (by decide)).trans_le (entryOff_lt ht)
    rw [quarantinePendingSlots_apply, if_pos ⟨hmod, hlt, hpending⟩] at hbyte
    have hquarantined : entryState reg t = stateQuarantined := hbyte.symm
    rw [hquarantined] at hpending
    exact not_pendingState_quarantined hpending
  · intro h
    funext i
    rw [quarantinePendingSlots_apply, if_neg]
    rintro ⟨hmod, hlt, hpending⟩
    refine h ⟨i / entrySize, ?_, ?_⟩
    · have hsize : registrySize = 1024 := rfl
      unfold entrySize maxPkgs
      omega
    · have hoff : entryOff (i / entrySize) = i := Nat.div_mul_cancel (Nat.dvd_of_mod_eq_zero hmod)
      rw [entryState, hoff]
      exact hpending

theorem overlay_quarantine {reg : Bytes} :
    overlay registrySectors (quarantinePendingSlots reg) reg = quarantinePendingSlots reg := by
  refine overlay_of_le fun i hi => ?_
  have hsize : registrySectors * sectorSize = registrySize := rfl
  rw [quarantinePendingSlots_apply, if_neg fun h => by omega]

theorem recovered_of_empty (h : decodeJournal img.journal = .empty) :
    recovered img manual = img := by
  unfold recovered Image.plan
  simp only [h, Option.elim_some, complete, List.foldl_nil]

theorem recovered_of_corrupt {fault : JournalFault}
    (h : decodeJournal img.journal = .corrupt fault) :
    recovered img true = complete (commit (quarantinePendingSlots img.registry)) img := by
  unfold recovered Image.plan
  simp only [h, if_true, Option.elim_some]

theorem same_iff_of_cleared (hdecode : decodeJournal img.journal = .valid r)
    (hv : img.verdict r = some v) (hn : (writesOf v.1).length + 4 ≤ n) :
    Same (recovered (cut img manual n) manual) (recovered img manual) ↔
      ¬ (manual = true ∧ Remains img.journal (n - ((writesOf v.1).length + 3)) ∧
        ∃ t < maxPkgs, PendingState (entryState v.2 t)) := by
  have hs := decodeJournal_slot hdecode
  have hentry := entryWrites_bounds hs
  have hcut := cut_of_verdict manual n hdecode hv
  rw [if_neg (by omega), List.take_of_length_le (by omega)] at hcut
  obtain ⟨hreg, hblobs⟩ := recovered_of_verdict manual hdecode hv
  by_cases hremains : Remains img.journal (n - ((writesOf v.1).length + 3))
  · have hcorrupt : decodeJournal (cut img manual n).journal = .corrupt .badMagic := by
      rw [hcut]
      exact decode_of_remains (by omega) hremains
    cases manual with
    | false =>
      have hnone : recovered (cut img false n) false = cut img false n := by
        unfold recovered Image.plan
        simp only [hcorrupt, Bool.false_eq_true, if_false, Option.elim_none]
      rw [hnone, hcut, Same, hreg, hblobs]
      exact iff_of_true ⟨rfl, rfl⟩ fun h => absurd h.1 (by decide)
    | true =>
      rw [recovered_of_corrupt hcorrupt, complete_commit, hcut, Same, hreg, hblobs]
      simp only [overlay_quarantine, and_true, hremains, true_and]
      exact quarantinePendingSlots_eq_self_iff
  · have hempty : decodeJournal (cut img manual n).journal = .empty := by
      rw [hcut]
      exact decode_of_cleared hremains
    rw [recovered_of_empty hempty, hcut, Same, hreg, hblobs]
    exact iff_of_true ⟨rfl, rfl⟩ fun h => hremains h.2.1

theorem quarantine_overlay {reg : Bytes} :
    quarantinePendingSlots (overlay m (quarantinePendingSlots reg) reg) =
      quarantinePendingSlots reg := by
  funext i
  by_cases h : i % entrySize = 0 ∧ i < registrySize ∧ PendingState (reg i)
  · have hbyte : quarantinePendingSlots reg i = stateQuarantined := by
      rw [quarantinePendingSlots_apply, if_pos h]
    rw [quarantinePendingSlots_apply, hbyte]
    by_cases hi : i < m * sectorSize
    · rw [overlay, if_pos hi, hbyte, ite_self]
    · rw [overlay, if_neg hi, if_pos h]
  · have hbyte : quarantinePendingSlots reg i = reg i := by
      rw [quarantinePendingSlots_apply, if_neg h]
    have hoverlay : overlay m (quarantinePendingSlots reg) reg i = reg i := by
      rw [overlay, hbyte, ite_self]
    rw [quarantinePendingSlots_apply, hoverlay, hbyte, if_neg h]

theorem same_of_corrupt {fault : JournalFault} (hdecode : decodeJournal img.journal = .corrupt fault) :
    Same (recovered (cut img manual n) manual) (recovered img manual) := by
  cases manual with
  | false =>
    have hplan : img.plan false = none := by
      unfold Image.plan
      simp only [hdecode, Bool.false_eq_true, if_false]
    have hcut : cut img false n = img := by rw [cut, hplan, Option.elim_none]
    rw [hcut]
    exact ⟨rfl, rfl⟩
  | true =>
    have hplan : img.plan true = some (commit (quarantinePendingSlots img.registry)) := by
      unfold Image.plan
      simp only [hdecode, if_true]
    have hall := recovered_of_corrupt hdecode
    have hcut : cut img true n = ⟨overlay (min (n - 3) journalSectors) (fun _ => 0) img.journal,
        overlay (min n registrySectors) (quarantinePendingSlots img.registry) img.registry,
        img.blobs⟩ := by
      rw [cut, hplan, Option.elim_some, crash_commit]
    by_cases hcleared : 3 < n ∧ ¬ Remains img.journal (n - 3)
    · -- the first run has come to its end
      have hempty : decodeJournal (cut img true n).journal = .empty := by
        rw [hcut]
        exact decode_of_cleared hcleared.2
      have hwritten : min n registrySectors = registrySectors := by
        unfold registrySectors
        omega
      rw [recovered_of_empty hempty, hcut, hall, complete_commit, hwritten]
      exact ⟨rfl, rfl⟩
    · have hcorrupt : ∃ fault, decodeJournal (cut img true n).journal = .corrupt fault := by
        rw [hcut]
        by_cases hn : 3 < n
        · have hremains := not_not.mp fun hremains => hcleared ⟨hn, hremains⟩
          exact ⟨_, decode_of_remains (by omega) hremains⟩
        · refine ⟨fault, ?_⟩
          simp only
          rw [show n - 3 = 0 by omega, Nat.zero_min, overlay_zero, hdecode]
      obtain ⟨fault', hcorrupt⟩ := hcorrupt
      rw [recovered_of_corrupt hcorrupt, complete_commit, hcut, hall, complete_commit]
      refine ⟨?_, rfl⟩
      simp only
      rw [overlay_quarantine, quarantine_overlay, overlay_quarantine]

end

section
variable {v : List Phase × Bytes}

instance : Decidable (Commits img r) := by
  unfold Commits
  infer_instance

def copied (img : Image) (r : JournalRecord) : ℕ :=
  if r.op = opReplace ∧ Commits img r ∨ r.op = opRollback then sectorsFor r.rawLen else 0

/-- A record that a recovery can act on. -/
def Acts (img : Image) (r : JournalRecord) : Prop :=
  (r.op = opInstall ∨ r.op = opReplace) ∧
      (r.phase = phaseStarted ∨ r.phase = phaseBlobWritten ∨ r.phase = phaseRegistryPending) ∨
    (r.op = opRollback ∧ r.phase = phaseRegistryPending ∧ r.rawLen ≤ maxRawBytes ∧
      checksum (blobAt img.blobs (previousBlobSector r.slot) r.rawLen) = r.rawCrc) ∨
    r.op = opRemove

/-- An install or an update that is undone. -/
def Undoes (r : JournalRecord) : Prop :=
  (r.op = opInstall ∨ r.op = opReplace) ∧ (r.phase = phaseStarted ∨ r.phase = phaseBlobWritten)

/-- A slot is pending after the recovery: another one was, or the record restores a
pending state. -/
def LeavesPending (img : Image) (r : JournalRecord) : Prop :=
  (∃ t < maxPkgs, t ≠ r.slot ∧ PendingState (entryState img.registry t)) ∨
    Undoes r ∧ PendingState r.oldState

theorem acts_iff : Acts img r ↔ ∃ v, img.verdict r = some v := by
  unfold Acts
  constructor
  · rintro (⟨hop, hphase⟩ | hrestore | hremove)
    · rw [← or_assoc] at hphase
      by_cases hundo : r.phase = phaseStarted ∨ r.phase = phaseBlobWritten
      · exact ⟨_, verdict_undo img r hop hundo⟩
      · unfold Image.verdict
        simp only [if_pos hop, if_neg hundo, if_pos (hphase.resolve_left hundo)]
        split_ifs
        · exact ⟨_, rfl⟩
        · exact ⟨_, rfl⟩
        · exact ⟨_, rfl⟩
    · exact ⟨_, verdict_restore img r hrestore.1 hrestore.2.1 hrestore.2.2.1 hrestore.2.2.2⟩
    · exact ⟨_, verdict_remove img r hremove⟩
  · rintro ⟨v, hv⟩
    cases decision_of_verdict hv with
    | undo hop hphase =>
      refine .inl ⟨hop, ?_⟩
      rcases hphase with hphase | hphase
      · exact .inl hphase
      · exact .inr (.inl hphase)
    | promote hop hphase => exact .inl ⟨.inr hop, .inr (.inr hphase)⟩
    | commit hop hphase => exact .inl ⟨.inl hop, .inr (.inr hphase)⟩
    | quarantine hop hphase => exact .inl ⟨hop, .inr (.inr hphase)⟩
    | restore hop hphase hl hcrc => exact .inr (.inl ⟨hop, hphase, hl, hcrc⟩)
    | remove hop => exact .inr (.inr hop)

theorem acts_of_commits (h : Commits img r) : Acts img r := by
  obtain ⟨hphase, -, ⟨hop, -⟩ | ⟨hop, -⟩⟩ := h
  · exact .inl ⟨.inr hop, .inr (.inr hphase)⟩
  · exact .inl ⟨.inl hop, .inr (.inr hphase)⟩

theorem Decision.length_eq (h : Decision img r v) : (writesOf v.1).length = copied img r := by
  have hblob {b : ℕ} {raw : List UInt8} : (writesOf [Phase.blob b raw]).length =
      sectorsFor raw.length := by
    rw [writesOf_cons, writesOf_nil, List.append_nil, Phase.length_writes]
    rfl
  have hlen {b : ℕ} : (blobAt img.blobs b r.rawLen).length = r.rawLen := length_toList
  unfold copied
  cases h with
  | undo hop hphase =>
    rw [if_neg]
    · rfl
    rintro (⟨-, hcommits, -⟩ | hrollback)
    · rw [hcommits] at hphase
      exact absurd hphase (by decide)
    · rw [hrollback] at hop
      exact absurd hop (by decide)
  | promote hop hphase hstate hverified =>
    rw [if_pos (.inl ⟨hop, hphase, hstate, .inl ⟨hop, hverified⟩⟩), hblob, hlen]
  | commit hop | remove hop =>
    rw [if_neg]
    · rfl
    rw [hop]
    rintro (⟨hreplace, -⟩ | hrollback)
    · exact absurd hreplace (by decide)
    · exact absurd hrollback (by decide)
  | quarantine hop hphase hrefused =>
    rw [if_neg]
    · rfl
    rintro (⟨-, hcommits⟩ | hrollback)
    · exact hrefused hcommits
    · rw [hrollback] at hop
      exact absurd hop (by decide)
  | restore hop => rw [if_pos (.inr hop), hblob, hlen]

theorem Decision.state (h : Decision img r v) :
    Undoes r ∧ entryState v.2 r.slot = r.oldState ∨
      ¬ Undoes r ∧ ¬ PendingState (entryState v.2 r.slot) := by
  have hpending (hphase : r.phase = phaseRegistryPending) : ¬ Undoes r := by
    rintro ⟨-, hundo⟩
    rw [hphase] at hundo
    exact absurd hundo (by decide)
  cases h with
  | undo hop hphase =>
    refine .inl ⟨⟨hop, hphase⟩, ?_⟩
    unfold rollbackSlotToOldState
    split_ifs with hempty
    · have hclear : clearRegistrySlot img.registry r.slot (entryOff r.slot + 0) = 0 :=
        copy_inside (by decide)
      rw [hempty]
      exact hclear
    · exact entryState_setEntryState
  | promote hop hphase | commit hop hphase | quarantine hop hphase | restore hop hphase =>
    refine .inr ⟨hpending hphase, ?_⟩
    rw [entryState_setEntryState]
    decide
  | remove hop =>
    refine .inr ⟨?_, ?_⟩
    · rintro ⟨hop', -⟩
      rw [hop] at hop'
      exact absurd hop' (by decide)
    · rw [entryState_setEntryState]
      decide

theorem Decision.pending_iff (h : Decision img r v) (hs : r.slot < maxPkgs) :
    (∃ t < maxPkgs, PendingState (entryState v.2 t)) ↔ LeavesPending img r := by
  have hother {t : ℕ} (hne : t ≠ r.slot) : entryState v.2 t = entryState img.registry t := by
    refine h.of_outside ?_
    unfold entryOff entrySize
    omega
  constructor
  · rintro ⟨t, ht, hpending⟩
    by_cases hne : t = r.slot
    · rw [hne] at hpending
      rcases h.state with ⟨hundo, hstate⟩ | ⟨-, hstate⟩
      · rw [hstate] at hpending
        exact .inr ⟨hundo, hpending⟩
      · exact absurd hpending hstate
    · rw [hother hne] at hpending
      exact .inl ⟨t, ht, hne, hpending⟩
  · rintro (⟨t, ht, hne, hpending⟩ | ⟨hundo, hpending⟩)
    · refine ⟨t, ht, ?_⟩
      rw [hother hne]
      exact hpending
    · refine ⟨r.slot, hs, ?_⟩
      rcases h.state with ⟨-, hstate⟩ | ⟨hnot, -⟩
      · rw [hstate]
        exact hpending
      · exact absurd hundo hnot

end

/-- The first run commits a pending package and is cut before the journal is touched. -/
def Recommits (img : Image) (r : JournalRecord) (n : ℕ) : Prop :=
  Commits img r ∧ copied img r + entryWrites r.slot ≤ n ∧ n < copied img r + 4

/-- The first run is cut while it clears the journal, what is left of it is not zero, and
slots are pending. -/
def Misreads (img : Image) (r : JournalRecord) (n : ℕ) : Prop :=
  Acts img r ∧ LeavesPending img r ∧ copied img r + 4 ≤ n ∧
    Remains img.journal (n - (copied img r + 3))

theorem same_iff : Same (recovered (cut img manual n) manual) (recovered img manual) ↔
    ∀ r, decodeJournal img.journal = .valid r →
      ¬ Recommits img r n ∧ ¬ (manual = true ∧ Misreads img r n) := by
  cases hdecode : decodeJournal img.journal with
  | empty =>
    have hplan : img.plan manual = some [] := by
      unfold Image.plan
      simp only [hdecode]
    have hcut : cut img manual n = img := by rw [cut, hplan, Option.elim_some, crash]
    rw [hcut]
    refine iff_of_true ⟨rfl, rfl⟩ fun r h => ?_
    cases h
  | corrupt fault =>
    refine iff_of_true (same_of_corrupt hdecode) fun r h => ?_
    cases h
  | valid r =>
    have hs := decodeJournal_slot hdecode
    have hentry := entryWrites_bounds hs
    have hrecord : (∀ r', JournalState.valid r = .valid r' →
        ¬ Recommits img r' n ∧ ¬ (manual = true ∧ Misreads img r' n)) ↔
        ¬ Recommits img r n ∧ ¬ (manual = true ∧ Misreads img r n) := by
      refine ⟨fun h => h r rfl, fun h r' hr => ?_⟩
      rw [← JournalState.valid.inj hr]
      exact h
    rw [hrecord]
    by_cases hacts : Acts img r
    · obtain ⟨v, hv⟩ := acts_iff.mp hacts
      have hlength := (decision_of_verdict hv).length_eq
      have hpending := (decision_of_verdict hv).pending_iff hs
      by_cases hold : n < copied img r + entryWrites r.slot
      · refine iff_of_true (same_of_old hdecode hv (by omega)) ⟨fun h => ?_, fun h => ?_⟩
        · exact absurd h.2.1 (by omega)
        · exact absurd h.2.2.2.1 (by omega)
      · by_cases hcleared : copied img r + 4 ≤ n
        · rw [same_iff_of_cleared hdecode hv (by omega), hlength, hpending]
          have hnot : ¬ Recommits img r n := fun h => absurd h.2.2 (by omega)
          simp only [Misreads, hacts, hcleared, hnot, not_false_eq_true, true_and, and_comm]
        · rw [same_iff_of_new hdecode hv (by omega) (by omega)]
          have hnot : ¬ Misreads img r n := fun h => hcleared h.2.2.1
          have hrange : copied img r + entryWrites r.slot ≤ n ∧ n < copied img r + 4 := by omega
          simp only [Recommits, hrange, hnot, and_false, not_false_eq_true, and_true]
    · have hnone : img.verdict r = none := by
        rw [Option.eq_none_iff_forall_ne_some]
        exact fun v hv => hacts (acts_iff.mpr ⟨v, hv⟩)
      have hplan : img.plan manual = none := by
        unfold Image.plan
        simp only [hdecode, hnone, Option.map_none]
      have hcut : cut img manual n = img := by rw [cut, hplan, Option.elim_none]
      rw [hcut]
      exact iff_of_true ⟨rfl, rfl⟩
        ⟨fun h => hacts (acts_of_commits h.1), fun h => hacts h.2.1⟩

/-- Two stores with the same registry and the same blob areas. -/
def SameStore (d d' : Disk Sector) : Prop :=
  registryOf d = registryOf d' ∧ ∀ s, 64 ≤ s → d s = d' s

theorem sameStore_iff {d d' : Disk Sector} : SameStore d d' ↔ Same (imageOf d) (imageOf d') := by
  refine and_congr Iff.rfl ⟨fun h => Phase.imageOf_blobs_congr h, fun h s hs => ?_⟩
  rw [← imageOf_blobs (d := d) hs, h, imageOf_blobs hs]

/-- A recovery that is cut off after `n` writes and run again ends like an uninterrupted
one, unless a committed package is taken for a suspicious one, or, in a manual recovery,
a half-cleared journal for a corrupt one. -/
theorem recovery_repeat_iff (k k' : Kernel) (d : Disk Sector) (manual : Bool) (n : ℕ) :
    SameStore ((recoverStore k' manual).eval (crashAfter n (recoverStore k manual) d)).2
        ((recoverStore k manual).eval d).2 ↔
      ∀ r, decodeJournal (journalOf d) = .valid r →
        ¬ Recommits (imageOf d) r n ∧ ¬ (manual = true ∧ Misreads (imageOf d) r n) := by
  rw [sameStore_iff, imageOf_recoverStore, imageOf_recoverStore, imageOf_crashAfter]
  exact same_iff

def pendingDisk : Disk Sector := InstallTrace.crashed blankDisk demoAdmission demoPackage 26

def pendingRecord : JournalRecord := demoAdmission.registryPending (registryOf blankDisk) demoPackage

theorem decode_pendingDisk :
    decodeJournal (imageOf pendingDisk).journal = .valid pendingRecord := by
  have ha := recvChecks_ok recvChecks_demoPackage
  have hlen : sectorsFor demoPackage.length = 1 := by decide +kernel
  have hjournal : (imageOf pendingDisk).journal = encodeJournal pendingRecord := by
    have hcrashed := journalOf_crashed (n := 26) consistent_blankDisk ha
    unfold InstallTrace.journalAfter at hcrashed
    simp only at hcrashed
    rw [if_neg (by omega), if_neg (by omega), if_neg (by omega)] at hcrashed
    exact hcrashed
  rw [hjournal]
  exact decode_encodeJournal (describes_registryPending.encodable ha)

theorem commits_pendingDisk : Commits (imageOf pendingDisk) pendingRecord := by
  refine ⟨rfl, ?_, .inr ⟨rfl, ?_⟩⟩
  · decide +kernel
  · decide +kernel

/-- The recovery of the interrupted install is cut when one sector of the registry is
written. Uninterrupted it commits the package. The second run quarantines it. -/
theorem demo_recommitted :
    entryState (registryOf ((recoverStore .boot false).eval pendingDisk).2) 0 = stateActive ∧
    entryState (registryOf ((recoverStore .boot false).eval
      (crashAfter 1 (recoverStore .boot false) pendingDisk)).2) 0 = stateQuarantined ∧
    ¬ SameStore ((recoverStore .boot false).eval
      (crashAfter 1 (recoverStore .boot false) pendingDisk)).2
        ((recoverStore .boot false).eval pendingDisk).2 := by
  obtain ⟨v, hv⟩ := acts_iff.mp (acts_of_commits commits_pendingDisk)
  have hdecision := decision_of_verdict hv
  have hlength : (writesOf v.1).length = 0 := by
    rw [hdecision.length_eq]
    refine if_neg ?_
    rintro (⟨hop, -⟩ | hop)
    · exact absurd hop (by decide)
    · exact absurd hop (by decide)
  have hcut := cut_of_verdict false 1 decode_pendingDisk hv
  rw [hlength, if_neg (by decide)] at hcut
  obtain ⟨hactive, hverdict⟩ := hdecision.set_aside
    (show (cut (imageOf pendingDisk) false 1).registry = v.2 by rw [hcut]) commits_pendingDisk
  have hdecode : decodeJournal (cut (imageOf pendingDisk) false 1).journal = .valid pendingRecord := by
    have hjournal : (cut (imageOf pendingDisk) false 1).journal = (imageOf pendingDisk).journal := by
      rw [hcut]
      simp only
      rw [show min (1 - (0 + 3)) journalSectors = 0 by decide, overlay_zero]
    rw [hjournal, decode_pendingDisk]
  have honce : registryOf ((recoverStore .boot false).eval pendingDisk).2 = v.2 := by
    have himage := congrArg Image.registry (imageOf_recoverStore .boot false pendingDisk)
    exact himage.trans (recovered_of_verdict false decode_pendingDisk hv).1
  have htwice : registryOf ((recoverStore .boot false).eval
      (crashAfter 1 (recoverStore .boot false) pendingDisk)).2 =
        setEntryState v.2 pendingRecord.slot stateQuarantined := by
    have himage := congrArg Image.registry (imageOf_recoverStore .boot false
      (crashAfter 1 (recoverStore .boot false) pendingDisk))
    rw [imageOf_crashAfter] at himage
    exact himage.trans (recovered_of_verdict false hdecode hverdict).1
  have hquarantined : entryState (registryOf ((recoverStore .boot false).eval
      (crashAfter 1 (recoverStore .boot false) pendingDisk)).2) 0 = stateQuarantined := by
    rw [htwice]
    exact entryState_setEntryState
  refine ⟨?_, hquarantined, fun hsame => ?_⟩
  · rw [honce]
    exact hactive
  · rw [hsame.1, honce] at hquarantined
    exact absurd (hactive.symm.trans hquarantined) (by decide)

end Dezh.RecoveryRepeat

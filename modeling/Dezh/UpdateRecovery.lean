import Dezh.InstallRecovery

/-!
# Power cuts during an update

An accepted update stages the new package, keeps the active one as the checkpoint,
announces the new entry in the third phase of its record, and then exchanges entry and
package. Up to the third phase a power cut leaves the old version. Once the pending
entry is on disk the recovery finishes the update. In between, and after the entry has
become active, the recovery sets the slot aside: it finds a record of the third phase
and no pending entry. A new version whose payload does not fit into the arena behind
the packages of the lower slots is marked corrupt by the loader.
-/
namespace Dezh.UpdateRecovery
open BlockProgram Program ByteLayout CairnFormat PackageFormat PackageStore PackageCodec
  PackageAreas PackageRecovery PackageLoading PackageCommands CheckpointCodec InstallTrace
  InstallRecovery StorePhases

variable {reg : Bytes} {target : Text} {allow : Bool} {raw : List UInt8} {u : Replacement}
  {d : Disk Sector} {k : Kernel} {p : Inspected} {n : ℕ}
variable {phase : UInt8}

/-- What the checks of an update establish. -/
structure Accepted (reg : Bytes) (target : Text) (allow : Bool) (raw : List UInt8)
    (u : Replacement) : Prop where
  found : findRegistrySlot reg target = some u.slot
  active : entryState reg u.slot = stateActive
  unpinned : entryIsPinned reg u.slot = false
  pos : 0 < raw.length
  le : raw.length ≤ maxRawBytes
  contents : inspect raw = some u.package
  named : u.package.name = target
  name : u.package.name.length ≤ nameMax
  version : u.package.version.length ≤ verMax
  rawCrc : u.rawCrc = checksum raw
  fresh : ¬ (entryVersion reg u.slot = u.package.version ∧ entryRawCrc reg u.slot = u.rawCrc)
  caps : (capDelta (entryMcaps reg u.slot) u.package.mcaps).1 = 0 ∨ allow = true

theorem updateChecks_ok (h : updateChecks reg target allow raw = .ok u) :
    Accepted reg target allow raw u := by
  unfold updateChecks at h
  split at h
  · cases h
  · rename_i slot hfound
    split_ifs at h with hactive hpinned hlen
    obtain ⟨pkg, hparse, h⟩ := mapError_bind_ok h
    split at h
    · cases h
    · rename_i name hname
      simp only at h
      split at h
      · cases h
      · rename_i hnamed
        split at h
        · cases h
        · rename_i hrange
          obtain ⟨mcaps, hmcaps, h⟩ := mapError_bind_ok h
          obtain ⟨_, hverify, h⟩ := mapError_bind_ok h
          split_ifs at h with hsame hreview
          obtain rfl := Except.ok.inj h
          have hcaps : (capDelta (entryMcaps reg slot) mcaps).1 = 0 ∨ allow = true := by
            rw [not_and_or, not_not, Bool.not_eq_false] at hreview
            exact hreview
          simp only [not_or, Nat.not_lt] at hrange
          exact ⟨hfound, not_not.mp hactive, Bool.eq_false_of_not_eq_true hpinned, by omega,
            by omega, inspect_eq hparse hname hmcaps hverify, not_not.mp hnamed, hrange.1, hrange.2,
            rfl, hsame, hcaps⟩

theorem Accepted.slot (h : Accepted reg target allow raw u) : u.slot < maxPkgs :=
  (findRegistrySlot_some h.found).1

section
variable {i : ℕ}
  {state : UInt8}

theorem registryWith_of_outside (ha : Accepted reg target allow raw u)
    (hi : i < entryOff u.slot ∨ entryOff u.slot + entrySize ≤ i) :
    u.registryWith reg raw state i = reg i := by
  have hcheckpoint : u.registryWith reg raw state i = encodeRegistryEntry reg u.slot state
      u.package.name u.package.version u.package.kind u.package.mcaps raw.length u.rawCrc i := by
    refine encodePreviousMetadata_of_outside entryText_length ?_
    unfold entrySize at hi
    omega
  rw [hcheckpoint, encodeRegistryEntry_of_outside ha.name ha.version hi]

theorem sameHead_registryWith :
    SameHead (encodeRegistryEntry reg u.slot state u.package.name u.package.version u.package.kind
      u.package.mcaps raw.length u.rawCrc) (u.registryWith reg raw state) u.slot :=
  sameHead_encodePreviousMetadata entryText_length

theorem entryState_registryWith : entryState (u.registryWith reg raw state) u.slot = state :=
  sameHead_registryWith.state.trans entryState_encode

theorem registryWith_fields (ha : Accepted reg target allow raw u) (state : UInt8) :
    u32At (u.registryWith reg raw state) (entryOff u.slot + 8) = u.package.mcaps ∧
      u32At (u.registryWith reg raw state) (entryOff u.slot + 12) = raw.length ∧
      u32At (u.registryWith reg raw state) (entryOff u.slot + 16) = checksum raw := by
  have hlen : raw.length ≤ 32768 := ha.le
  have hmcaps := (inspect_isUtf8 ha.contents).2.2
  have hhead : SameHead (encodeRegistryEntry reg u.slot state u.package.name u.package.version
      u.package.kind u.package.mcaps raw.length u.rawCrc) (u.registryWith reg raw state) u.slot :=
    sameHead_registryWith
  rw [hhead.field (by omega), hhead.field (by omega), hhead.field (by omega), ← ha.rawCrc]
  refine entryFields_encode (by omega) (by omega) ?_
  rw [ha.rawCrc]
  exact UInt32.toNat_lt _

theorem setEntryState_registryWith {state' : UInt8} :
    setEntryState (u.registryWith reg raw state) u.slot state' = u.registryWith reg raw state' := by
  funext i
  by_cases hi : i = entryOff u.slot
  · subst hi
    exact putU8_self.trans entryState_registryWith.symm
  · rw [setEntryState_of_ne hi]
    refine encodePreviousMetadata_congr ?_ (encodeRegistryEntry_congr hi)
    rw [entryFlags_encode, entryFlags_encode]

end

section
variable {old : List UInt8}

def updatePhases (reg : Bytes) (u : Replacement) (raw old : List UInt8) : List Phase :=
  [.journal (encodeJournal (u.started reg raw)), .blob (stageBlobSector u.slot) raw,
    .journal (encodeJournal (u.blobWritten reg raw)), .blob (previousBlobSector u.slot) old,
    .journal (encodeJournal (u.registryPending reg raw)),
    .registry (u.registryWith reg raw statePendingInstall), .blob (slotBlobSector u.slot) raw] ++
  commit (u.registryWith reg raw stateActive)

/-- The records of an update differ in the phase and in the checksum of the new registry. -/
def record (reg : Bytes) (u : Replacement) (raw : List UInt8) (phase : UInt8) (after : ℕ) :
    JournalRecord :=
  journalRecord opReplace phase u.slot stateActive stateActive u.package.name u.package.version
    u.package.mcaps raw.length u.rawCrc (registryCrc reg) after

section
variable (ha : Accepted reg target allow raw u)
include ha

theorem encodable_record {after : ℕ}
    (hafter : after < 2 ^ 32) : Encodable (record reg u raw phase after) := by
  have hmcaps := (inspect_isUtf8 ha.contents).2.2
  refine encodable_journalRecord ha.slot ha.name ha.version (by omega) ha.le ?_
    (UInt32.toNat_lt _) hafter
  rw [ha.rawCrc]
  exact UInt32.toNat_lt _

theorem verified_record {base : ℕ} {after : ℕ} (hraw : blobAt d base raw.length = raw) :
    verified d base (record reg u raw phase after) = true := by
  rw [record, ha.rawCrc]
  exact verified_journalRecord ha.pos ha.le ha.contents hraw

theorem trace_verifyStage (hraw : blobAt d (stageBlobSector u.slot) raw.length = raw) :
    (verifyStageBlob (u.blobWritten reg raw)).Trace d true [] := by
  have htrace := trace_verifyBlobRecordAt (d := d) (r := u.blobWritten reg raw) (within_stage ha.slot)
  have htrue : verified d (stageBlobSector u.slot) (u.blobWritten reg raw) = true :=
    verified_record ha hraw
  rwa [htrue] at htrace

end

theorem trace_update (ha : Accepted k.registry target allow raw u)
    (hpos : entryRawLen k.registry u.slot ≠ 0) (hle : entryRawLen k.registry u.slot ≤ maxRawBytes) :
    (update k u raw).Trace d (.updated, Kernel.invalidateLoaded { k with
        registry := u.registryWith k.registry raw stateActive })
      (writesOf (updatePhases k.registry u raw (blobOf d k.registry u.slot))) := by
  have hs := ha.slot
  have hstage := le_stageBlobSector u.slot
  have hbase := le_slotBlobSector u.slot
  have hlen : (blobOf d k.registry u.slot).length = entryRawLen k.registry u.slot := length_toList
  have hactive : setEntryState (u.registryWith k.registry raw statePendingInstall) u.slot
      stateActive = u.registryWith k.registry raw stateActive := setEntryState_registryWith
  have hcurrent (e : Disk Sector)
      (he : blobAt e (slotBlobSector u.slot) (entryRawLen k.registry u.slot) =
        blobOf d k.registry u.slot) :
      (copyBlobArea (slotBlobSector u.slot) (previousBlobSector u.slot)
        (entryRawLen k.registry u.slot)).Trace e true
          (blobWrites (previousBlobSector u.slot) (blobOf d k.registry u.slot)) := by
    rw [← he]
    exact trace_copyBlobArea hpos hle (within_slot hs) (within_previous hs)
  have hpromote (e : Disk Sector) (he : blobAt e (stageBlobSector u.slot) raw.length = raw) :
      (copyBlobArea (stageBlobSector u.slot) (slotBlobSector u.slot) raw.length).Trace e true
        (blobWrites (slotBlobSector u.slot) raw) := by
    have htrace := trace_copyBlobArea (d := e) ha.pos.ne' ha.le (within_stage hs) (within_slot hs)
    rwa [he] at htrace
  unfold update
  simp only [updatePhases, writesOf_append, writesOf_cons, writesOf_nil, writesOf_commit,
    Phase.writes, List.append_assoc, List.nil_append]
  refine trace_writeJournalRaw.bind ?_
  refine (trace_writeBlobAt ha.le (within_stage hs)).bind ?_
  refine trace_writeJournalRaw.bind ?_
  refine (trace_verifyStage ha ?_).bind_nil ?_
  · rw [blobAt_journalWrites hstage, blobAt_blobWrites]
  refine (hcurrent _ ?_).bind ?_
  · rw [blobAt_journalWrites hbase,
      blobAt_blobWrites_of_disjoint ha.le hle (.inl (current_le_stage hs)),
      blobAt_journalWrites hbase]
    rfl
  refine trace_writeJournalRaw.bind ?_
  refine trace_writeRegistry.bind ?_
  refine (hpromote _ ?_).bind ?_
  · rw [blobAt_registryWrites hstage, blobAt_journalWrites hstage,
      blobAt_blobWrites_of_disjoint (hlen.trans_le hle) ha.le (.inr (previous_le_stage hs)),
      blobAt_journalWrites hstage, blobAt_blobWrites]
  rw [← hactive, ← List.append_nil (commitWrites _)]
  exact trace_commitStore.bind (.pure _ _)

theorem trace_update_refused (ha : Accepted k.registry target allow raw u)
    (hlen : entryRawLen k.registry u.slot = 0 ∨ maxRawBytes < entryRawLen k.registry u.slot) :
    (update k u raw).Trace d (.preserveFailed, k) (journalWrites
      (encodeJournal (u.started k.registry raw)) ++ (blobWrites (stageBlobSector u.slot) raw ++
        journalWrites (encodeJournal (u.blobWritten k.registry raw)))) := by
  have hstage := le_stageBlobSector u.slot
  unfold update
  refine trace_writeJournalRaw.bind ?_
  refine (trace_writeBlobAt ha.le (within_stage ha.slot)).bind ?_
  rw [← List.append_nil (journalWrites (encodeJournal (u.blobWritten k.registry raw)))]
  refine trace_writeJournalRaw.bind ?_
  refine (trace_verifyStage ha ?_).bind_nil ?_
  · rw [blobAt_journalWrites hstage, blobAt_blobWrites]
  rw [copyBlobArea, if_pos hlen]
  exact (Trace.pure false _).bind_nil (.pure _ _)

end

section
variable {img : Image}

def journalAfter (img : Image) (u : Replacement) (raw old : List UInt8) (n : ℕ) : Bytes :=
  let k := sectorsFor raw.length
  let o := sectorsFor old.length
  if n = 0 then img.journal
  else if n ≤ 8 + k then encodeJournal (u.started img.registry raw)
  else if n ≤ 16 + k + o then encodeJournal (u.blobWritten img.registry raw)
  else if n < 30 + 2 * k + o then encodeJournal (u.registryPending img.registry raw)
  else fun _ => 0

def registryAfter (img : Image) (u : Replacement) (raw old : List UInt8) (n : ℕ) : Bytes :=
  let k := sectorsFor raw.length
  let o := sectorsFor old.length
  if n < 24 + k + o + entryWrites u.slot then img.registry
  else if n < 26 + 2 * k + o + entryWrites u.slot then
    u.registryWith img.registry raw statePendingInstall
  else u.registryWith img.registry raw stateActive

def blobsAfter (img : Image) (u : Replacement) (raw old : List UInt8) (n : ℕ) : Disk Sector :=
  let k := sectorsFor raw.length
  let o := sectorsFor old.length
  replay (replay (replay img.blobs ((blobWrites (stageBlobSector u.slot) raw).take (n - 8)))
    ((blobWrites (previousBlobSector u.slot) old).take (n - (16 + k))))
    ((blobWrites (slotBlobSector u.slot) raw).take (n - (26 + k + o)))

theorem crash_updatePhases (old : List UInt8) (hshort : Short img.journal)
    (ha : Accepted img.registry target allow raw u) :
    crash (updatePhases img.registry u raw old) n img =
      ⟨journalAfter img u raw old n, registryAfter img u raw old n, blobsAfter img u raw old n⟩ := by
  have hstarted : Short (encodeJournal (u.started img.registry raw)) :=
    short_encodeJournal (encodable_record ha (Nat.two_pow_pos 32))
  have hwritten : Short (encodeJournal (u.blobWritten img.registry raw)) :=
    short_encodeJournal (encodable_record ha (Nat.two_pow_pos 32))
  have hpending : Short (encodeJournal (u.registryPending img.registry raw)) :=
    short_encodeJournal (encodable_record ha (UInt32.toNat_lt _))
  have hentry := entryWrites_bounds ha.slot
  have houtside {state : UInt8} : ∀ i, i < entryOff u.slot ∨ entryOff u.slot + entrySize ≤ i →
      u.registryWith img.registry raw state i = img.registry i :=
    fun i hi => registryWith_of_outside ha hi
  simp only [updatePhases, commit, List.cons_append, List.nil_append, crash, Phase.after, Phase.size,
    Nat.sub_sub]
  refine Image.ext ?_ ?_ ?_
  · simp only
    rw [overlay_journal hshort hstarted, overlay_journal (hshort.ite hstarted) hwritten,
      overlay_journal ((hshort.ite hstarted).ite hwritten) hpending,
      overlay_journal (((hshort.ite hstarted).ite hwritten).ite hpending) short_zero]
    unfold journalAfter journalSectors registrySectors
    simp only
    split_ifs <;> first | omega | rfl
  · simp only
    rw [overlay_registry ha.slot houtside, overlay_registry_ite ha.slot houtside houtside]
    unfold registryAfter journalSectors registrySectors
    simp only
    split_ifs <;> first | omega | rfl
  · unfold blobsAfter journalSectors registrySectors
    simp only
    rw [show 8 + sectorsFor raw.length + 8 + sectorsFor old.length + 8 + 2 =
        26 + sectorsFor raw.length + sectorsFor old.length by omega,
      show 8 + sectorsFor raw.length + 8 = 16 + sectorsFor raw.length by omega]

end

/-- The version that the update replaces. -/
abbrev oldRaw (d : Disk Sector) (u : Replacement) : List UInt8 := blobOf d (registryOf d) u.slot

/-- The journal does not ask for the new version yet. -/
abbrev Replaceable (d : Disk Sector) (u : Replacement) (raw : List UInt8) (n : ℕ) : Prop :=
  n < 17 + sectorsFor raw.length + sectorsFor (oldRaw d u).length

/-- The entry of the new version has been written. -/
abbrev Recorded (d : Disk Sector) (u : Replacement) (raw : List UInt8) (n : ℕ) : Prop :=
  24 + sectorsFor raw.length + sectorsFor (oldRaw d u).length + entryWrites u.slot ≤ n

def crashed (d : Disk Sector) (u : Replacement) (raw : List UInt8) (n : ℕ) : Disk Sector :=
  replay d ((writesOf (updatePhases (registryOf d) u raw (oldRaw d u))).take n)

section
variable (hshort : Short (journalOf d)) (ha : Accepted (registryOf d) target allow raw u)
include hshort ha

theorem imageOf_crashed :
    let old := oldRaw d u
    imageOf (crashed d u raw n) = ⟨journalAfter (imageOf d) u raw old n,
      registryAfter (imageOf d) u raw old n, blobsAfter (imageOf d) u raw old n⟩ := by
  have himage : Short (imageOf d).journal := hshort
  have hchecks : Accepted (imageOf d).registry target allow raw u := ha
  have hcrash := crash_updatePhases (n := n) (oldRaw d u) himage hchecks
  rw [crashed, imageOf_crash ?_]
  · exact hcrash
  have hstage := le_stageBlobSector u.slot
  have hprevious := le_previousBlobSector u.slot
  have hbase := le_slotBlobSector u.slot
  simp only [updatePhases, commit, List.cons_append, List.nil_append, List.forall_mem_cons,
    Phase.Placed, true_and]
  exact ⟨hstage, hprevious, hbase, by simp⟩

/-- The power is cut while the journal announces a pending entry and the registry does
not hold one: it is not written yet, or it is active already. -/
def SetAside (u : Replacement) (raw old : List UInt8) (n : ℕ) : Prop :=
  let k := sectorsFor raw.length
  let o := sectorsFor old.length
  (17 + k + o ≤ n ∧ n < 24 + k + o + entryWrites u.slot) ∨
    (26 + 2 * k + o + entryWrites u.slot ≤ n ∧ n < 30 + 2 * k + o)

def registryRecovered (reg : Bytes) (u : Replacement) (raw old : List UInt8) (n : ℕ) : Bytes :=
  let k := sectorsFor raw.length
  let o := sectorsFor old.length
  if n < 17 + k + o then reg
  else if n < 24 + k + o + entryWrites u.slot then setEntryState reg u.slot stateQuarantined
  else if n < 26 + 2 * k + o + entryWrites u.slot then u.registryWith reg raw stateActive
  else if n < 30 + 2 * k + o then u.registryWith reg raw stateQuarantined
  else u.registryWith reg raw stateActive

def promoted (u : Replacement) (raw old : List UInt8) (n : ℕ) : List Phase :=
  let k := sectorsFor raw.length
  let o := sectorsFor old.length
  if 24 + k + o + entryWrites u.slot ≤ n ∧ n < 26 + 2 * k + o + entryWrites u.slot then
    [.blob (slotBlobSector u.slot) raw]
  else []

theorem blobAt_stage_crashed (hp : Loads d (registryOf d) u.slot p)
    (hn : 8 + sectorsFor raw.length ≤ n) :
    blobAt (imageOf (crashed d u raw n)).blobs (stageBlobSector u.slot) raw.length = raw := by
  have hold : (oldRaw d u).length ≤ maxRawBytes := length_toList.trans_le hp.le
  rw [imageOf_crashed hshort ha]
  unfold blobsAfter
  simp only
  rw [blobAt_of_disjoint ha.le ha.le (.inr (current_le_stage ha.slot)),
    blobAt_of_disjoint hold ha.le (.inr (previous_le_stage ha.slot))]
  exact blobAt_of_written (by omega)

omit hshort in
theorem rollback_record {after : ℕ} :
    rollbackSlotToOldState (registryOf d) (record (registryOf d) u raw phase after) = registryOf d :=
  setEntryState_self ha.active

theorem plan_crashed_kept (hn : n ≠ 0) (hn' : Replaceable d u raw n) :
    (imageOf (crashed d u raw n)).plan false = some (commit (registryOf d)) := by
  have himage := imageOf_crashed (n := n) hshort ha
  have hregistry : (imageOf (crashed d u raw n)).registry = registryOf d := by
    rw [himage]
    unfold registryAfter
    simp only
    rw [if_pos (by omega)]
    rfl
  obtain ⟨phase, hphase, hjournal⟩ : ∃ phase, (phase = phaseStarted ∨ phase = phaseBlobWritten) ∧
      (imageOf (crashed d u raw n)).journal =
        encodeJournal (record (registryOf d) u raw phase 0) := by
    rw [himage]
    unfold journalAfter
    simp only
    rw [if_neg hn]
    split_ifs with hstarted hwritten
    · exact ⟨phaseStarted, .inl rfl, rfl⟩
    · exact ⟨phaseBlobWritten, .inr rfl, rfl⟩
    · omega
    · omega
  have hverdict := verdict_undo (imageOf (crashed d u raw n)) (record (registryOf d) u raw phase 0)
    (.inr rfl) hphase
  rw [hregistry, rollback_record ha] at hverdict
  exact plan_of_record hjournal (encodable_record ha (Nat.two_pow_pos 32)) hverdict

theorem plan_crashed_pending (hp : Loads d (registryOf d) u.slot p)
    (hn : 17 + sectorsFor raw.length + sectorsFor (oldRaw d u).length ≤ n)
    (hn' : n < 30 + 2 * sectorsFor raw.length + sectorsFor (oldRaw d u).length) :
    let old := oldRaw d u
    (imageOf (crashed d u raw n)).plan false =
      some (promoted u raw old n ++ commit (registryRecovered (registryOf d) u raw old n)) := by
  have himage := imageOf_crashed (n := n) hshort ha
  have hjournal : (imageOf (crashed d u raw n)).journal =
      encodeJournal (u.registryPending (registryOf d) raw) := by
    rw [himage]
    unfold journalAfter
    simp only
    rw [if_neg (by omega), if_neg (by omega), if_neg (by omega), if_pos hn']
    rfl
  have hregistry : (imageOf (crashed d u raw n)).registry =
      registryAfter (imageOf d) u raw (oldRaw d u) n := by
    rw [himage]
  have hencodable : Encodable (u.registryPending (registryOf d) raw) :=
    encodable_record ha (UInt32.toNat_lt _)
  suffices hverdict : (imageOf (crashed d u raw n)).verdict (u.registryPending (registryOf d) raw) =
      some (promoted u raw (oldRaw d u) n,
        registryRecovered (registryOf d) u raw (oldRaw d u) n) from
    plan_of_record hjournal hencodable hverdict
  unfold registryAfter at hregistry
  unfold promoted registryRecovered
  simp only at hregistry ⊢
  rw [if_neg (show ¬ Replaceable d u raw n
    by omega)]
  by_cases hold : n < 24 + sectorsFor raw.length +
      sectorsFor (oldRaw d u).length + entryWrites u.slot
  · -- the entry is still the old one
    rw [if_pos hold] at hregistry
    rw [if_pos hold, if_neg fun h => absurd hold (Nat.not_lt.mpr h.1)]
    have hverdict := verdict_quarantine (imageOf (crashed d u raw n))
      (u.registryPending (registryOf d) raw) (.inr rfl) rfl ?_
    · rw [hverdict, hregistry]
      rfl
    · rw [hregistry]
      refine ne_of_eq_of_ne ha.active ?_
      decide
  · rw [if_neg hold] at hregistry
    rw [if_neg hold]
    by_cases hpending : n < 26 + 2 * sectorsFor raw.length +
        sectorsFor (oldRaw d u).length + entryWrites u.slot
    · -- the entry is pending, and the staged package is complete
      have hstaged := blobAt_stage_crashed (n := n) hshort ha hp (by omega)
      have hverdict := verdict_promote (imageOf (crashed d u raw n))
        (u.registryPending (registryOf d) raw) rfl rfl ?_ (verified_record ha hstaged)
      · rw [if_pos hpending] at hregistry
        rw [if_pos hpending, if_pos ⟨Nat.le_of_not_lt hold, hpending⟩, hverdict, hregistry]
        exact congrArg₂ (fun staged reg => some ([Phase.blob (slotBlobSector u.slot) staged], reg))
          hstaged setEntryState_registryWith
      · rw [hregistry, if_pos hpending]
        exact entryState_registryWith
    · -- the entry is active already
      rw [if_neg hpending] at hregistry
      rw [if_neg hpending, if_pos hn', if_neg fun h => hpending h.2]
      have hverdict := verdict_quarantine (imageOf (crashed d u raw n))
        (u.registryPending (registryOf d) raw) (.inr rfl) rfl ?_
      · rw [hverdict, hregistry]
        exact congrArg (fun reg => some (([] : List Phase), reg)) setEntryState_registryWith
      · rw [hregistry]
        refine ne_of_eq_of_ne entryState_registryWith ?_
        decide

def recovery (reg : Bytes) (u : Replacement) (raw old : List UInt8) (n : ℕ) : List Phase :=
  if n = 0 ∨ 30 + 2 * sectorsFor raw.length + sectorsFor old.length ≤ n then []
  else promoted u raw old n ++ commit (registryRecovered reg u raw old n)

end

theorem plan_crashed (hjournal : journalOf d = fun _ => 0)
    (ha : Accepted (registryOf d) target allow raw u) (hp : Loads d (registryOf d) u.slot p) :
    (imageOf (crashed d u raw n)).plan false =
      some (recovery (registryOf d) u raw (oldRaw d u) n) := by
  have hshort : Short (journalOf d) := by
    rw [hjournal]
    exact short_zero
  unfold recovery
  split_ifs with hidle
  · refine plan_of_zero ?_
    rw [imageOf_crashed hshort ha]
    unfold journalAfter
    simp only
    split_ifs with hn
    · exact hjournal
    · omega
    · omega
    · omega
    · rfl
  · by_cases hkept : Replaceable d u raw n
    · rw [plan_crashed_kept hshort ha (by omega) hkept]
      unfold promoted registryRecovered
      simp only
      rw [if_neg (by omega), if_pos hkept]
      rfl
    · exact plan_crashed_pending hshort ha hp (by omega) (by omega)

section
variable {s slot : ℕ}

def recovered (d : Disk Sector) (u : Replacement) (raw : List UInt8) (n : ℕ) : Disk Sector :=
  replay (crashed d u raw n)
    (writesOf (recovery (registryOf d) u raw (oldRaw d u) n))

theorem registryRecovered_of_outside {reg : Bytes} {old : List UInt8} {i : ℕ}
    (ha : Accepted reg target allow raw u)
    (hi : i < entryOff u.slot ∨ entryOff u.slot + entrySize ≤ i) :
    registryRecovered reg u raw old n i = reg i := by
  unfold registryRecovered
  split_ifs
  · rfl
  · exact setEntryState_of_outside hi
  · exact registryWith_of_outside ha hi
  · exact registryWith_of_outside ha hi
  · exact registryWith_of_outside ha hi

theorem loads_registryWith {e : Disk Sector} {reg : Bytes} (ha : Accepted reg target allow raw u)
    (hb : blobAt e (slotBlobSector u.slot) raw.length = raw) :
    Loads e (u.registryWith reg raw stateActive) u.slot u.package := by
  obtain ⟨-, hlen, hcrc⟩ := registryWith_fields ha stateActive
  have hblob : blobOf e (u.registryWith reg raw stateActive) u.slot = raw := by
    rw [blobOf, hlen, hb]
  refine ⟨sameHead_registryWith.magic.trans entryMagic_encode, ?_, ?_, ?_, ?_, ha.name, ha.version⟩
  · rw [hlen]
    exact ha.pos
  · rw [hlen]
    exact ha.le
  · rw [hblob, hcrc]
  · rw [hblob, ha.contents]

section
variable (hshort : Short (journalOf d)) (ha : Accepted (registryOf d) target allow raw u)
include hshort ha

theorem registryOf_recovered :
    registryOf (recovered d u raw n) =
      registryRecovered (registryOf d) u raw (oldRaw d u) n := by
  unfold recovered recovery
  split_ifs with hidle
  · have hentry := entryWrites_bounds ha.slot
    have hcrashed : registryOf (crashed d u raw n) =
        registryAfter (imageOf d) u raw (oldRaw d u) n :=
      congrArg Image.registry (imageOf_crashed hshort ha)
    rw [writesOf_nil, replay_nil, hcrashed]
    unfold registryAfter registryRecovered
    simp only
    split_ifs <;> first | omega | rfl
  · refine registryOf_plan fun i hi => ?_
    rw [registryRecovered_of_outside ha (.inr ((entryOff_lt ha.slot).trans hi))]
    exact area_of_le hi

theorem crashed_of_le (hs : 64 ≤ s) :
    crashed d u raw n s = blobsAfter (imageOf d) u raw (oldRaw d u) n s := by
  rw [← imageOf_blobs (d := crashed d u raw n) hs, imageOf_crashed hshort ha]

omit hshort in
theorem recovered_of_outside (hs : 64 ≤ s)
    (hout : s < slotBlobSector u.slot ∨ slotBlobSector u.slot + slotSectors ≤ s) :
    recovered d u raw n s = crashed d u raw n s := by
  unfold recovered recovery
  split_ifs with hidle
  · rfl
  · rw [blobs_plan hs]
    unfold promoted
    simp only
    split_ifs
    · rw [writesOf_cons, writesOf_nil, List.append_nil]
      exact replay_blobWrites_outside ha.le hout
    · rfl

theorem untouched_recovered (hp : Loads d (registryOf d) u.slot p) (hs : slot < maxPkgs)
    (hne : slot ≠ u.slot) : Untouched d (recovered d u raw n) slot := by
  refine ⟨fun i hi => ?_, fun i hi => ?_⟩
  · rw [registryOf_recovered hshort ha]
    exact registryRecovered_of_outside ha (entryOff_ne hne hi)
  · have hbase : 64 ≤ slotBlobSector slot + i := (le_slotBlobSector slot).trans (Nat.le_add_right _ _)
    have hold : (oldRaw d u).length ≤ maxRawBytes := length_toList.trans_le hp.le
    have hdisjoint := current_disjoint hne
    have hprevious := current_le_previous (t := u.slot) hs
    have hstage := current_le_stage (t := u.slot) hs
    rw [recovered_of_outside ha hbase (by omega), crashed_of_le hshort ha hbase]
    unfold blobsAfter
    rw [replay_blobWrites_of_outside ha.le (by omega), replay_blobWrites_of_outside hold (by omega),
      replay_blobWrites_of_outside ha.le (by omega), imageOf_blobs hbase]

theorem untouched_of_kept (hp : Loads d (registryOf d) u.slot p)
    (hn : Replaceable d u raw n) :
    Untouched d (recovered d u raw n) u.slot := by
  refine ⟨fun i hi => ?_, fun i hi => ?_⟩
  · rw [registryOf_recovered hshort ha, registryRecovered, if_pos hn]
  · have hbase : 64 ≤ slotBlobSector u.slot + i :=
      (le_slotBlobSector u.slot).trans (Nat.le_add_right _ _)
    have hold : (oldRaw d u).length ≤ maxRawBytes := length_toList.trans_le hp.le
    have hprevious := current_le_previous (t := u.slot) ha.slot
    have hstage := current_le_stage (t := u.slot) ha.slot
    have hnone : promoted u raw (oldRaw d u) n = [] := if_neg (by omega)
    have hrecovered : recovered d u raw n (slotBlobSector u.slot + i) =
        crashed d u raw n (slotBlobSector u.slot + i) := by
      unfold recovered recovery
      split_ifs
      · rfl
      · rw [blobs_plan hbase, hnone]
        rfl
    rw [hrecovered, crashed_of_le hshort ha hbase]
    unfold blobsAfter
    rw [show n - (26 + sectorsFor raw.length +
        sectorsFor (oldRaw d u).length) = 0 by omega, List.take_zero,
      replay_nil, replay_blobWrites_of_outside hold (by omega),
      replay_blobWrites_of_outside ha.le (by omega), imageOf_blobs hbase]

theorem blobAt_of_committed (hn : Recorded d u raw n) (haside : ¬ SetAside u raw (oldRaw d u) n) :
    blobAt (recovered d u raw n) (slotBlobSector u.slot) raw.length = raw := by
  have hbase := le_slotBlobSector u.slot
  have hentry := entryWrites_bounds ha.slot
  unfold SetAside at haside
  unfold recovered recovery
  split_ifs with hidle
  · have hcrashed : blobAt (crashed d u raw n) (slotBlobSector u.slot) raw.length =
        blobAt (blobsAfter (imageOf d) u raw (oldRaw d u) n)
          (slotBlobSector u.slot) raw.length :=
      blobAt_congr fun j _ => crashed_of_le hshort ha (by omega)
    rw [writesOf_nil, replay_nil, hcrashed]
    exact blobAt_of_written (by omega)
  · have hpromoted : promoted u raw (oldRaw d u) n =
        [.blob (slotBlobSector u.slot) raw] := if_pos (by omega)
    have hcommit : blobAt (replay (crashed d u raw n) (writesOf
        (promoted u raw (oldRaw d u) n ++
          commit (registryRecovered (registryOf d) u raw (oldRaw d u) n))))
        (slotBlobSector u.slot) raw.length = blobAt (replay (crashed d u raw n)
          (writesOf (promoted u raw (oldRaw d u) n)))
        (slotBlobSector u.slot) raw.length := blobAt_congr fun j _ => blobs_plan (by omega)
    rw [hcommit, hpromoted, writesOf_cons, writesOf_nil, List.append_nil]
    exact blobAt_blobWrites

theorem registryOf_of_committed
    (hn : Recorded d u raw n) (haside : ¬ SetAside u raw (oldRaw d u) n) :
    registryOf (recovered d u raw n) = u.registryWith (registryOf d) raw stateActive := by
  unfold SetAside at haside
  rw [registryOf_recovered hshort ha]
  unfold registryRecovered
  simp only at haside ⊢
  rw [if_neg (by omega), if_neg (by omega)]
  split_ifs
  · rfl
  · omega
  · rfl

theorem entryState_of_setAside (haside : SetAside u raw (oldRaw d u) n) :
    entryState (registryOf (recovered d u raw n)) u.slot = stateQuarantined := by
  have hentry := entryWrites_bounds ha.slot
  unfold SetAside at haside
  rw [registryOf_recovered hshort ha]
  unfold registryRecovered
  simp only at haside ⊢
  rw [if_neg (by omega)]
  split_ifs with hbefore hpending hafter
  · exact entryState_setEntryState
  · omega
  · exact entryState_registryWith
  · omega

end

end

section
variable {arg : Text} {options : List Text}

theorem trace_pkgUpdate (hrest : AtRest d) (hk : Synced k d)
    (harg : splitWhitespace arg = target :: options)
    (hcheck : updateChecks (registryOf d) target (options.contains allowNewCaps) raw = .ok u)
    (hp : Loads d (registryOf d) u.slot p) :
    ∃ k', (pkgUpdate k arg raw).Trace d (.updated, k')
      (writesOf (updatePhases (registryOf d) u raw (blobOf d (registryOf d) u.slot))) := by
  unfold pkgUpdate
  simp only [harg]
  refine trace_withStore hrest hk fun k' hreg => ?_
  rw [← hreg] at hcheck hp ⊢
  simp only [hcheck]
  exact ⟨_, trace_update (updateChecks_ok hcheck) hp.pos.ne' hp.le⟩

/-- The slot serves the new version, and its entry describes it. -/
structure Updated (after : (Bool × Kernel) × Disk Sector) (u : Replacement) (raw : List UInt8) :
    Prop where
  serves : Serves after u.slot raw u.package
  name : entryName (registryOf after.2) u.slot = u.package.name
  version : entryVersion (registryOf after.2) u.slot = u.package.version
  mcaps : entryMcaps (registryOf after.2) u.slot = u.package.mcaps

/-- The slot serves the old version with its old entry, or the new version. -/
def UpdateAtomic (d : Disk Sector) (u : Replacement) (raw : List UInt8)
    (after : (Bool × Kernel) × Disk Sector) : Prop :=
  (EntryKept d after.2 u.slot ∧ ∃ p, Serves after u.slot (oldRaw d u) p) ∨
    Updated after u raw

theorem UpdateAtomic.active {after : (Bool × Kernel) × Disk Sector}
    (h : UpdateAtomic d u raw after) :
    entryState (registryOf after.2) u.slot = stateActive := by
  rcases h with ⟨-, p, hserves⟩ | hupdated
  · exact hserves.state
  · exact hupdated.serves.state

theorem not_atomic_of_state {after : (Bool × Kernel) × Disk Sector} {state : UInt8}
    (h : entryState (registryOf after.2) u.slot = state) (hne : state ≠ stateActive) :
    ¬ UpdateAtomic d u raw after := fun hatomic => hne (h.symm.trans hatomic.active)

theorem reboot_kept (hrest : AtRest d) (ha : Accepted (registryOf d) target allow raw u)
    (hp : Loads d (registryOf d) u.slot p)
    (hn : Replaceable d u raw n) :
    UpdateAtomic d u raw (reboot (crashed d u raw n)) := by
  have hshort := short_of_atRest hrest
  have hplan := plan_crashed (n := n) hrest.journal ha hp
  have hsame : ∀ t ≤ u.slot, Untouched d (recovered d u raw n) t := by
    intro t ht
    by_cases hne : t = u.slot
    · rw [hne]
      exact untouched_of_kept hshort ha hp hn
    · exact untouched_recovered hshort ha hp (ht.trans_lt ha.slot) hne
  obtain ⟨hkept, hserves⟩ := kept_reboot hplan hrest ha.slot hsame ha.active hp
  exact .inl ⟨hkept, p, hserves⟩

theorem quarantined_of_setAside (hrest : AtRest d) (ha : Accepted (registryOf d) target allow raw u)
    (hp : Loads d (registryOf d) u.slot p)
    (haside : SetAside u raw (oldRaw d u) n) :
    entryState (registryOf (reboot (crashed d u raw n)).2) u.slot = stateQuarantined := by
  have hplan := plan_crashed (n := n) hrest.journal ha hp
  have hstate := entryState_of_setAside (short_of_atRest hrest) ha haside
  refine (entryState_reboot_of_ne hplan ?_).trans hstate
  refine ne_of_eq_of_ne hstate ?_
  decide

theorem reboot_committed (hrest : AtRest d) (ha : Accepted (registryOf d) target allow raw u)
    (hp : Loads d (registryOf d) u.slot p)
    (hn : Recorded d u raw n) (haside : ¬ SetAside u raw (oldRaw d u) n) :
    UpdateAtomic d u raw (reboot (crashed d u raw n)) ↔
      roomBefore d u.slot + u.package.payload.length ≤ arenaSize := by
  have hshort := short_of_atRest hrest
  have hplan := plan_crashed (n := n) hrest.journal ha hp
  have hreg := registryOf_of_committed hshort ha hn haside
  have hstate : entryState (registryOf (recovered d u raw n)) u.slot = stateActive := by
    rw [hreg]
    exact entryState_registryWith
  have hloads : Loads (recovered d u raw n) (registryOf (recovered d u raw n)) u.slot u.package := by
    rw [hreg]
    exact loads_registryWith ha (blobAt_of_committed hshort ha hn haside)
  have harena : arenaBefore (fun _ => false) (recovered d u raw n)
      (registryOf (recovered d u raw n)) u.slot = roomBefore d u.slot :=
    arenaBefore_of_untouched hrest ha.slot fun t ht =>
      untouched_recovered hshort ha hp (ht.trans ha.slot) ht.ne
  have hblob : blobOf (recovered d u raw n) (registryOf (recovered d u raw n)) u.slot = raw := by
    rw [hreg, blobOf, (registryWith_fields ha stateActive).2.1,
      blobAt_of_committed hshort ha hn haside]
  obtain ⟨hname, hversion, -⟩ := inspect_isUtf8 ha.contents
  rcases reboot_of_loads hplan ha.slot hstate hloads harena with
    ⟨hfit, hserves, hhead⟩ | ⟨hfit, hcorrupt⟩
  · unfold recovered at hreg hblob
    rw [hblob] at hserves
    rw [hreg] at hhead
    refine iff_of_true (.inr ⟨hserves, ?_, ?_, ?_⟩) hfit
    · rw [hhead.name, sameHead_registryWith.name]
      exact entryName_encode ha.name hname
    · rw [hhead.version, sameHead_registryWith.version]
      exact entryVersion_encode ha.version hversion
    · rw [entryMcaps, hhead.field (by omega)]
      exact (registryWith_fields ha stateActive).1
  · exact iff_of_false (not_atomic_of_state hcorrupt (by decide)) hfit

/-- A power cut during an accepted update leaves the old or the new version exactly
outside the two windows, and behind them only if the new payload fits into the arena. -/
theorem update_atomic_iff (hrest : AtRest d) (hk : Synced k d)
    (harg : splitWhitespace arg = target :: options)
    (hcheck : updateChecks (registryOf d) target (options.contains allowNewCaps) raw = .ok u)
    (n : ℕ) :
    UpdateAtomic d u raw (reboot (crashAfter n (pkgUpdate k arg raw) d)) ↔
      ¬ SetAside u raw (blobOf d (registryOf d) u.slot) n ∧
        (24 + sectorsFor raw.length + sectorsFor (blobOf d (registryOf d) u.slot).length +
          entryWrites u.slot ≤ n →
            roomBefore d u.slot + u.package.payload.length ≤ arenaSize) := by
  have ha := updateChecks_ok hcheck
  obtain ⟨p, hp⟩ := hrest.loadable u.slot ha.slot ha.active
  obtain ⟨a, htrace⟩ := trace_pkgUpdate hrest hk harg hcheck hp
  rw [htrace.crashAfter]
  change UpdateAtomic d u raw (reboot (crashed d u raw n)) ↔ _
  by_cases haside : SetAside u raw (oldRaw d u) n
  · have hstate := quarantined_of_setAside hrest ha hp haside
    exact iff_of_false (not_atomic_of_state hstate (by decide)) fun h => h.1 haside
  · by_cases hn : Recorded d u raw n
    · rw [reboot_committed hrest ha hp hn haside]
      exact ⟨fun hfit => ⟨haside, fun _ => hfit⟩, fun h => h.2 hn⟩
    · have hkept : Replaceable d u raw n := by
        unfold SetAside at haside
        simp only at haside
        omega
      exact iff_of_true (reboot_kept hrest ha hp hkept) ⟨haside, fun h => absurd h hn⟩

end

def demoUpdate : List UInt8 :=
  pack kindDezhIr (ascii "name = \"demo\"\nversion = \"1.0.0\"") [0x00]

def demoReplacement : Replacement where
  slot := 0
  package := ⟨kindDezhIr, ascii "demo", ascii "1.0.0", 0, [0x00]⟩
  rawCrc := checksum demoUpdate

theorem updateChecks_demoUpdate :
    updateChecks (registryOf demoDisk) (ascii "demo") false demoUpdate = .ok demoReplacement := by
  rw [registryOf_demoDisk]
  decide +kernel

theorem splitWhitespace_demo : splitWhitespace (ascii "demo") = [ascii "demo"] := by decide +kernel

theorem sectorsFor_demo : sectorsFor demoUpdate.length = 1 ∧
    sectorsFor (oldRaw demoDisk demoReplacement).length = 1 := by
  rw [oldRaw, show demoReplacement.slot = 0 from rfl, blobOf_demoDisk]
  decide +kernel

theorem update_atomic_demo :
    AtRest demoDisk ∧ Synced .boot demoDisk ∧ splitWhitespace (ascii "demo") = [ascii "demo"] ∧
    updateChecks (registryOf demoDisk) (ascii "demo") false demoUpdate = .ok demoReplacement ∧
    (UpdateAtomic demoDisk demoReplacement demoUpdate
        (reboot (crashAfter 30 (pkgUpdate .boot (ascii "demo") demoUpdate) demoDisk)) ↔
      ¬ SetAside demoReplacement demoUpdate
          (blobOf demoDisk (registryOf demoDisk) demoReplacement.slot) 30 ∧
        (24 + sectorsFor demoUpdate.length +
          sectorsFor (blobOf demoDisk (registryOf demoDisk) demoReplacement.slot).length +
          entryWrites demoReplacement.slot ≤ 30 →
            roomBefore demoDisk demoReplacement.slot + demoReplacement.package.payload.length ≤
              arenaSize)) :=
  ⟨atRest_demoDisk, synced_boot demoDisk, splitWhitespace_demo, updateChecks_demoUpdate,
    update_atomic_iff atRest_demoDisk (synced_boot demoDisk) splitWhitespace_demo
      updateChecks_demoUpdate 30⟩

/-- The power is cut when one sector of the third journal record is written. The package
was active, and it ends up quarantined. -/
theorem demo_update_set_aside :
    AtRest demoDisk ∧ Synced .boot demoDisk ∧
    updateChecks (registryOf demoDisk) (ascii "demo") false demoUpdate = .ok demoReplacement ∧
    entryState (registryOf demoDisk) 0 = stateActive ∧
    entryState (registryOf
      (reboot (crashAfter 19 (pkgUpdate .boot (ascii "demo") demoUpdate) demoDisk)).2) 0 =
        stateQuarantined ∧
    ¬ UpdateAtomic demoDisk demoReplacement demoUpdate
      (reboot (crashAfter 19 (pkgUpdate .boot (ascii "demo") demoUpdate) demoDisk)) := by
  have hrest := atRest_demoDisk
  have ha := updateChecks_ok updateChecks_demoUpdate
  obtain ⟨p, hp⟩ := hrest.loadable demoReplacement.slot ha.slot ha.active
  have haside : SetAside demoReplacement demoUpdate
      (oldRaw demoDisk demoReplacement) 19 := by
    refine .inl ?_
    rw [sectorsFor_demo.1, sectorsFor_demo.2]
    decide
  obtain ⟨a, htrace⟩ := trace_pkgUpdate hrest (synced_boot demoDisk) splitWhitespace_demo
    updateChecks_demoUpdate hp
  have hstate := quarantined_of_setAside hrest ha hp haside
  rw [htrace.crashAfter]
  exact ⟨hrest, synced_boot demoDisk, updateChecks_demoUpdate, ha.active, hstate,
    not_atomic_of_state hstate (by decide)⟩

def updatedDisk : Disk Sector :=
  ((pkgUpdate .boot (ascii "demo") demoUpdate).eval demoDisk).2

theorem updatedDisk_eq : updatedDisk = recovered demoDisk demoReplacement demoUpdate 40 := by
  obtain ⟨hnew, hold⟩ := sectorsFor_demo
  obtain ⟨a, htrace⟩ := trace_pkgUpdate atRest_demoDisk (synced_boot demoDisk) splitWhitespace_demo
    updateChecks_demoUpdate loads_demoDisk
  have hlength : (writesOf (updatePhases (registryOf demoDisk) demoReplacement demoUpdate
      (oldRaw demoDisk demoReplacement))).length = 40 := by
    simp only [updatePhases, writesOf_append, writesOf_cons, writesOf_nil, writesOf_commit,
      commitWrites, Phase.writes, journalWrites, blobWrites, registryWrites, markerWrites,
      List.length_append, length_stripe, List.length_nil, hnew, hold]
    rfl
  have hidle : recovery (registryOf demoDisk) demoReplacement demoUpdate
      (oldRaw demoDisk demoReplacement) 40 = [] :=
    if_pos (.inr (by omega))
  rw [updatedDisk, htrace.disk, recovered, hidle, writesOf_nil, replay_nil, crashed, ← hlength,
    List.take_length]

theorem registryOf_updatedDisk : registryOf updatedDisk =
    demoReplacement.registryWith (demoAdmission.registryWith (fun _ => 0) demoPackage stateActive)
      demoUpdate stateActive := by
  have ha := updateChecks_ok updateChecks_demoUpdate
  obtain ⟨hnew, hold⟩ := sectorsFor_demo
  have hentry := entryWrites_bounds ha.slot
  have hcommitted := registryOf_of_committed (n := 40) (short_of_atRest atRest_demoDisk) ha
    (by omega) (by unfold SetAside; simp only; omega)
  rw [updatedDisk_eq, hcommitted, registryOf_demoDisk]

theorem blobOf_updatedDisk : blobOf updatedDisk (registryOf updatedDisk) 0 = demoUpdate := by
  rw [registryOf_updatedDisk]
  decide +kernel

theorem loads_updatedDisk :
    Loads updatedDisk (registryOf updatedDisk) 0 demoReplacement.package := by
  have ha := updateChecks_ok updateChecks_demoUpdate
  refine ⟨?_, ?_, ?_, ?_, blobOf_updatedDisk ▸ ha.contents, ha.name, ha.version⟩
  on_goal 4 => rw [blobOf_updatedDisk]
  all_goals
    rw [registryOf_updatedDisk]
    decide +kernel

theorem atRest_updatedDisk : AtRest updatedDisk := by
  refine ⟨journalOf_of_zero (by decide +kernel), loadable_of_first loads_updatedDisk ?_, ?_⟩
  · rw [registryOf_updatedDisk]
    decide +kernel
  · rw [payloadTotal, registryOf_updatedDisk]
    decide +kernel

end Dezh.UpdateRecovery

import Dezh.UpdateRecovery

/-!
# Power cuts during a rollback

A rollback writes its record, the pending entry of the checkpoint, the package and the
active entry. The recovery of such a record writes the checkpoint into the package area
and sets the state of the entry, whatever the entry describes. As long as the entry on
disk is still the old one, the old entry then stands over the package of the checkpoint,
and the loader marks the slot corrupt. Once the pending entry is on disk the recovery
finishes the rollback, and the checkpoint is loaded if its payload fits.
-/
namespace Dezh.RollbackRecovery
open BlockProgram Program ByteLayout CairnFormat PackageFormat PackageStore PackageText PackageCodec
  PackageAreas PackageRecovery PackageLoading PackageCommands CheckpointCodec InstallTrace
  InstallRecovery StorePhases

variable {reg : Bytes} {slot n s : ℕ} {name arg : Text} {d : Disk Sector} {q p : Inspected}
  {raw : List UInt8} {k : Kernel} {options : List Text}

section
variable {i : ℕ} {state : UInt8}

theorem sameHead_setEntryFlags {flags : ℕ} : SameHead reg (setEntryFlags reg slot flags) slot :=
  fun _ _ _ => putU32_of_outside (by omega)

/-- The restored entry before its flags are set. -/
abbrev checkpointEntry (reg : Bytes) (slot : ℕ) (name : Text) (state : UInt8) : Bytes :=
  encodeRegistryEntry reg slot state name (previousVersion reg slot) (previousKind reg slot)
    (previousMcaps reg slot) (previousRawLen reg slot) (previousRawCrc reg slot)

theorem sameHead_restoredRegistry :
    SameHead (checkpointEntry reg slot name state) (restoredRegistry reg slot name state) slot := by
  unfold restoredRegistry
  simp only
  split_ifs
  · exact sameHead_setEntryFlags
  · exact fun _ _ _ => rfl

theorem entryState_restoredRegistry : entryState (restoredRegistry reg slot name state) slot = state :=
  sameHead_restoredRegistry.state.trans entryState_encode

theorem restoredRegistry_of_outside (hn : name.length ≤ nameMax)
    (hi : i < entryOff slot ∨ entryOff slot + entrySize ≤ i) :
    restoredRegistry reg slot name state i = reg i := by
  have hencode : checkpointEntry reg slot name state i = reg i :=
    encodeRegistryEntry_of_outside hn entryText_length hi
  unfold restoredRegistry
  split_ifs
  · rw [← hencode]
    unfold entrySize at hi
    exact putU32_of_outside (by omega)
  · exact hencode

theorem setEntryState_restoredRegistry {state' : UInt8} :
    setEntryState (restoredRegistry reg slot name state) slot state' =
      restoredRegistry reg slot name state' := by
  funext i
  by_cases hi : i = entryOff slot
  · subst hi
    exact putU8_self.trans entryState_restoredRegistry.symm
  · rw [setEntryState_of_ne hi]
    unfold restoredRegistry
    have hencode : checkpointEntry reg slot name state i = checkpointEntry reg slot name state' i :=
      encodeRegistryEntry_congr hi
    split_ifs
    · simp only [setEntryFlags, putU32, putLe, hencode]
    · exact hencode

theorem restoredRegistry_fields (reg : Bytes) (slot : ℕ) (name : Text) (state : UInt8) :
    u32At (restoredRegistry reg slot name state) (entryOff slot + 8) = previousMcaps reg slot ∧
      u32At (restoredRegistry reg slot name state) (entryOff slot + 12) = previousRawLen reg slot ∧
      u32At (restoredRegistry reg slot name state) (entryOff slot + 16) = previousRawCrc reg slot := by
  have hhead : SameHead (checkpointEntry reg slot name state) (restoredRegistry reg slot name state) slot :=
    sameHead_restoredRegistry
  rw [hhead.field (by omega), hhead.field (by omega), hhead.field (by omega)]
  exact entryFields_encode u32At_lt u32At_lt u32At_lt

end

def checkpointOf (d : Disk Sector) (reg : Bytes) (slot : ℕ) : List UInt8 :=
  blobAt d (previousBlobSector slot) (previousRawLen reg slot)

/-- A valid checkpoint: the package is intact, and the second half of the entry is what
its manifest says. -/
structure Checkpoint (d : Disk Sector) (reg : Bytes) (slot : ℕ) (q : Inspected) : Prop where
  valid : entryPreviousValid reg slot = true
  pos : 0 < previousRawLen reg slot
  le : previousRawLen reg slot ≤ maxRawBytes
  crc : checksum (checkpointOf d reg slot) = previousRawCrc reg slot
  contents : inspect (checkpointOf d reg slot) = some q
  name : q.name = entryName reg slot
  version : q.version = previousVersion reg slot
  kind : q.kind = previousKind reg slot
  mcaps : q.mcaps = previousMcaps reg slot

theorem length_checkpointOf : (checkpointOf d reg slot).length = previousRawLen reg slot :=
  length_toList

theorem Checkpoint.length_le (h : Checkpoint d reg slot q) :
    (checkpointOf d reg slot).length ≤ maxRawBytes := length_checkpointOf.trans_le h.le

/-- The current half of the entry agrees with the checkpoint. -/
def SameMetadata (reg : Bytes) (slot : ℕ) : Prop :=
  entryVersion reg slot = previousVersion reg slot ∧ entryKind reg slot = previousKind reg slot ∧
    entryMcaps reg slot = previousMcaps reg slot ∧ entryRawLen reg slot = previousRawLen reg slot ∧
    entryRawCrc reg slot = previousRawCrc reg slot

def rollbackPhases (reg : Bytes) (slot : ℕ) (name : Text) (raw : List UInt8) : List Phase :=
  [.journal (encodeJournal (restoration reg slot name)),
    .registry (restoredRegistry reg slot name statePendingInstall), .blob (slotBlobSector slot) raw] ++
  commit (restoredRegistry reg slot name stateActive)

theorem encodable_restoration (hs : slot < maxPkgs) (hn : name.length ≤ nameMax)
    (hl : previousRawLen reg slot ≤ maxRawBytes) : Encodable (restoration reg slot name) :=
  encodable_journalRecord hs hn entryText_length u32At_lt hl u32At_lt
    (UInt32.toNat_lt _) (Nat.two_pow_pos 32)

theorem trace_restore (hs : slot < maxPkgs) (hl : raw.length ≤ maxRawBytes) :
    (restore k slot name raw).Trace d (.restored, Kernel.invalidateLoaded { k with
        registry := restoredRegistry k.registry slot name stateActive })
      (writesOf (rollbackPhases k.registry slot name raw)) := by
  have hactive : setEntryState (restoredRegistry k.registry slot name statePendingInstall) slot
      stateActive = restoredRegistry k.registry slot name stateActive :=
    setEntryState_restoredRegistry
  unfold restore
  simp only [rollbackPhases, writesOf_append, writesOf_cons, writesOf_nil, writesOf_commit,
    Phase.writes, List.append_assoc, List.nil_append]
  refine trace_writeJournalRaw.bind ?_
  refine trace_writeRegistry.bind ?_
  refine (trace_writeBlobAt hl (within_slot hs)).bind ?_
  rw [← hactive, ← List.append_nil (commitWrites _)]
  exact trace_commitStore.bind (.pure _ _)

/-- A rollback that is not refused. -/
structure Ready (d : Disk Sector) (name : Text) (options : List Text) (slot : ℕ) (q : Inspected) :
    Prop where
  found : findRegistrySlot (registryOf d) name = some slot
  active : entryState (registryOf d) slot = stateActive
  unpinned : entryIsPinned (registryOf d) slot = true → force ∈ options
  checkpoint : Checkpoint d (registryOf d) slot q

theorem Ready.slot_lt (h : Ready d name options slot q) : slot < maxPkgs :=
  (findRegistrySlot_some h.found).1

theorem Ready.name_le (h : Ready d name options slot q) : name.length ≤ nameMax := by
  rw [← (findRegistrySlot_some h.found).2.2]
  exact entryText_length

theorem trace_readCheckpoint (hs : slot < maxPkgs) (hle : previousRawLen reg slot ≤ maxRawBytes) :
    (readBlobArea (previousBlobSector slot) (previousRawLen reg slot)).Trace d
      (some (checkpointOf d reg slot)) [] := trace_readBlobArea hle (within_previous hs)

theorem trace_pkgRollback_of_checksum (hrest : AtRest d) (hk : Synced k d)
    (harg : splitWhitespace arg = name :: options)
    (hfound : findRegistrySlot (registryOf d) name = some slot)
    (hactive : entryState (registryOf d) slot = stateActive)
    (hpinned : entryIsPinned (registryOf d) slot = true → force ∈ options)
    (hprevious : entryPreviousValid (registryOf d) slot = true)
    (hle : previousRawLen (registryOf d) slot ≤ maxRawBytes) :
    (checksum (checkpointOf d (registryOf d) slot) = previousRawCrc (registryOf d) slot →
      ∃ k', (pkgRollback k arg).Trace d (.restored, k') (writesOf
        (rollbackPhases (registryOf d) slot name (checkpointOf d (registryOf d) slot)))) ∧
    (checksum (checkpointOf d (registryOf d) slot) ≠ previousRawCrc (registryOf d) slot →
      ∃ k', (pkgRollback k arg).Trace d (.previousInvalid, k') []) := by
  have hs : slot < maxPkgs := (findRegistrySlot_some hfound).1
  have hforced : ¬ (entryIsPinned (registryOf d) slot = true ∧ options.contains force = false) := by
    rintro ⟨hpin, hforce⟩
    exact absurd (List.contains_iff_mem.mpr (hpinned hpin)) (by rw [hforce]; decide)
  have hvalid : ¬ (entryState (registryOf d) slot ≠ stateActive ∨
      entryPreviousValid (registryOf d) slot = false) := by
    rw [hactive, hprevious]
    decide
  unfold pkgRollback
  simp only [harg]
  constructor
  · intro hcrc
    refine trace_withStore hrest hk fun k' hreg => ?_
    unfold rollback
    rw [← hreg] at hfound hforced hvalid hle hcrc ⊢
    simp only [hfound, if_neg hvalid, if_neg hforced]
    refine ⟨?_, (trace_readCheckpoint hs hle).bind_nil ?_⟩
    rotate_left
    · simp only
      rw [if_neg (not_not_intro hcrc)]
      exact trace_restore hs (length_checkpointOf.trans_le hle)
  · intro hcrc
    refine trace_withStore hrest hk fun k' hreg => ?_
    unfold rollback
    rw [← hreg] at hfound hforced hvalid hle hcrc
    simp only [hfound, if_neg hvalid, if_neg hforced]
    refine ⟨k', (trace_readCheckpoint hs hle).bind_nil ?_⟩
    simp only
    rw [if_pos hcrc]
    exact .pure _ d

theorem trace_pkgRollback (hrest : AtRest d) (hk : Synced k d)
    (harg : splitWhitespace arg = name :: options) (h : Ready d name options slot q) :
    ∃ k', (pkgRollback k arg).Trace d (.restored, k')
      (writesOf (rollbackPhases (registryOf d) slot name (checkpointOf d (registryOf d) slot))) :=
  (trace_pkgRollback_of_checksum hrest hk harg h.found h.active h.unpinned h.checkpoint.valid
    h.checkpoint.le).1 h.checkpoint.crc

section
variable {img : Image}

def journalAfter (img : Image) (slot : ℕ) (name : Text) (raw : List UInt8) (n : ℕ) : Bytes :=
  if n = 0 then img.journal
  else if n < 14 + sectorsFor raw.length then encodeJournal (restoration img.registry slot name)
  else fun _ => 0

def registryAfter (img : Image) (slot : ℕ) (name : Text) (raw : List UInt8) (n : ℕ) : Bytes :=
  if n < 8 + entryWrites slot then img.registry
  else if n < 10 + sectorsFor raw.length + entryWrites slot then
    restoredRegistry img.registry slot name statePendingInstall
  else restoredRegistry img.registry slot name stateActive

theorem crash_rollbackPhases (raw : List UInt8) (hshort : Short img.journal) (hs : slot < maxPkgs)
    (hn : name.length ≤ nameMax) (hl : previousRawLen img.registry slot ≤ maxRawBytes) :
    crash (rollbackPhases img.registry slot name raw) n img =
      ⟨journalAfter img slot name raw n, registryAfter img slot name raw n,
        replay img.blobs ((blobWrites (slotBlobSector slot) raw).take (n - 10))⟩ := by
  have hrecord : Short (encodeJournal (restoration img.registry slot name)) :=
    short_encodeJournal (encodable_restoration hs hn hl)
  have hentry := entryWrites_bounds hs
  have houtside {state : UInt8} : ∀ i, i < entryOff slot ∨ entryOff slot + entrySize ≤ i →
      restoredRegistry img.registry slot name state i = img.registry i :=
    fun i hi => restoredRegistry_of_outside hn hi
  simp only [rollbackPhases, commit, List.cons_append, List.nil_append, crash, Phase.after,
    Phase.size, Nat.sub_sub]
  refine Image.ext ?_ ?_ ?_
  · simp only
    rw [overlay_journal hshort hrecord, overlay_journal (hshort.ite hrecord) short_zero]
    unfold journalAfter journalSectors registrySectors
    split_ifs <;> first | omega | rfl
  · simp only
    rw [overlay_registry hs houtside, overlay_registry_ite hs houtside houtside]
    unfold registryAfter journalSectors registrySectors
    split_ifs <;> first | omega | rfl
  · rfl

def crashed (d : Disk Sector) (slot : ℕ) (name : Text) (n : ℕ) : Disk Sector :=
  replay d ((writesOf (rollbackPhases (registryOf d) slot name
    (checkpointOf d (registryOf d) slot))).take n)

theorem imageOf_crashed (hshort : Short (journalOf d)) (h : Ready d name options slot q) :
    let raw := checkpointOf d (registryOf d) slot
    imageOf (crashed d slot name n) = ⟨journalAfter (imageOf d) slot name raw n,
      registryAfter (imageOf d) slot name raw n,
      replay (imageOf d).blobs ((blobWrites (slotBlobSector slot) raw).take (n - 10))⟩ := by
  have himage : Short (imageOf d).journal := hshort
  have hle : previousRawLen (imageOf d).registry slot ≤ maxRawBytes := h.checkpoint.le
  have hcrash := crash_rollbackPhases (n := n) (checkpointOf d (registryOf d) slot) himage h.slot_lt
    h.name_le hle
  have hbase := le_slotBlobSector slot
  rw [crashed, imageOf_crash ?_]
  · exact hcrash
  simp only [rollbackPhases, commit, List.cons_append, List.nil_append, List.forall_mem_cons,
    Phase.Placed, true_and]
  exact ⟨hbase, by simp⟩

def registryRecovered (reg : Bytes) (slot : ℕ) (name : Text) (n : ℕ) : Bytes :=
  if n < 8 + entryWrites slot then reg else restoredRegistry reg slot name stateActive

def recovery (reg : Bytes) (slot : ℕ) (name : Text) (raw : List UInt8) (n : ℕ) : List Phase :=
  if n = 0 ∨ 14 + sectorsFor raw.length ≤ n then []
  else [.blob (slotBlobSector slot) raw] ++ commit (registryRecovered reg slot name n)

theorem plan_crashed (hjournal : journalOf d = fun _ => 0) (h : Ready d name options slot q) :
    (imageOf (crashed d slot name n)).plan false =
      some (recovery (registryOf d) slot name (checkpointOf d (registryOf d) slot) n) := by
  have hshort : Short (journalOf d) := by
    rw [hjournal]
    exact short_zero
  have himage := imageOf_crashed (n := n) hshort h
  unfold recovery
  split_ifs with hidle
  · refine plan_of_zero ?_
    rw [himage]
    unfold journalAfter
    simp only
    split_ifs with hn
    · exact hjournal
    · omega
    · rfl
  · have hrecord : (imageOf (crashed d slot name n)).journal =
        encodeJournal (restoration (registryOf d) slot name) := by
      rw [himage]
      unfold journalAfter
      simp only
      rw [if_neg (by omega), if_pos (by omega)]
      rfl
    have hprevious : blobAt (imageOf (crashed d slot name n)).blobs (previousBlobSector slot)
        (previousRawLen (registryOf d) slot) = checkpointOf d (registryOf d) slot := by
      rw [himage]
      simp only
      rw [blobAt_of_disjoint h.checkpoint.length_le h.checkpoint.le
        (.inr (current_le_previous h.slot_lt)), blobAt_imageOf (le_previousBlobSector slot)]
      rfl
    have hregistry : setEntryState (imageOf (crashed d slot name n)).registry slot stateActive =
        registryRecovered (registryOf d) slot name n := by
      rw [himage]
      unfold registryAfter registryRecovered
      simp only
      split_ifs
      · exact setEntryState_self h.active
      · exact setEntryState_restoredRegistry
      · exact setEntryState_restoredRegistry
    have hcrc : checksum (blobAt (imageOf (crashed d slot name n)).blobs (previousBlobSector slot)
        (previousRawLen (registryOf d) slot)) = previousRawCrc (registryOf d) slot := by
      rw [hprevious]
      exact h.checkpoint.crc
    have hverdict := verdict_restore (imageOf (crashed d slot name n))
      (restoration (registryOf d) slot name) rfl rfl h.checkpoint.le hcrc
    refine (plan_of_record hrecord
      (encodable_restoration h.slot_lt h.name_le h.checkpoint.le) hverdict).trans ?_
    exact congrArg₂ (fun raw reg => some ([Phase.blob (slotBlobSector slot) raw] ++ commit reg))
      hprevious hregistry

end

section
variable {t : ℕ}

def recovered (d : Disk Sector) (slot : ℕ) (name : Text) (n : ℕ) : Disk Sector :=
  replay (crashed d slot name n)
    (writesOf (recovery (registryOf d) slot name (checkpointOf d (registryOf d) slot) n))

theorem registryRecovered_of_outside {reg : Bytes} {i : ℕ} (hn : name.length ≤ nameMax)
    (hi : i < entryOff slot ∨ entryOff slot + entrySize ≤ i) :
    registryRecovered reg slot name n i = reg i := by
  unfold registryRecovered
  split_ifs
  · rfl
  · exact restoredRegistry_of_outside hn hi

section
variable (hshort : Short (journalOf d))
include hshort

section
variable (h : Ready d name options slot q)
include h

theorem registryOf_recovered :
    registryOf (recovered d slot name n) = registryRecovered (registryOf d) slot name n := by
  have hentry := entryWrites_bounds h.slot_lt
  unfold recovered recovery
  split_ifs with hidle
  · have hcrashed : registryOf (crashed d slot name n) =
        registryAfter (imageOf d) slot name (checkpointOf d (registryOf d) slot) n :=
      congrArg Image.registry (imageOf_crashed hshort h)
    rw [writesOf_nil, replay_nil, hcrashed]
    unfold registryAfter registryRecovered
    split_ifs <;> first | omega | rfl
  · refine registryOf_plan fun i hi => ?_
    rw [registryRecovered_of_outside h.name_le (.inr ((entryOff_lt h.slot_lt).trans hi))]
    exact area_of_le hi

theorem crashed_of_le (hs : 64 ≤ s) :
    crashed d slot name n s = replay d ((blobWrites (slotBlobSector slot)
      (checkpointOf d (registryOf d) slot)).take (n - 10)) s := by
  rw [← imageOf_blobs (d := crashed d slot name n) hs, imageOf_crashed hshort h]
  rw [← Phase.imageOf_blob (le_slotBlobSector slot), imageOf_blobs hs]

theorem recovered_of_le (hn : n ≠ 0) (hs : 64 ≤ s) :
    recovered d slot name n s =
      replay d (blobWrites (slotBlobSector slot) (checkpointOf d (registryOf d) slot)) s := by
  unfold recovered recovery
  split_ifs with hidle
  · rw [writesOf_nil, replay_nil, crashed_of_le hshort h hs, List.take_of_length_le]
    rw [blobWrites, length_stripe]
    omega
  · rw [blobs_plan hs, writesOf_cons, writesOf_nil, List.append_nil]
    unfold Phase.writes blobWrites
    rw [replay_stripe, replay_stripe]
    split_ifs with hs'
    · rfl
    · rw [crashed_of_le hshort h hs, blobWrites, replay_take_stripe, if_neg (by omega)]

theorem recovered_of_outside
    (hs : 64 ≤ s) (hout : n = 0 ∨ s < slotBlobSector slot ∨ slotBlobSector slot + slotSectors ≤ s) :
    recovered d slot name n s = d s := by
  by_cases hn : n = 0
  · rw [recovered, recovery, if_pos (.inl hn), writesOf_nil, replay_nil, crashed_of_le hshort h hs,
      hn, List.take_zero, replay_nil]
  · rw [recovered_of_le hshort h hn hs]
    exact replay_blobWrites_outside h.checkpoint.length_le (by omega)

theorem untouched_recovered (hne : n = 0 ∨ t ≠ slot) : Untouched d (recovered d slot name n) t := by
  refine ⟨fun i hi => ?_, fun i hi => ?_⟩
  · rw [registryOf_recovered hshort h]
    rcases hne with hn | hne
    · rw [registryRecovered, if_pos (by omega)]
    · exact registryRecovered_of_outside h.name_le (entryOff_ne hne hi)
  · have hbase : 64 ≤ slotBlobSector t + i := (le_slotBlobSector t).trans (Nat.le_add_right _ _)
    refine recovered_of_outside hshort h hbase ?_
    rcases hne with hn | hne
    · exact .inl hn
    · have hdisjoint := current_disjoint hne
      omega

end

end

end

/-- The slot serves the checkpoint, and its entry describes it. -/
structure Restored (after : (Bool × Kernel) × Disk Sector) (slot : ℕ) (raw : List UInt8)
    (q : Inspected) : Prop where
  serves : Serves after slot raw q
  name : entryName (registryOf after.2) slot = q.name
  version : entryVersion (registryOf after.2) slot = q.version
  kind : entryKind (registryOf after.2) slot = q.kind
  mcaps : entryMcaps (registryOf after.2) slot = q.mcaps

/-- The slot serves the version before the rollback with its old entry, or the
checkpoint. -/
def RollbackAtomic (d : Disk Sector) (slot : ℕ) (q : Inspected) (after : (Bool × Kernel) × Disk Sector) :
    Prop :=
  (EntryKept d after.2 slot ∧ ∃ p, Serves after slot (blobOf d (registryOf d) slot) p) ∨
    Restored after slot (checkpointOf d (registryOf d) slot) q

theorem RollbackAtomic.active {after : (Bool × Kernel) × Disk Sector} (h : RollbackAtomic d slot q after) :
    entryState (registryOf after.2) slot = stateActive := by
  rcases h with ⟨-, p, hserves⟩ | hrestored
  · exact hserves.state
  · exact hrestored.serves.state

theorem arenaBefore_recovered (hrest : AtRest d) (h : Ready d name options slot q) :
    arenaBefore (fun _ => false) (recovered d slot name n) (registryOf (recovered d slot name n))
      slot = roomBefore d slot :=
  arenaBefore_of_untouched hrest h.slot_lt fun _ ht =>
    untouched_recovered (short_of_atRest hrest) h (.inr ht.ne)

theorem blobAt_recovered (hrest : AtRest d) (h : Ready d name options slot q) (hn : n ≠ 0) :
    blobAt (recovered d slot name n) (slotBlobSector slot) (previousRawLen (registryOf d) slot) =
      checkpointOf d (registryOf d) slot := by
  have hbase := le_slotBlobSector slot
  rw [← length_checkpointOf (d := d)]
  refine Eq.trans (blobAt_congr fun j _ => ?_) (blobAt_blobWrites (b := d))
  exact recovered_of_le (short_of_atRest hrest) h hn (by omega)

theorem loads_checkpoint {e : Disk Sector} {reg : Bytes} (h : Ready d name options slot q)
    (hmagic : toList reg (entryOff slot + 1) 4 = regMagic)
    (hlen : u32At reg (entryOff slot + 12) = previousRawLen (registryOf d) slot)
    (hcrc : u32At reg (entryOff slot + 16) = previousRawCrc (registryOf d) slot)
    (hblob : blobOf e reg slot = checkpointOf d (registryOf d) slot) : Loads e reg slot q := by
  have hc := h.checkpoint
  refine ⟨hmagic, ?_, ?_, ?_, ?_, ?_, ?_⟩
  · rw [hlen]
    exact hc.pos
  · rw [hlen]
    exact hc.le
  · rw [hblob, hcrc, hc.crc]
  · rw [hblob, hc.contents]
  · rw [hc.name]
    exact entryText_length
  · rw [hc.version]
    exact entryText_length

theorem length_of_overwritten {base len : ℕ} {raw : List UInt8} (hraw : inspect raw = some q)
    (hp : inspect (blobAt (replay d (blobWrites base raw)) base len) = some p) :
    len = raw.length := by
  obtain ⟨pkg, hparse⟩ := inspect_parse hraw
  obtain ⟨pkg', hparse'⟩ := inspect_parse hp
  obtain ⟨hheader, hlength⟩ := parse_length hparse
  obtain ⟨hheader', hlength'⟩ := parse_length hparse'
  rw [show (blobAt (replay d (blobWrites base raw)) base len).length = len from length_toList]
    at hheader' hlength'
  have hbyte : ∀ i < headerLen,
      ofList (blobAt (replay d (blobWrites base raw)) base len) i = ofList raw i := by
    intro i hi
    unfold headerLen at hi hheader hheader'
    have hread : ofList (blobAt (replay d (blobWrites base raw)) base len) i =
        PackageAreas.image (replay d (blobWrites base raw)) base i := by
      rw [blobAt, ofList_toList (by omega), Nat.zero_add]
    rw [hread]
    refine image_eq ?_
    have hfirst : i / sectorSize = 0 := Nat.div_eq_of_lt (by unfold sectorSize; omega)
    have hsectors : 0 < sectorsFor raw.length := by
      unfold sectorsFor sectorSize
      omega
    rw [hfirst, blobWrites, replay_stripe, if_pos (by omega), Nat.add_sub_cancel_left]
  have hfield {o : ℕ} (ho : o + 4 ≤ headerLen) :
      u32At (ofList (blobAt (replay d (blobWrites base raw)) base len)) o = u32At (ofList raw) o :=
    u32At_congr fun i _ hi => hbyte i (by omega)
  rw [hlength', hlength, hfield (by decide), hfield (by decide)]

theorem loads_restored (hrest : AtRest d) (h : Ready d name options slot q)
    (hn : 8 + entryWrites slot ≤ n) :
    registryOf (recovered d slot name n) = restoredRegistry (registryOf d) slot name stateActive ∧
      blobOf (recovered d slot name n) (registryOf (recovered d slot name n)) slot =
        checkpointOf d (registryOf d) slot ∧
      Loads (recovered d slot name n) (registryOf (recovered d slot name n)) slot q := by
  have hreg : registryOf (recovered d slot name n) =
      restoredRegistry (registryOf d) slot name stateActive := by
    rw [registryOf_recovered (short_of_atRest hrest) h, registryRecovered, if_neg (by omega)]
  obtain ⟨-, hlen, hcrc⟩ := restoredRegistry_fields (registryOf d) slot name stateActive
  have hblob : blobOf (recovered d slot name n) (registryOf (recovered d slot name n)) slot =
      checkpointOf d (registryOf d) slot := by
    rw [hreg, blobOf, hlen, blobAt_recovered hrest h (by omega)]
  refine ⟨hreg, hblob, ?_⟩
  rw [hreg] at hblob ⊢
  exact loads_checkpoint h (sameHead_restoredRegistry.magic.trans entryMagic_encode) hlen hcrc hblob

theorem reboot_restored (hrest : AtRest d) (h : Ready d name options slot q)
    (hn : 8 + entryWrites slot ≤ n) :
    RollbackAtomic d slot q (reboot (crashed d slot name n)) ↔
      roomBefore d slot + q.payload.length ≤ arenaSize := by
  have hs := h.slot_lt
  have hc := h.checkpoint
  have hplan := plan_crashed (n := n) hrest.journal h
  obtain ⟨hreg, hblob, hloads⟩ := loads_restored hrest h hn
  obtain ⟨hmcaps, -, -⟩ := restoredRegistry_fields (registryOf d) slot name stateActive
  have hstate : entryState (registryOf (recovered d slot name n)) slot = stateActive := by
    rw [hreg]
    exact entryState_restoredRegistry
  have harena := arenaBefore_recovered (n := n) hrest h
  rcases reboot_of_loads hplan hs hstate hloads harena with ⟨hfit, hserves, hhead⟩ | ⟨hfit, hcorrupt⟩
  · unfold recovered at hreg hblob
    rw [hblob] at hserves
    rw [hreg] at hhead
    refine iff_of_true (.inr ⟨hserves, ?_, ?_, ?_, ?_⟩) hfit
    · have hname : name = q.name := (findRegistrySlot_some h.found).2.2.symm.trans hc.name.symm
      rw [hhead.name, sameHead_restoredRegistry.name, ← hname]
      refine entryName_encode h.name_le ?_
      rw [← (findRegistrySlot_some h.found).2.2]
      exact isUtf8_entryText
    · rw [hhead.version, sameHead_restoredRegistry.version, hc.version]
      exact entryVersion_encode entryText_length isUtf8_entryText
    · rw [hhead.kind, sameHead_restoredRegistry.kind, entryKind_encode, hc.kind]
      exact Nat.mod_eq_of_lt (u16At_lt _ _)
    · rw [entryMcaps, hhead.field (by omega), hmcaps, hc.mcaps]
  · refine iff_of_false (fun hatomic => ?_) hfit
    exact absurd (hatomic.active.symm.trans hcorrupt) (by decide)

theorem registryOf_window (hrest : AtRest d) (h : Ready d name options slot q)
    (hn' : n < 8 + entryWrites slot) : registryOf (recovered d slot name n) = registryOf d := by
  rw [registryOf_recovered (short_of_atRest hrest) h, registryRecovered, if_pos hn']

section
variable (hrest : AtRest d) (h : Ready d name options slot q) (hn : n ≠ 0)
  (hn' : n < 8 + entryWrites slot)
include hrest h hn hn'

theorem blobOf_window :
    blobOf (recovered d slot name n) (registryOf (recovered d slot name n)) slot =
      blobAt (replay d (blobWrites (slotBlobSector slot) (checkpointOf d (registryOf d) slot)))
        (slotBlobSector slot) (entryRawLen (registryOf d) slot) := by
  have hbase := le_slotBlobSector slot
  rw [registryOf_window hrest h hn']
  exact blobAt_congr fun j _ => recovered_of_le (short_of_atRest hrest) h hn (by omega)

theorem blobOf_window_of_length
    (hlen : entryRawLen (registryOf d) slot = previousRawLen (registryOf d) slot) :
    blobOf (recovered d slot name n) (registryOf (recovered d slot name n)) slot =
      checkpointOf d (registryOf d) slot := by
  rw [blobOf_window hrest h hn hn', hlen, ← length_checkpointOf (d := d), blobAt_blobWrites]

theorem metadata_of_active
    (hactive : entryState (registryOf (reboot (crashed d slot name n)).2) slot = stateActive) :
    entryRawLen (registryOf d) slot = previousRawLen (registryOf d) slot ∧
      entryRawCrc (registryOf d) slot = previousRawCrc (registryOf d) slot ∧
      roomBefore d slot + q.payload.length ≤ arenaSize := by
  have hc := h.checkpoint
  obtain ⟨-, p, hp, hfit⟩ :=
    loads_of_active_reboot (plan_crashed hrest.journal h) h.slot_lt hactive
  change Loads (recovered d slot name n) (registryOf (recovered d slot name n)) slot p at hp
  change arenaBefore _ (recovered d slot name n) (registryOf (recovered d slot name n)) slot +
    p.payload.length ≤ arenaSize at hfit
  have hcontents := hp.contents
  rw [blobOf_window hrest h hn hn'] at hcontents
  have hlen : entryRawLen (registryOf d) slot = previousRawLen (registryOf d) slot :=
    (length_of_overwritten hc.contents hcontents).trans length_checkpointOf
  have hblob := blobOf_window_of_length hrest h hn hn' hlen
  have hcrc := hp.crc
  have hread := hp.contents
  rw [hblob, registryOf_window hrest h hn', hc.crc] at hcrc
  rw [hblob, hc.contents] at hread
  rw [arenaBefore_recovered hrest h, ← Option.some.inj hread] at hfit
  exact ⟨hlen, hcrc.symm, hfit⟩

theorem reboot_unrestored :
    RollbackAtomic d slot q (reboot (crashed d slot name n)) ↔
      (checkpointOf d (registryOf d) slot = blobOf d (registryOf d) slot ∨
        SameMetadata (registryOf d) slot) ∧ roomBefore d slot + q.payload.length ≤ arenaSize := by
  have hs := h.slot_lt
  have hc := h.checkpoint
  have hplan := plan_crashed (n := n) hrest.journal h
  have harena := arenaBefore_recovered (n := n) hrest h
  have hreg := registryOf_window hrest h hn'
  constructor
  · intro hatomic
    obtain ⟨hlen, hcrc, hfit⟩ := metadata_of_active hrest h hn hn' hatomic.active
    have hblob := blobOf_window_of_length hrest h hn hn' hlen
    refine ⟨?_, hfit⟩
    rcases hatomic with ⟨-, p', hserves⟩ | hrestored
    · -- the old package is served, and it is the checkpoint
      left
      rw [← hblob, ← hserves.blob]
      exact (blobOf_reboot hplan).symm
    · -- the old entry describes the checkpoint
      right
      have hhead : SameHead (registryOf (recovered d slot name n))
          (registryOf (reboot (crashed d slot name n)).2) slot :=
        sameHead_reboot hplan hs hrestored.serves.state
      rw [hreg] at hhead
      refine ⟨?_, ?_, ?_, hlen, hcrc⟩
      · rw [← hhead.version, hrestored.version, hc.version]
      · rw [← hhead.kind, hrestored.kind, hc.kind]
      · rw [← hc.mcaps, ← hrestored.mcaps]
        exact (hhead.field (by omega)).symm
  · rintro ⟨hsame, hfit⟩
    obtain ⟨p, hp⟩ := hrest.loadable slot hs h.active
    have hmetadata : entryRawLen (registryOf d) slot = previousRawLen (registryOf d) slot ∧
        entryRawCrc (registryOf d) slot = previousRawCrc (registryOf d) slot := by
      rcases hsame with hraw | ⟨-, -, -, hmetadata⟩
      · have hlength := congrArg List.length hraw
        have hcrc := hp.crc
        rw [← hraw, hc.crc] at hcrc
        rw [length_checkpointOf, show (blobOf d (registryOf d) slot).length = _ from length_toList]
          at hlength
        exact ⟨hlength.symm, hcrc.symm⟩
      · exact hmetadata
    have hblob := blobOf_window_of_length hrest h hn hn' hmetadata.1
    have hloads : Loads (recovered d slot name n) (registryOf (recovered d slot name n)) slot q := by
      rw [hreg] at hblob ⊢
      exact loads_checkpoint h hp.magic hmetadata.1 hmetadata.2 hblob
    have hstate : entryState (registryOf (recovered d slot name n)) slot = stateActive := by
      rw [hreg, h.active]
    rcases reboot_of_loads hplan hs hstate hloads harena with ⟨-, hserves, hhead⟩ | ⟨hroom, -⟩
    · have hentry := (untouched_reboot hplan hs hserves.state).entry
      unfold recovered at hreg hblob
      rw [hblob] at hserves
      rw [hreg] at hhead hentry
      rcases hsame with hraw | ⟨hversion, hkind, hmcaps, -⟩
      · rw [hraw] at hserves
        exact .inl ⟨hentry, q, hserves⟩
      · refine .inr ⟨hserves, ?_, ?_, ?_, ?_⟩
        · rw [hhead.name, hc.name]
        · rw [hhead.version, hversion, hc.version]
        · rw [hhead.kind, hkind, hc.kind]
        · rw [hc.mcaps, ← hmcaps]
          exact hhead.field (by omega)
    · exact absurd hfit hroom

end

/-- A power cut during a rollback leaves the old version or the checkpoint exactly if no
write has happened, or the checkpoint fits into the arena and the entry on disk describes
the package that the recovery writes. -/
theorem rollback_atomic_iff (hrest : AtRest d) (hk : Synced k d)
    (harg : splitWhitespace arg = name :: options) (h : Ready d name options slot q) (n : ℕ) :
    RollbackAtomic d slot q (reboot (crashAfter n (pkgRollback k arg) d)) ↔
      n = 0 ∨ ((8 + entryWrites slot ≤ n ∨
        checkpointOf d (registryOf d) slot = blobOf d (registryOf d) slot ∨
        SameMetadata (registryOf d) slot) ∧ roomBefore d slot + q.payload.length ≤ arenaSize) := by
  obtain ⟨a, htrace⟩ := trace_pkgRollback hrest hk harg h
  rw [htrace.crashAfter]
  change RollbackAtomic d slot q (reboot (crashed d slot name n)) ↔ _
  by_cases hn : n = 0
  · obtain ⟨p, hp⟩ := hrest.loadable slot h.slot_lt h.active
    have hsame : ∀ t ≤ slot, Untouched d (recovered d slot name n) t := fun t _ =>
      untouched_recovered (short_of_atRest hrest) h (.inl hn)
    obtain ⟨hkept, hserves⟩ :=
      kept_reboot (plan_crashed hrest.journal h) hrest h.slot_lt hsame h.active hp
    exact iff_of_true (.inl ⟨hkept, p, hserves⟩) (.inl hn)
  · by_cases hpending : 8 + entryWrites slot ≤ n
    · rw [reboot_restored hrest h hpending]
      exact ⟨fun hfit => .inr ⟨.inl hpending, hfit⟩, fun hor => (hor.resolve_left hn).2⟩
    · rw [reboot_unrestored hrest h hn (by omega)]
      exact ⟨fun hor => .inr ⟨.inr hor.1, hor.2⟩, fun hor =>
        ⟨(hor.resolve_left hn).1.resolve_left hpending, (hor.resolve_left hn).2⟩⟩

section
open UpdateRecovery (updatedDisk atRest_updatedDisk registryOf_updatedDisk splitWhitespace_demo)

theorem checkpointOf_updatedDisk :
    checkpointOf updatedDisk (registryOf updatedDisk) 0 = demoPackage := by
  rw [checkpointOf, registryOf_updatedDisk]
  decide +kernel

theorem ready_updatedDisk : Ready updatedDisk (ascii "demo") [] 0 demoAdmission.package := by
  have hcrc : checksum demoPackage = previousRawCrc (registryOf updatedDisk) 0 := by
    rw [registryOf_updatedDisk]
    decide +kernel
  refine ⟨?_, ?_, ?_, ?_, ?_, ?_, checkpointOf_updatedDisk ▸ hcrc,
    checkpointOf_updatedDisk ▸ (recvChecks_ok recvChecks_demoPackage).contents, ?_, ?_, ?_, ?_⟩
  all_goals
    rw [registryOf_updatedDisk]
    decide +kernel

theorem rollback_atomic_demo :
    AtRest updatedDisk ∧ Synced .boot updatedDisk ∧ splitWhitespace (ascii "demo") = [ascii "demo"] ∧
    Ready updatedDisk (ascii "demo") [] 0 demoAdmission.package ∧
    (RollbackAtomic updatedDisk 0 demoAdmission.package
        (reboot (crashAfter 9 (pkgRollback .boot (ascii "demo")) updatedDisk)) ↔
      9 = 0 ∨ ((8 + entryWrites 0 ≤ 9 ∨
        checkpointOf updatedDisk (registryOf updatedDisk) 0 =
          blobOf updatedDisk (registryOf updatedDisk) 0 ∨
        SameMetadata (registryOf updatedDisk) 0) ∧
        roomBefore updatedDisk 0 + demoAdmission.package.payload.length ≤ arenaSize)) :=
  ⟨atRest_updatedDisk, synced_boot updatedDisk, splitWhitespace_demo, ready_updatedDisk,
    rollback_atomic_iff atRest_updatedDisk (synced_boot updatedDisk) splitWhitespace_demo
      ready_updatedDisk 9⟩

/-- The power is cut when one sector of the record is written. The package was active
with a valid checkpoint, and it is marked corrupt. -/
theorem demo_rollback_corrupt :
    AtRest updatedDisk ∧ Synced .boot updatedDisk ∧
    Ready updatedDisk (ascii "demo") [] 0 demoAdmission.package ∧
    entryState (registryOf updatedDisk) 0 = stateActive ∧
    entryState (registryOf
      (reboot (crashAfter 1 (pkgRollback .boot (ascii "demo")) updatedDisk)).2) 0 = stateCorrupt ∧
    ¬ RollbackAtomic updatedDisk 0 demoAdmission.package
      (reboot (crashAfter 1 (pkgRollback .boot (ascii "demo")) updatedDisk)) := by
  have hrest := atRest_updatedDisk
  have h := ready_updatedDisk
  have hlen : entryRawLen (registryOf updatedDisk) 0 ≠ previousRawLen (registryOf updatedDisk) 0 := by
    rw [registryOf_updatedDisk]
    decide +kernel
  obtain ⟨a, htrace⟩ := trace_pkgRollback hrest (synced_boot updatedDisk) splitWhitespace_demo h
  have hinactive (hactive : entryState (registryOf
      (reboot (crashed updatedDisk 0 (ascii "demo") 1)).2) 0 = stateActive) : False :=
    hlen (metadata_of_active hrest h (by decide) (by decide) hactive).1
  have hstate : entryState (registryOf (recovered updatedDisk 0 (ascii "demo") 1)) 0 = stateActive := by
    rw [registryOf_window hrest h (by decide)]
    exact h.active
  have hcorrupt := (active_or_corrupt (plan_crashed hrest.journal h) hstate).resolve_left hinactive
  rw [htrace.crashAfter]
  exact ⟨hrest, synced_boot updatedDisk, h, h.active, hcorrupt, fun hatomic => hinactive hatomic.active⟩

end

end Dezh.RollbackRecovery

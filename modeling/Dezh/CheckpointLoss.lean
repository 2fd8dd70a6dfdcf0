import Dezh.RollbackRecovery
import Dezh.StoreFailures

/-!
# Checkpoints after an aborted update

An update copies the active package into the previous area before it announces the new
entry. Up to the announcement an abort leaves the old version with its old entry, and
this entry still promises the old checkpoint. From the first copied sector on the area
no longer holds it. The rollback checks the area against the checksum in the entry, so
in general it refuses. It restores the old checkpoint exactly if the sectors that have
been copied agree with it.
-/
namespace Dezh.CheckpointLoss
open BlockProgram Program ByteLayout CairnFormat PackageFormat PackageStore PackageCodec
  PackageAreas PackageRecovery PackageCommands CheckpointCodec InstallTrace InstallRecovery
  StorePhases RollbackRecovery StoreFailures
open UpdateRecovery (Accepted Replaceable oldRaw updateChecks_ok)

variable {d e : Disk Sector} {slot n : ℕ} {k : Kernel} {arg target : Text} {options : List Text}
  {raw : List UInt8} {q : Inspected}

section
variable {reg : Bytes} {m : ℕ} {current : List UInt8}

/-- The first `m` sectors of the previous area have been overwritten. -/
def Overwritten (d e : Disk Sector) (slot : ℕ) (current : List UInt8) (m : ℕ) : Prop :=
  ∀ j < slotSectors, e (previousBlobSector slot + j) =
    if j < m then sectorAt (ofList current) j else d (previousBlobSector slot + j)

theorem image_overwritten {i : ℕ} (h : Overwritten d e slot current m) (hi : i < maxRawBytes) :
    image e (previousBlobSector slot) i =
      if i < m * sectorSize then ofList current i else image d (previousBlobSector slot) i := by
  have hsector := h (i / sectorSize) (Nat.div_lt_of_lt_mul (by rwa [Nat.mul_comm]))
  by_cases hm : i < m * sectorSize
  · rw [if_pos hm]
    rw [if_pos (Nat.div_lt_of_lt_mul (by rwa [Nat.mul_comm]))] at hsector
    exact image_eq hsector
  · have hdiv : ¬ i / sectorSize < m := fun hlt =>
      hm ((Nat.div_lt_iff_lt_mul (by decide)).mp hlt)
    rw [if_neg hm]
    rw [if_neg hdiv] at hsector
    exact image_congr hsector

theorem checkpointOf_overwritten (h : Overwritten d e slot current m)
    (hle : previousRawLen reg slot ≤ maxRawBytes) :
    checkpointOf e reg slot = checkpointOf d reg slot ↔
      ∀ i < previousRawLen reg slot, i < m * sectorSize →
        ofList (checkpointOf d reg slot) i = ofList current i := by
  have hbyte {b : Disk Sector} {i : ℕ} (hi : i < previousRawLen reg slot) :
      ofList (checkpointOf b reg slot) i = image b (previousBlobSector slot) i := by
    rw [checkpointOf, blobAt, ofList_toList hi, Nat.zero_add]
  constructor
  · intro heq i hi hm
    rw [← heq, hbyte hi, image_overwritten h (hi.trans_le hle), if_pos hm]
  · intro hsame
    refine toList_congr fun i hi => ?_
    rw [Nat.zero_add, image_overwritten h (hi.trans_le hle)]
    split_ifs with hm
    · rw [← hsame i hi hm, hbyte hi]
    · rfl

end

section
variable {name : Text}

/-- The rollback has succeeded with the package `raw`: the slot is active, the loader
accepts it, and its entry says what the manifest says. -/
structure Restores (after : (RollbackResult × Kernel) × Disk Sector) (slot : ℕ) (raw : List UInt8)
    (q : Inspected) : Prop where
  result : after.1.1 = .restored
  state : entryState (registryOf after.2) slot = stateActive
  blob : blobOf after.2 (registryOf after.2) slot = raw
  loads : Loads after.2 (registryOf after.2) slot q
  name : entryName (registryOf after.2) slot = q.name
  version : entryVersion (registryOf after.2) slot = q.version
  kind : entryKind (registryOf after.2) slot = q.kind
  mcaps : entryMcaps (registryOf after.2) slot = q.mcaps

theorem replay_rollbackPhases (e : Disk Sector) (raw : List UInt8) (hs : slot < maxPkgs)
    (hn : name.length ≤ nameMax) :
    registryOf (replay e (writesOf (rollbackPhases (registryOf e) slot name raw))) =
        restoredRegistry (registryOf e) slot name stateActive ∧
      blobAt (replay e (writesOf (rollbackPhases (registryOf e) slot name raw)))
        (slotBlobSector slot) raw.length = raw := by
  have hbase := le_slotBlobSector slot
  constructor
  · refine registryOf_plan fun i hi => ?_
    rw [restoredRegistry_of_outside hn (.inr ((entryOff_lt hs).trans hi))]
    exact area_of_le hi
  · refine Eq.trans (blobAt_congr fun j _ => blobs_plan (by omega)) ?_
    rw [writesOf_cons, writesOf_cons, writesOf_cons, writesOf_nil, List.append_nil, replay_append,
      replay_append]
    exact blobAt_blobWrites

theorem blobOf_restored (e : Disk Sector) (raw : List UInt8) (hs : slot < maxPkgs)
    (hn : name.length ≤ nameMax) (hlen : raw.length = previousRawLen (registryOf e) slot) :
    blobOf (replay e (writesOf (rollbackPhases (registryOf e) slot name raw)))
      (registryOf (replay e (writesOf (rollbackPhases (registryOf e) slot name raw)))) slot =
        raw := by
  obtain ⟨hreg, hblob⟩ := replay_rollbackPhases e raw hs hn
  rw [hreg, blobOf, (restoredRegistry_fields (registryOf e) slot name stateActive).2.1, ← hlen, hblob]

theorem restores_of_ready (hrest : AtRest e) (hk : Synced k e)
    (harg : splitWhitespace arg = name :: options) (h : Ready e name options slot q) :
    Restores ((pkgRollback k arg).eval e) slot (checkpointOf e (registryOf e) slot) q := by
  obtain ⟨k', htrace⟩ := trace_pkgRollback hrest hk harg h
  have hc := h.checkpoint
  have hnamed : name = q.name := (findRegistrySlot_some h.found).2.2.symm.trans hc.name.symm
  have hblob := blobOf_restored e (checkpointOf e (registryOf e) slot) h.slot_lt h.name_le
    length_checkpointOf
  have hreg := (replay_rollbackPhases e (checkpointOf e (registryOf e) slot) h.slot_lt h.name_le).1
  obtain ⟨hmcaps, hlen, hcrc⟩ := restoredRegistry_fields (registryOf e) slot name stateActive
  rw [htrace.eval]
  refine ⟨rfl, ?_, hblob, ?_, ?_, ?_, ?_, ?_⟩
  · rw [hreg]
    exact entryState_restoredRegistry
  · rw [hreg] at hblob ⊢
    exact loads_checkpoint h (sameHead_restoredRegistry.magic.trans entryMagic_encode) hlen hcrc hblob
  · rw [hreg, sameHead_restoredRegistry.name, ← hnamed]
    refine entryName_encode h.name_le ?_
    rw [← (findRegistrySlot_some h.found).2.2]
    exact isUtf8_entryText
  · rw [hreg, sameHead_restoredRegistry.version, hc.version]
    exact entryVersion_encode entryText_length isUtf8_entryText
  · rw [hreg, sameHead_restoredRegistry.kind, entryKind_encode, hc.kind]
    exact Nat.mod_eq_of_lt (u16At_lt _ _)
  · rw [hreg, entryMcaps, hmcaps, hc.mcaps]

theorem restores_iff (hrest : AtRest e) (hk : Synced k e)
    (harg : splitWhitespace arg = name :: options)
    (hfound : findRegistrySlot (registryOf e) name = some slot)
    (hactive : entryState (registryOf e) slot = stateActive)
    (hpinned : entryIsPinned (registryOf e) slot = true → force ∈ options)
    (hc : Checkpoint d (registryOf e) slot q) :
    Restores ((pkgRollback k arg).eval e) slot (checkpointOf d (registryOf e) slot) q ↔
      checkpointOf e (registryOf e) slot = checkpointOf d (registryOf e) slot := by
  obtain ⟨hs, -, hname⟩ := findRegistrySlot_some hfound
  have hn : name.length ≤ nameMax := by
    rw [← hname]
    exact entryText_length
  obtain ⟨hrestored, hrefused⟩ :=
    trace_pkgRollback_of_checksum hrest hk harg hfound hactive hpinned hc.valid hc.le
  constructor
  · intro h
    by_cases hcrc : checksum (checkpointOf e (registryOf e) slot) = previousRawCrc (registryOf e) slot
    · obtain ⟨k', htrace⟩ := hrestored hcrc
      have hblob := h.blob
      rw [htrace.eval] at hblob
      exact (blobOf_restored e _ hs hn length_checkpointOf).symm.trans hblob
    · obtain ⟨k', htrace⟩ := hrefused hcrc
      have hresult := h.result
      rw [htrace.eval] at hresult
      cases hresult
  · intro heq
    have hcheckpoint : Checkpoint e (registryOf e) slot q :=
      ⟨hc.valid, hc.pos, hc.le, heq ▸ hc.crc, heq ▸ hc.contents, hc.name, hc.version, hc.kind,
        hc.mcaps⟩
    rw [← heq]
    exact restores_of_ready hrest hk harg ⟨hfound, hactive, hpinned, hcheckpoint⟩

end

section
variable {allow : Bool} {u : Replacement}
  {p : Inspected}

/-- The old version is current: its entry has not changed, and it is served. -/
def OldCurrent (d : Disk Sector) (slot : ℕ) (after : (Bool × Kernel) × Disk Sector) : Prop :=
  EntryKept d after.2 slot ∧ ∃ p, Serves after slot (blobOf d (registryOf d) slot) p

theorem lt_of_oldCurrent (hrest : AtRest d) (ha : Accepted (registryOf d) target allow raw u)
    (hp : Loads d (registryOf d) u.slot p)
    (h : OldCurrent d u.slot (reboot (UpdateRecovery.crashed d u raw n))) :
    Replaceable d u raw n := by
  obtain ⟨hkept, _, hserves⟩ := h
  by_contra hn
  by_cases haside : UpdateRecovery.SetAside u raw (oldRaw d u) n
  · have hstate := UpdateRecovery.quarantined_of_setAside hrest ha hp haside
    exact absurd (hserves.state.symm.trans hstate) (by decide)
  · have hcommitted : UpdateRecovery.Recorded d u raw n := by
      unfold UpdateRecovery.SetAside at haside
      simp only at haside
      omega
    have hreg := UpdateRecovery.registryOf_of_committed (short_of_atRest hrest) ha hcommitted haside
    have hhead : SameHead (registryOf (UpdateRecovery.recovered d u raw n))
        (registryOf (reboot (UpdateRecovery.crashed d u raw n)).2) u.slot :=
      sameHead_reboot (UpdateRecovery.plan_crashed hrest.journal ha hp) ha.slot hserves.state
    have hold : SameHead (registryOf d)
        (registryOf (reboot (UpdateRecovery.crashed d u raw n)).2) u.slot :=
      fun i hi _ => hkept i (by unfold entrySize; omega)
    rw [hreg] at hhead
    obtain ⟨-, hversion, -⟩ := inspect_isUtf8 ha.contents
    refine ha.fresh ⟨?_, ?_⟩
    · rw [← hold.version, hhead.version, UpdateRecovery.sameHead_registryWith.version]
      exact entryVersion_encode ha.version hversion
    · rw [entryRawCrc, ← hold.field (by omega), hhead.field (by omega),
        (UpdateRecovery.registryWith_fields ha stateActive).2.2, ha.rawCrc]

theorem registryOf_kept (hrest : AtRest d) (ha : Accepted (registryOf d) target allow raw u)
    (hn : Replaceable d u raw n) :
    registryOf (UpdateRecovery.recovered d u raw n) = registryOf d := by
  rw [UpdateRecovery.registryOf_recovered (short_of_atRest hrest) ha,
    UpdateRecovery.registryRecovered, if_pos hn]

theorem overwritten_kept (hrest : AtRest d) (ha : Accepted (registryOf d) target allow raw u)
    (hn : Replaceable d u raw n) :
    Overwritten d (UpdateRecovery.recovered d u raw n) u.slot (oldRaw d u)
      (n - (16 + sectorsFor raw.length)) := by
  intro j hj
  have hbase := le_previousBlobSector u.slot
  have hcurrent := current_le_previous (t := u.slot) ha.slot
  have hstage := previous_le_stage (t := u.slot) ha.slot
  have hj' : previousBlobSector u.slot + j < previousBlobSector u.slot + slotSectors := by omega
  rw [UpdateRecovery.recovered_of_outside ha (by omega) (by omega),
    UpdateRecovery.crashed_of_le (short_of_atRest hrest) ha (by omega)]
  unfold UpdateRecovery.blobsAfter
  rw [replay_blobWrites_of_outside ha.le (by omega),
    show blobWrites (previousBlobSector u.slot) (oldRaw d u) =
      stripe (previousBlobSector u.slot) (sectorAt (ofList (oldRaw d u)))
        (sectorsFor (oldRaw d u).length) from rfl, replay_take_stripe]
  by_cases hm : j < n - (16 + sectorsFor raw.length)
  · rw [if_pos hm, if_pos (by omega), Nat.add_sub_cancel_left]
  · rw [if_neg hm, if_neg (by omega), replay_blobWrites_of_outside ha.le (by omega),
      imageOf_blobs (by omega)]

section
variable (hrest : AtRest d) (ha : Accepted (registryOf d) target allow raw u)
  (hp : Loads d (registryOf d) u.slot p)
  (hn : Replaceable d u raw n)
include hrest ha hp hn

theorem untouched_kept {t : ℕ} (ht : t < maxPkgs) :
    Untouched d (UpdateRecovery.recovered d u raw n) t := by
  by_cases hne : t = u.slot
  · rw [hne]
    exact UpdateRecovery.untouched_of_kept (short_of_atRest hrest) ha hp hn
  · exact UpdateRecovery.untouched_recovered (short_of_atRest hrest) ha hp ht hne

theorem atRest_kept : AtRest (UpdateRecovery.recovered d u raw n) := by
  refine ⟨?_, fun t ht => ?_, ?_⟩
  · unfold UpdateRecovery.recovered UpdateRecovery.recovery
    split_ifs with hidle
    · have hzero : n = 0 := by omega
      rw [writesOf_nil, replay_nil, UpdateRecovery.crashed, hzero, List.take_zero, replay_nil]
      exact hrest.journal
    · exact journalOf_plan
  · exact (untouched_kept hrest ha hp hn ht).loadable (hrest.loadable t ht)
  · refine le_of_eq_of_le (Finset.sum_congr rfl fun t ht => ?_) hrest.room
    have ht' := Finset.mem_range.mp ht
    exact (untouched_kept hrest ha hp hn ht').payloadLen_eq (hrest.loadable t ht')

theorem reboot_kept : (reboot (UpdateRecovery.crashed d u raw n)).2 =
      UpdateRecovery.recovered d u raw n ∧
    Opened (reboot (UpdateRecovery.crashed d u raw n)).1.2 (UpdateRecovery.recovered d u raw n) := by
  have hatRest := atRest_kept hrest ha hp hn
  exact (reboot_of_loadable (UpdateRecovery.plan_crashed hrest.journal ha hp) hatRest.loadable
    hatRest.room).2

theorem oldCurrent_kept : OldCurrent d u.slot (reboot (UpdateRecovery.crashed d u raw n)) := by
  have hsame : ∀ t ≤ u.slot, Untouched d (UpdateRecovery.recovered d u raw n) t :=
    fun t ht => untouched_kept hrest ha hp hn (ht.trans_lt ha.slot)
  obtain ⟨hkept, hserves⟩ := kept_reboot (UpdateRecovery.plan_crashed hrest.journal ha hp) hrest
    ha.slot hsame ha.active hp
  exact ⟨hkept, p, hserves⟩

theorem restores_kept_iff {back : Text} {options : List Text} {q : Inspected}
    (hback : splitWhitespace back = target :: options) (h : Ready d target options u.slot q) :
    Restores ((pkgRollback (reboot (UpdateRecovery.crashed d u raw n)).1.2 back).eval
        (reboot (UpdateRecovery.crashed d u raw n)).2) u.slot
      (checkpointOf d (registryOf d) u.slot) q ↔
      ∀ i < previousRawLen (registryOf d) u.slot,
        i < (n - (16 + sectorsFor raw.length)) * sectorSize →
          ofList (checkpointOf d (registryOf d) u.slot) i =
            ofList (oldRaw d u) i := by
  obtain ⟨hdisk, hopen⟩ := reboot_kept hrest ha hp hn
  have hreg := registryOf_kept hrest ha hn
  have hrestores := restores_iff (q := q) (d := d) (atRest_kept hrest ha hp hn) hopen.synced hback
    (by rw [hreg]; exact h.found) (by rw [hreg]; exact h.active) (by rw [hreg]; exact h.unpinned)
    (by rw [hreg]; exact h.checkpoint)
  rw [hreg] at hrestores
  rw [hdisk, hrestores, checkpointOf_overwritten (overwritten_kept hrest ha hn) h.checkpoint.le]

end

end

section
variable {d' : Disk Sector} {back : Text} {options' : List Text}

/-- An update ends after `n` of its writes have reached the disk: the power is cut, or an
access fails and the update gives up. -/
def Attempt (k : Kernel) (arg : Text) (raw : List UInt8) (d : Disk Sector) (n : ℕ)
    (d' : Disk Sector) : Prop :=
  d' = crashAfter n (pkgUpdate k arg raw) d ∨
    (Opened k d ∧ ∃ f, (pkgUpdate k arg raw).landed f d = n ∧ d' = ((pkgUpdate k arg raw).run f d).2)

theorem failStop_pkgUpdate (h : Opened k d) : (pkgUpdate k arg raw).FailStop fun _ => True := by
  unfold pkgUpdate
  split
  · trivial
  · rw [withStore_of_opened h]
    split
    · trivial
    · exact failStop_update

theorem Attempt.eq_crashAfter (h : Attempt k arg raw d n d') :
    d' = crashAfter n (pkgUpdate k arg raw) d := by
  rcases h with h | ⟨hopen, f, hn, h⟩
  · exact h
  · rw [h, (failStop_pkgUpdate hopen).run_disk, hn]

theorem trace_pkgUpdate_rejected {why : UpdateRejection} (hrest : AtRest d) (hk : Synced k d)
    (harg : splitWhitespace arg = target :: options)
    (hcheck : updateChecks (registryOf d) target (options.contains allowNewCaps) raw = .error why) :
    ∃ k', (pkgUpdate k arg raw).Trace d (.rejected why, k') [] := by
  unfold pkgUpdate
  simp only [harg]
  refine trace_withStore hrest hk fun k' hreg => ?_
  rw [← hreg] at hcheck
  simp only [hcheck]
  exact ⟨k', .pure _ d⟩

/-- The sectors of the previous area that an accepted update has overwritten with the
active package agree with the checkpoint. -/
def Spared (d : Disk Sector) (slot : ℕ) (target : Text) (options : List Text) (raw : List UInt8)
    (n : ℕ) : Prop :=
  (∃ u, updateChecks (registryOf d) target (options.contains allowNewCaps) raw = .ok u) →
    ∀ i < previousRawLen (registryOf d) slot, i < (n - (16 + sectorsFor raw.length)) * sectorSize →
      ofList (checkpointOf d (registryOf d) slot) i = ofList (blobOf d (registryOf d) slot) i

/-- After an aborted update that leaves the old version current, a rollback restores the
old checkpoint exactly if the update has not damaged it. -/
theorem aborted_update_iff (hrest : AtRest d) (hk : Synced k d)
    (harg : splitWhitespace arg = target :: options)
    (hback : splitWhitespace back = target :: options')
    (h : Ready d target options' slot q) (hattempt : Attempt k arg raw d n d')
    (hold : OldCurrent d slot (reboot d')) :
    Restores ((pkgRollback (reboot d').1.2 back).eval (reboot d').2) slot
      (checkpointOf d (registryOf d) slot) q ↔ Spared d slot target options raw n := by
  rw [hattempt.eq_crashAfter] at hold ⊢
  cases hcheck : updateChecks (registryOf d) target (options.contains allowNewCaps) raw with
  | error why =>
    obtain ⟨k', htrace⟩ := trace_pkgUpdate_rejected hrest hk harg hcheck
    obtain ⟨-, hdisk, hopen⟩ := reboot_atRest hrest
    rw [htrace.crashAfter, List.take_nil, replay_nil, hdisk]
    refine iff_of_true (restores_of_ready hrest hopen.synced hback h) ?_
    rintro ⟨u, hu⟩
    rw [hcheck] at hu
    cases hu
  | ok u =>
    have ha := updateChecks_ok hcheck
    obtain rfl : u.slot = slot := Option.some.inj (ha.found.symm.trans h.found)
    obtain ⟨p, hp⟩ := hrest.loadable u.slot ha.slot ha.active
    obtain ⟨k', htrace⟩ := UpdateRecovery.trace_pkgUpdate hrest hk harg hcheck hp
    rw [htrace.crashAfter] at hold ⊢
    have hn := lt_of_oldCurrent hrest ha hp hold
    have hiff := restores_kept_iff hrest ha hp hn hback h
    unfold UpdateRecovery.crashed at hiff
    rw [hiff]
    exact ⟨fun hsame _ => hsame, fun hspared => hspared ⟨u, hcheck⟩⟩

end

section
open UpdateRecovery (demoUpdate updatedDisk atRest_updatedDisk registryOf_updatedDisk
  blobOf_updatedDisk loads_updatedDisk splitWhitespace_demo)

def demoThird : List UInt8 :=
  pack kindDezhIr (ascii "name = \"demo\"\nversion = \"2.0.0\"") [0x00]

def demoSuccessor : Replacement where
  slot := 0
  package := ⟨kindDezhIr, ascii "demo", ascii "2.0.0", 0, [0x00]⟩
  rawCrc := checksum demoThird

theorem updateChecks_demoThird :
    updateChecks (registryOf updatedDisk) (ascii "demo") false demoThird = .ok demoSuccessor := by
  rw [registryOf_updatedDisk]
  decide +kernel

theorem replaceable_demoThird :
    Replaceable updatedDisk demoSuccessor demoThird 18 := by
  rw [Replaceable, oldRaw, show demoSuccessor.slot = 0 from rfl,
    blobOf_updatedDisk]
  decide +kernel

theorem crashAfter_demoThird (n : ℕ) :
    crashAfter n (pkgUpdate .boot (ascii "demo") demoThird) updatedDisk =
      UpdateRecovery.crashed updatedDisk demoSuccessor demoThird n := by
  obtain ⟨k', htrace⟩ := UpdateRecovery.trace_pkgUpdate atRest_updatedDisk (synced_boot updatedDisk)
    splitWhitespace_demo updateChecks_demoThird loads_updatedDisk
  rw [htrace.crashAfter, UpdateRecovery.crashed]

theorem oldCurrent_demoThird : OldCurrent updatedDisk 0
    (reboot (crashAfter 18 (pkgUpdate .boot (ascii "demo") demoThird) updatedDisk)) := by
  have ha := updateChecks_ok updateChecks_demoThird
  rw [crashAfter_demoThird]
  exact oldCurrent_kept atRest_updatedDisk ha loads_updatedDisk replaceable_demoThird

theorem aborted_update_demo :
    AtRest updatedDisk ∧ Synced .boot updatedDisk ∧ splitWhitespace (ascii "demo") = [ascii "demo"] ∧
    Ready updatedDisk (ascii "demo") [] 0 demoAdmission.package ∧
    Attempt .boot (ascii "demo") demoThird updatedDisk 18
      (crashAfter 18 (pkgUpdate .boot (ascii "demo") demoThird) updatedDisk) ∧
    OldCurrent updatedDisk 0
      (reboot (crashAfter 18 (pkgUpdate .boot (ascii "demo") demoThird) updatedDisk)) ∧
    (Restores ((pkgRollback
        (reboot (crashAfter 18 (pkgUpdate .boot (ascii "demo") demoThird) updatedDisk)).1.2
        (ascii "demo")).eval
        (reboot (crashAfter 18 (pkgUpdate .boot (ascii "demo") demoThird) updatedDisk)).2) 0
        (checkpointOf updatedDisk (registryOf updatedDisk) 0) demoAdmission.package ↔
      Spared updatedDisk 0 (ascii "demo") [] demoThird 18) :=
  ⟨atRest_updatedDisk, synced_boot updatedDisk, splitWhitespace_demo, ready_updatedDisk, .inl rfl,
    oldCurrent_demoThird, aborted_update_iff atRest_updatedDisk (synced_boot updatedDisk)
      splitWhitespace_demo splitWhitespace_demo ready_updatedDisk (.inl rfl) oldCurrent_demoThird⟩

/-- The power is cut when one sector of the active package has been copied. The old
version is still current, but the rollback does not restore its checkpoint. -/
theorem demo_checkpoint_lost :
    AtRest updatedDisk ∧ Synced .boot updatedDisk ∧
    Ready updatedDisk (ascii "demo") [] 0 demoAdmission.package ∧
    OldCurrent updatedDisk 0
      (reboot (crashAfter 18 (pkgUpdate .boot (ascii "demo") demoThird) updatedDisk)) ∧
    ¬ Restores ((pkgRollback
        (reboot (crashAfter 18 (pkgUpdate .boot (ascii "demo") demoThird) updatedDisk)).1.2
        (ascii "demo")).eval
        (reboot (crashAfter 18 (pkgUpdate .boot (ascii "demo") demoThird) updatedDisk)).2) 0
        (checkpointOf updatedDisk (registryOf updatedDisk) 0) demoAdmission.package := by
  have ha := updateChecks_ok updateChecks_demoThird
  have hready : Ready updatedDisk (ascii "demo") [] demoSuccessor.slot demoAdmission.package :=
    ready_updatedDisk
  have hiff := restores_kept_iff atRest_updatedDisk ha loads_updatedDisk replaceable_demoThird
    splitWhitespace_demo hready
  refine ⟨atRest_updatedDisk, synced_boot updatedDisk, ready_updatedDisk, oldCurrent_demoThird, ?_⟩
  rw [crashAfter_demoThird]
  intro hrestores
  -- the two packages differ in the length of their manifests, in byte 8
  have hlen : previousRawLen (registryOf updatedDisk) demoSuccessor.slot = 34 := by
    rw [registryOf_updatedDisk]
    decide +kernel
  have hbyte := hiff.mp hrestores 8 (by omega) (by decide +kernel)
  have hcheckpoint : checkpointOf updatedDisk (registryOf updatedDisk) demoSuccessor.slot =
      demoPackage := checkpointOf_updatedDisk
  have hcurrent : oldRaw updatedDisk demoSuccessor = demoUpdate := blobOf_updatedDisk
  rw [hcheckpoint, hcurrent] at hbyte
  revert hbyte
  decide +kernel

end

end Dezh.CheckpointLoss

import Dezh.InstallTrace

/-!
# Power cuts during an install

After a power cut the store is recovered from the journal and loaded. Until the
record reaches its third phase the install is rolled back, and the entry is the old
one. A pending entry is committed. But the third phase is journalled before the
pending entry is written, and the entry is active before the journal is cleared: in
these two windows the recovery finds no pending entry and sets the slot aside. Every
other slot keeps its entry and its package in any case, and the store is consistent
again.
-/
namespace Dezh.InstallRecovery
open BlockProgram Program ByteLayout CairnFormat PackageFormat PackageStore PackageCodec
  PackageAreas PackageRecovery StorePhases InstallTrace

variable {d : Disk Sector} {raw : List UInt8} {p : Admission} {n : ℕ}

section
variable {reg : Bytes} {i : ℕ}

def registryRecovered (reg : Bytes) (p : Admission) (raw : List UInt8) (n : ℕ) : Bytes :=
  let k := sectorsFor raw.length
  if n < 17 + k then reg
  else if n < 24 + k + entryWrites p.slot then setEntryState reg p.slot stateQuarantined
  else if n < 26 + k + entryWrites p.slot then p.registryWith reg raw stateActive
  else if n < 30 + k then p.registryWith reg raw stateQuarantined
  else p.registryWith reg raw stateActive

theorem registryRecovered_of_outside (ha : Admitted reg raw p)
    (hi : i < entryOff p.slot ∨ entryOff p.slot + entrySize ≤ i) :
    registryRecovered reg p raw n i = reg i := by
  have hwith (state : UInt8) : p.registryWith reg raw state i = reg i :=
    encodeRegistryEntry_of_outside ha.name ha.version hi
  unfold registryRecovered
  split_ifs
  · rfl
  · exact setEntryState_of_outside hi
  · exact hwith _
  · exact hwith _
  · exact hwith _

theorem registryRecovered_of_le (ha : Admitted (registryOf d) raw p) (hi : registrySize ≤ i) :
    registryRecovered (registryOf d) p raw n i = 0 := by
  rw [registryRecovered_of_outside ha (.inr ((entryOff_lt ha.slot).trans hi))]
  exact area_of_le hi

section
variable (hc : Consistent d) (ha : Admitted (registryOf d) raw p)
include hc ha

/-- Until the third phase the record restores the registry. -/
theorem plan_early {r : JournalRecord} (hn : n < 17 + sectorsFor raw.length)
    (hr : Describes r p raw)
    (hphase : r.phase = phaseStarted ∨ r.phase = phaseBlobWritten)
    (hj : journalOf (crashed d p raw n) = encodeJournal r) :
    (imageOf (crashed d p raw n)).plan false =
      some (commit (registryRecovered (registryOf d) p raw n)) := by
  have hreg : registryOf (crashed d p raw n) = registryOf d := by
    rw [registryOf_crashed ha, registryAfter, if_pos (by omega)]
  have hrec : rollbackSlotToOldState (registryOf d) r = registryOf d := by
    unfold rollbackSlotToOldState
    rw [hr.slot, hr.oldState, ha.oldState]
    split_ifs with hempty
    · exact clearRegistrySlot_self (hc.empty p.slot ha.slot hempty)
    · exact setEntryState_self rfl
  have hverdict := verdict_undo (imageOf (crashed d p raw n)) r (.inl hr.op) hphase
  rw [registryRecovered, if_pos hn, ← hrec, ← hreg]
  exact plan_of_record hj (hr.encodable ha) hverdict

theorem plan_pending (hn : 17 + sectorsFor raw.length ≤ n) (hn' : n < 30 + sectorsFor raw.length)
    (hj : journalOf (crashed d p raw n) = encodeJournal (p.registryPending (registryOf d) raw)) :
    (imageOf (crashed d p raw n)).plan false =
      some (commit (registryRecovered (registryOf d) p raw n)) := by
  have hreg := registryOf_crashed (n := n) ha
  have hrecord {reg : Bytes} (hv : (imageOf (crashed d p raw n)).verdict
      (p.registryPending (registryOf d) raw) = some ([], reg)) :
      (imageOf (crashed d p raw n)).plan false = some (commit reg) :=
    plan_of_record hj (describes_registryPending.encodable ha) hv
  unfold registryAfter at hreg
  unfold registryRecovered
  simp only at hreg ⊢
  rw [if_neg (by omega)]
  by_cases hold : n < 24 + sectorsFor raw.length + entryWrites p.slot
  · rw [if_pos hold] at hreg ⊢
    rw [← hreg]
    refine hrecord (verdict_quarantine _ _ (.inl rfl) rfl ?_)
    change entryState (registryOf _) _ ≠ _
    rw [hreg]
    exact (hc.settled p.slot ha.slot).1
  · rw [if_neg hold] at hreg ⊢
    by_cases hpending : n < 26 + sectorsFor raw.length + entryWrites p.slot
    · rw [if_pos hpending] at hreg ⊢
      have hactive : p.registryWith (registryOf d) raw stateActive =
          setEntryState (registryOf (crashed d p raw n)) p.slot stateActive := by
        rw [hreg]
        exact setEntryState_encode.symm
      rw [hactive]
      refine hrecord (verdict_complete _ _ rfl rfl ?_ ?_)
      · change entryState (registryOf _) _ = _
        rw [hreg]
        exact entryState_encode
      · refine (verified_imageOf (le_slotBlobSector _)).trans ?_
        exact describes_registryPending.verified ha (blobAt_crashed (by omega))
    · rw [if_neg hpending] at hreg ⊢
      rw [if_pos hn']
      have hquarantined : p.registryWith (registryOf d) raw stateQuarantined =
          setEntryState (registryOf (crashed d p raw n)) p.slot stateQuarantined := by
        rw [hreg]
        exact setEntryState_encode.symm
      rw [hquarantined]
      refine hrecord (verdict_quarantine _ _ (.inl rfl) rfl ?_)
      change entryState (registryOf _) _ ≠ _
      rw [hreg]
      refine ne_of_eq_of_ne entryState_encode ?_
      decide

def recoveryWrites (reg : Bytes) (p : Admission) (raw : List UInt8) (n : ℕ) : List (ℕ × Sector) :=
  if n = 0 ∨ 30 + sectorsFor raw.length ≤ n then [] else commitWrites (registryRecovered reg p raw n)

theorem plan_crashed :
    ∃ l, (imageOf (crashed d p raw n)).plan false = some l ∧
      writesOf l = recoveryWrites (registryOf d) p raw n := by
  have hjournal := journalOf_crashed (n := n) hc ha
  unfold journalAfter at hjournal
  unfold recoveryWrites
  simp only at hjournal
  by_cases hidle : n = 0 ∨ 30 + sectorsFor raw.length ≤ n
  · rw [if_pos hidle] at hjournal ⊢
    exact ⟨[], plan_of_zero hjournal, rfl⟩
  · rw [if_neg hidle] at hjournal ⊢
    refine ⟨_, ?_, writesOf_commit⟩
    split_ifs at hjournal with hstarted hwritten
    · exact plan_early hc ha (by omega) describes_started (.inl rfl) hjournal
    · exact plan_early hc ha (by omega) describes_blobWritten (.inr rfl) hjournal
    · exact plan_pending hc ha (by omega) (by omega) hjournal

end

end

section
variable {s slot : ℕ}

def recovered (d : Disk Sector) (p : Admission) (raw : List UInt8) (n : ℕ) : Disk Sector :=
  replay (crashed d p raw n) (recoveryWrites (registryOf d) p raw n)

theorem recovered_of_le (hs : 64 ≤ s) : recovered d p raw n s = crashed d p raw n s := by
  unfold recovered recoveryWrites
  split_ifs
  · rfl
  · exact commit_of_le hs

theorem blobAt_recovered (hn : 8 + sectorsFor raw.length ≤ n) :
    blobAt (recovered d p raw n) (slotBlobSector p.slot) raw.length = raw := by
  have hbase := le_slotBlobSector p.slot
  refine Eq.trans (blobAt_congr fun j _ => ?_) (blobAt_crashed (d := d) (p := p) hn)
  exact recovered_of_le (hbase.trans (Nat.le_add_right _ _))

theorem registryWith_fields {reg : Bytes} (ha : Admitted reg raw p) (state : UInt8) :
    u32At (p.registryWith reg raw state) (entryOff p.slot + 8) = p.package.mcaps ∧
      u32At (p.registryWith reg raw state) (entryOff p.slot + 12) = raw.length ∧
      u32At (p.registryWith reg raw state) (entryOff p.slot + 16) = checksum raw := by
  have hlen : raw.length ≤ 32768 := ha.le
  have hmcaps := (inspect_isUtf8 ha.contents).2.2
  rw [← ha.rawCrc]
  refine entryFields_encode (by omega) (by omega) ?_
  rw [ha.rawCrc]
  exact UInt32.toNat_lt _

theorem loads_registryWith {d' : Disk Sector} {reg : Bytes} (ha : Admitted reg raw p)
    (hb : blobAt d' (slotBlobSector p.slot) raw.length = raw) :
    Loads d' (p.registryWith reg raw stateActive) p.slot p.package := by
  obtain ⟨-, hlen, hcrc⟩ := registryWith_fields ha stateActive
  have hblob : blobOf d' (p.registryWith reg raw stateActive) p.slot = raw := by
    rw [blobOf, hlen, hb]
  refine ⟨entryMagic_encode, ?_, ?_, ?_, ?_, ha.name, ha.version⟩
  · rw [hlen]
    exact ha.pos
  · rw [hlen]
    exact ha.le
  · rw [hblob, hcrc]
  · rw [hblob, ha.contents]

/-- The power is cut while the journal asks for a pending entry and the registry does
not hold one: it is not written yet, or it is active already. -/
def SetAside (p : Admission) (raw : List UInt8) (n : ℕ) : Prop :=
  let k := sectorsFor raw.length
  (17 + k ≤ n ∧ n < 24 + k + entryWrites p.slot) ∨ (26 + k + entryWrites p.slot ≤ n ∧ n < 30 + k)

section
variable (hc : Consistent d) (ha : Admitted (registryOf d) raw p)
include ha

theorem registryOf_recovered :
    registryOf (recovered d p raw n) = registryRecovered (registryOf d) p raw n := by
  unfold recovered recoveryWrites
  split_ifs with hidle
  · have hw : entryWrites p.slot ≤ 2 := by
      have hslot : p.slot < 8 := ha.slot
      unfold entryWrites
      omega
    change registryOf (crashed d p raw n) = _
    rw [registryOf_crashed ha]
    unfold registryAfter registryRecovered
    simp only
    split_ifs <;> first | omega | rfl
  · exact registryOf_commit fun i hi => registryRecovered_of_le ha hi

theorem untouched_recovered (hne : slot ≠ p.slot) :
    Untouched d (recovered d p raw n) slot := by
  refine ⟨fun i hi => ?_, fun i hi => ?_⟩
  · rw [registryOf_recovered ha]
    refine registryRecovered_of_outside ha ?_
    unfold entryOff
    unfold entrySize at hi ⊢
    omega
  · have hbase : 64 ≤ slotBlobSector slot + i := (le_slotBlobSector slot).trans (Nat.le_add_right _ _)
    rw [recovered_of_le hbase]
    refine crashed_of_notMem ha hbase ?_
    unfold slotBlobSector
    unfold slotSectors at hi ⊢
    omega

theorem recovered_cases :
    (¬ SetAside p raw n ∧ registryOf (recovered d p raw n) = registryOf d) ∨
    (SetAside p raw n ∧ entryState (registryOf (recovered d p raw n)) p.slot = stateQuarantined) ∨
    (¬ SetAside p raw n ∧ 8 + sectorsFor raw.length ≤ n ∧
      registryOf (recovered d p raw n) = p.registryWith (registryOf d) raw stateActive) := by
  rw [registryOf_recovered ha]
  unfold SetAside registryRecovered
  simp only
  split_ifs with hkept hbefore hpending hafter
  · exact .inl ⟨by omega, rfl⟩
  · exact .inr (.inl ⟨by omega, entryState_setEntryState⟩)
  · exact .inr (.inr ⟨by omega, by omega, rfl⟩)
  · exact .inr (.inl ⟨by omega, entryState_encode⟩)
  · exact .inr (.inr ⟨by omega, by omega, rfl⟩)

theorem loads_recovered
    (hstate : entryState (registryOf (recovered d p raw n)) p.slot = stateActive) :
    Loads (recovered d p raw n) (registryOf (recovered d p raw n)) p.slot p.package := by
  rcases recovered_cases ha with ⟨-, hkept⟩ | ⟨-, haside⟩ | ⟨-, hn, hactive⟩
  · rw [hkept, ← ha.oldState] at hstate
    exact absurd hstate ha.unused
  · rw [haside] at hstate
    exact absurd hstate (by decide)
  · rw [hactive]
    exact loads_registryWith ha (blobAt_recovered hn)

theorem payloadLen_recovered :
    payloadLen (recovered d p raw n) (registryOf (recovered d p raw n)) p.slot ≤
      p.package.payload.length := by
  unfold payloadLen
  split_ifs with hstate
  · rw [(loads_recovered ha hstate).contents]
    rfl
  · exact Nat.zero_le _

include hc

theorem loadable_recovered (hs : slot < maxPkgs) :
    Loadable (recovered d p raw n) (registryOf (recovered d p raw n)) slot := by
  by_cases hne : slot = p.slot
  · subst hne
    exact fun hstate => ⟨p.package, loads_recovered ha hstate⟩
  · exact (untouched_recovered ha hne).loadable (hc.loadable slot hs)

theorem payloadTotal_recovered :
    payloadTotal (recovered d p raw n) ≤ payloadTotal d + p.package.payload.length :=
  payloadTotal_le ha.slot hc.loadable (fun _ _ hne => untouched_recovered ha hne)
    (payloadLen_recovered ha)

theorem trace_reboot (hfit : payloadTotal d + p.package.payload.length ≤ arenaSize) :
    ∃ k', (ensureLoaded .boot).Trace (crashed d p raw n) (true, k')
        (recoveryWrites (registryOf d) p raw n) ∧
      k'.registry = registryOf (recovered d p raw n) := by
  obtain ⟨l, hplan, hwrites⟩ := plan_crashed (n := n) hc ha
  obtain ⟨k', ht, hreg, -⟩ := trace_ensureLoaded (k := .boot) rfl
    (fun k hk => hwrites ▸ trace_recover_plan hk hplan) (fun slot hs => loadable_recovered hc ha hs)
    ((payloadTotal_recovered hc ha).trans hfit)
  exact ⟨k', ht, hreg⟩

end

end

def blankDisk : Disk Sector := fun _ _ => 0

theorem registryOf_blankDisk : registryOf blankDisk = fun _ => 0 :=
  area_eq (fun _ _ => rfl) fun _ _ => rfl

theorem entryState_blankDisk (slot : ℕ) : entryState (registryOf blankDisk) slot = stateEmpty := by
  rw [registryOf_blankDisk]
  rfl

theorem consistent_blankDisk : Consistent blankDisk := by
  refine ⟨fun _ _ => rfl, fun slot _ _ i _ => ?_, fun slot _ => ?_, fun slot _ hactive => ?_⟩
  · rw [registryOf_blankDisk]
  · rw [entryState_blankDisk]
    decide
  · rw [entryState_blankDisk] at hactive
    exact absurd hactive (by decide)

theorem payloadTotal_blankDisk : payloadTotal blankDisk = 0 := by
  refine Finset.sum_eq_zero fun slot _ => ?_
  rw [payloadLen, entryState_blankDisk, if_neg (by decide)]

def demoPackage : List UInt8 := pack kindDezhIr (ascii "name = \"demo\"") [0x00]

def demoAdmission : Admission where
  slot := 0
  oldState := stateEmpty
  package := ⟨kindDezhIr, ascii "demo", ascii "0.0.0", 0, [0x00]⟩
  rawCrc := checksum demoPackage

theorem recvChecks_demoPackage : recvChecks (registryOf blankDisk) demoPackage = .ok demoAdmission := by
  rw [registryOf_blankDisk]
  decide +kernel

theorem demo_fits : payloadTotal blankDisk + demoAdmission.package.payload.length ≤ arenaSize := by
  rw [payloadTotal_blankDisk]
  decide

section
variable {k : Kernel}

/-- The slot holds an active entry for the package, and exactly the package. -/
structure Installed (d : Disk Sector) (p : Admission) (raw : List UInt8) : Prop where
  state : entryState (registryOf d) p.slot = stateActive
  name : entryName (registryOf d) p.slot = p.package.name
  version : entryVersion (registryOf d) p.slot = p.package.version
  mcaps : u32At (registryOf d) (entryOff p.slot + 8) = p.package.mcaps
  blob : blobOf d (registryOf d) p.slot = raw
  verified : inspect (blobOf d (registryOf d) p.slot) = some p.package

/-- The install has either not happened or happened completely, for the kernel as
for the disk, and nothing else has changed. -/
structure InstallAtomic (d : Disk Sector) (p : Admission) (raw : List UInt8)
    (after : (Bool × Kernel) × Disk Sector) : Prop where
  usable : after.1.1 = true
  loaded : after.1.2.registry = registryOf after.2
  slot : EntryKept d after.2 p.slot ∨ Installed after.2 p raw
  others : ∀ slot < maxPkgs, slot ≠ p.slot → Untouched d after.2 slot

theorem reboot_crashAfter (hc : Consistent d) (hk : Synced k d)
    (ha : recvChecks (registryOf d) raw = .ok p)
    (hfit : payloadTotal d + p.package.payload.length ≤ arenaSize) (n : ℕ) :
    ∃ k', reboot (crashAfter n (pkgRecv k raw) d) = ((true, k'), recovered d p raw n) ∧
      k'.registry = registryOf (recovered d p raw n) := by
  obtain ⟨a, ht⟩ := trace_pkgRecv hc hk (by omega) ha
  obtain ⟨k', hboot, hreg⟩ := trace_reboot (n := n) hc (recvChecks_ok ha) hfit
  refine ⟨k', ?_, hreg⟩
  rw [reboot, ht.crashAfter]
  exact hboot.eval

section
variable (ha : Admitted (registryOf d) raw p)
include ha

theorem installed_recovered (hn : 8 + sectorsFor raw.length ≤ n)
    (hactive : registryOf (recovered d p raw n) = p.registryWith (registryOf d) raw stateActive) :
    Installed (recovered d p raw n) p raw := by
  obtain ⟨hname, hversion, -⟩ := inspect_isUtf8 ha.contents
  obtain ⟨hmcaps, hlen, -⟩ := registryWith_fields ha stateActive
  have hblob : blobOf (recovered d p raw n) (registryOf (recovered d p raw n)) p.slot = raw := by
    rw [blobOf, hactive, hlen, blobAt_recovered hn]
  refine ⟨?_, ?_, ?_, ?_, hblob, ?_⟩
  · rw [hactive]
    exact entryState_encode
  · rw [hactive]
    exact entryName_encode ha.name hname
  · rw [hactive]
    exact entryVersion_encode ha.version hversion
  · rw [hactive, hmcaps]
  · rw [hblob, ha.contents]

theorem quarantined_of_setAside (h : SetAside p raw n) :
    entryState (registryOf (recovered d p raw n)) p.slot = stateQuarantined := by
  rcases recovered_cases ha with ⟨hn, -⟩ | ⟨-, haside⟩ | ⟨hn, -⟩
  · exact absurd h hn
  · exact haside
  · exact absurd h hn

theorem not_atomic_of_setAside {k' : Kernel}
    (h : SetAside p raw n) : ¬ InstallAtomic d p raw ((true, k'), recovered d p raw n) := by
  have haside := quarantined_of_setAside ha h
  intro hatomic
  rcases hatomic.slot with hkept | hinstalled
  · have hstate : entryState (registryOf (recovered d p raw n)) p.slot = p.oldState :=
      (hkept 0 (by decide)).trans ha.oldState.symm
    exact ha.sound.2 (hstate.symm.trans haside)
  · exact absurd (hinstalled.state.symm.trans haside) (by decide)

end

/-- On a consistent store a power cut during the install of an admitted package is
atomic exactly outside the two windows. -/
theorem install_atomic_iff (hc : Consistent d) (hk : Synced k d)
    (ha : recvChecks (registryOf d) raw = .ok p)
    (hfit : payloadTotal d + p.package.payload.length ≤ arenaSize) (n : ℕ) :
    InstallAtomic d p raw (reboot (crashAfter n (pkgRecv k raw) d)) ↔ ¬ SetAside p raw n := by
  have hadm := recvChecks_ok ha
  obtain ⟨k', hboot, hreg⟩ := reboot_crashAfter hc hk ha hfit n
  rw [hboot]
  have hothers : ∀ slot < maxPkgs, slot ≠ p.slot → Untouched d (recovered d p raw n) slot :=
    fun slot _ hne => untouched_recovered hadm hne
  rcases recovered_cases hadm with ⟨hn, hkept⟩ | ⟨hn, -⟩ | ⟨hn, hlen, hactive⟩
  · refine iff_of_true ⟨rfl, hreg, .inl fun i _ => ?_, hothers⟩ hn
    rw [hkept]
  · exact iff_of_false (not_atomic_of_setAside hadm hn) (not_not_intro hn)
  · exact iff_of_true ⟨rfl, hreg, .inr (installed_recovered hadm hlen hactive), hothers⟩ hn

theorem install_atomic_demo :
    Consistent blankDisk ∧ Synced .boot blankDisk ∧
    recvChecks (registryOf blankDisk) demoPackage = .ok demoAdmission ∧
    payloadTotal blankDisk + demoAdmission.package.payload.length ≤ arenaSize ∧
    (InstallAtomic blankDisk demoAdmission demoPackage
        (reboot (crashAfter 26 (pkgRecv .boot demoPackage) blankDisk)) ↔
      ¬ SetAside demoAdmission demoPackage 26) :=
  ⟨consistent_blankDisk, synced_boot blankDisk, recvChecks_demoPackage, demo_fits,
    install_atomic_iff consistent_blankDisk (synced_boot blankDisk) recvChecks_demoPackage demo_fits 26⟩

/-- The power is cut when one sector of the third journal record is written. On a blank
store the slot of the package ends up quarantined. -/
theorem demo_set_aside :
    Consistent blankDisk ∧ Synced .boot blankDisk ∧
    recvChecks (registryOf blankDisk) demoPackage = .ok demoAdmission ∧
    payloadTotal blankDisk + demoAdmission.package.payload.length ≤ arenaSize ∧
    entryState (registryOf blankDisk) 0 = stateEmpty ∧
    entryState (registryOf (reboot (crashAfter 18 (pkgRecv .boot demoPackage) blankDisk)).2) 0 =
      stateQuarantined ∧
    ¬ InstallAtomic blankDisk demoAdmission demoPackage
        (reboot (crashAfter 18 (pkgRecv .boot demoPackage) blankDisk)) := by
  have hadm := recvChecks_ok recvChecks_demoPackage
  have haside : SetAside demoAdmission demoPackage 18 := .inl (by decide +kernel)
  obtain ⟨k', hboot, -⟩ := reboot_crashAfter consistent_blankDisk (synced_boot blankDisk)
    recvChecks_demoPackage demo_fits 18
  rw [hboot]
  exact ⟨consistent_blankDisk, synced_boot blankDisk, recvChecks_demoPackage, demo_fits,
    entryState_blankDisk 0, quarantined_of_setAside hadm haside,
    not_atomic_of_setAside hadm haside⟩

end

def demoDisk : Disk Sector := ((pkgRecv .boot demoPackage).eval blankDisk).2

theorem loadable_of_first {d : Disk Sector} {reg : Bytes} {p : Inspected} (h : Loads d reg 0 p)
    (hothers : ∀ slot < maxPkgs, entryState reg slot = stateActive → slot = 0) :
    ∀ slot < maxPkgs, Loadable d reg slot := by
  intro slot hs hactive
  rw [hothers slot hs hactive]
  exact ⟨p, h⟩

theorem demoPackage_sectors : sectorsFor demoPackage.length ≤ 64 :=
  sectorsFor_le (recvChecks_ok recvChecks_demoPackage).le

/-- The demo disk is the one that a completed install leaves. -/
theorem demoDisk_eq : demoDisk = recovered blankDisk demoAdmission demoPackage 128 := by
  have hsectors := demoPackage_sectors
  obtain ⟨a, ht⟩ := trace_pkgRecv consistent_blankDisk (synced_boot blankDisk)
    (payloadTotal_blankDisk.trans_le (Nat.zero_le _)) recvChecks_demoPackage
  have hlen : (installWrites (registryOf blankDisk) demoAdmission demoPackage).length ≤ 128 := by
    simp only [installWrites, commitWrites, journalWrites, blobWrites, registryWrites, markerWrites,
      List.length_append, length_stripe, journalSectors, registrySectors]
    omega
  rw [demoDisk, ht.eval, recovered, recoveryWrites, if_pos (.inr (by omega)), crashed,
    List.take_of_length_le hlen]
  rfl

theorem registryOf_demoDisk :
    registryOf demoDisk = demoAdmission.registryWith (fun _ => 0) demoPackage stateActive := by
  have hsectors := demoPackage_sectors
  have hentry : entryWrites demoAdmission.slot = 1 := rfl
  rw [demoDisk_eq, registryOf_recovered (recvChecks_ok recvChecks_demoPackage), registryOf_blankDisk]
  unfold registryRecovered
  simp only
  rw [if_neg (by omega), if_neg (by omega), if_neg (by omega), if_neg (by omega)]

theorem installed_demoDisk : Installed demoDisk demoAdmission demoPackage := by
  have hsectors := demoPackage_sectors
  have hactive := registryOf_demoDisk
  rw [← registryOf_blankDisk] at hactive
  rw [demoDisk_eq] at hactive ⊢
  exact installed_recovered (recvChecks_ok recvChecks_demoPackage) (by omega) hactive

theorem blobOf_demoDisk : blobOf demoDisk (registryOf demoDisk) 0 = demoPackage :=
  installed_demoDisk.blob

theorem loads_demoDisk : Loads demoDisk (registryOf demoDisk) 0 demoAdmission.package := by
  have hstate := installed_demoDisk.state
  rw [demoDisk_eq] at hstate ⊢
  exact loads_recovered (recvChecks_ok recvChecks_demoPackage) hstate

theorem consistent_demoDisk : Consistent demoDisk := by
  refine ⟨by decide +kernel, ?_, ?_, loadable_of_first loads_demoDisk ?_⟩
  all_goals
    rw [registryOf_demoDisk]
    decide +kernel

theorem payloadTotal_demoDisk : payloadTotal demoDisk ≤ 1 := by
  have hle := payloadTotal_recovered (n := 128) consistent_blankDisk
    (recvChecks_ok recvChecks_demoPackage)
  rwa [payloadTotal_blankDisk, ← demoDisk_eq] at hle

theorem atRest_demoDisk : AtRest demoDisk :=
  consistent_demoDisk.atRest (payloadTotal_demoDisk.trans (by decide))

end Dezh.InstallRecovery

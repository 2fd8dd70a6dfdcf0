import Dezh.RollbackRecovery

/-!
# What the package commands write

Whatever fails, a command writes the marker, the journal, the blob areas of the slots it
acts on, and sectors of registries that are known in advance. An entry lies in one sector
of the registry. So afterwards every entry is as before, or it is the one of a registry
that the command has written.
-/
namespace Dezh.CommandEffects
open BlockProgram Program ByteLayout CairnFormat CairnService BlockDaemon PackageFormat PackageStore
  PackageCodec PackageAreas PackageRecovery PackageLoading PackageCommands InstallTrace StorePhases
  RollbackRecovery

variable {K : Faults} {d d' : Disk Sector} {slot : ℕ} {k : Kernel} {raw : List UInt8}

section
variable {R R' : Bytes → Prop} {S S' : ℕ → Prop}

/-- The three areas of a slot. -/
inductive Role where
  | current | previous | stage
  deriving DecidableEq, Repr

def Role.first : Role → ℕ → ℕ
  | .current => slotBlobSector
  | .previous => previousBlobSector
  | .stage => stageBlobSector

/-- A write of a command that acts on the slots `S` and writes the registries `R`. -/
inductive Effect (R : Bytes → Prop) (S : ℕ → Prop) : ℕ → Sector → Prop
  | marker {b : Sector} : Effect R S pkgStoreMarkerSector b
  | journal {j : ℕ} {b : Sector} (hj : j < journalSectors) : Effect R S (journalSector + j) b
  | blob {slot j : ℕ} {b : Sector} (role : Role) (hs : S slot) (hj : j < slotSectors) :
      Effect R S (role.first slot + j) b
  | registry {reg : Bytes} {j : ℕ} (hR : R reg) (hj : j < registrySectors) :
      Effect R S (registrySector + j) (sectorAt reg j)

theorem Effect.mono {x : ℕ} {b : Sector} (h : Effect R S x b) (hR : ∀ reg, R reg → R' reg)
    (hS : ∀ slot, S slot → S' slot) : Effect R' S' x b := by
  cases h with
  | marker => exact .marker
  | journal hj => exact .journal hj
  | blob role hs hj => exact .blob role (hS _ hs) hj
  | registry hreg hj => exact .registry (hR _ hreg) hj

theorem le_first (role : Role) (slot : ℕ) : 64 ≤ role.first slot := by
  cases role
  · exact le_slotBlobSector slot
  · exact le_previousBlobSector slot
  · exact le_stageBlobSector slot

theorem entry_of_effect {d d' : Disk Sector} {t : ℕ}
    (h : ∀ x, d' x = d x ∨ Effect R S x (d' x)) (ht : t < maxPkgs) :
    ∃ reg, (reg = registryOf d ∨ R reg) ∧
      ∀ i < entrySize, registryOf d' (entryOff t + i) = reg (entryOff t + i) := by
  have ht' : t < 8 := ht
  have hbyte : ∀ i < entrySize, entryOff t + i < registrySectors * sectorSize ∧
      (entryOff t + i) / sectorSize = t / 4 := by
    intro i hi
    unfold entryOff entrySize registrySectors sectorSize at *
    omega
  rcases h (registrySector + t / 4) with hsame | heffect
  · refine ⟨registryOf d, .inl rfl, fun i hi => ?_⟩
    obtain ⟨hlt, hdiv⟩ := hbyte i hi
    rw [registryOf, area_of_lt hlt, registryOf, area_of_lt hlt]
    refine image_congr ?_
    rw [hdiv, hsame]
  · generalize hx : registrySector + t / 4 = x at heffect
    generalize hb : d' x = b at heffect
    unfold registrySector at hx
    cases heffect with
    | marker =>
      unfold pkgStoreMarkerSector at hx
      omega
    | journal hj =>
      unfold journalSector at hx
      omega
    | @blob slot j b role hs hj =>
      have hbase := le_first role slot
      omega
    | @registry reg j hR hj =>
      obtain rfl : t / 4 = j := by
        unfold registrySector at hx
        omega
      refine ⟨reg, .inr hR, fun i hi => ?_⟩
      obtain ⟨hlt, hdiv⟩ := hbyte i hi
      rw [registryOf, area_of_lt hlt]
      refine image_eq ?_
      rw [hdiv, hb]

end

section
variable {P : ℕ → Sector → Prop} {R : Bytes → Prop} {S : ℕ → Prop}
  {a : PkgArea} {first base len n i : ℕ} {data buf : Bytes} {r : JournalRecord}

theorem emits_readSector (s : ℕ) : (readSector a s).Emits K P d := by
  unfold readSector pkgRead
  split_ifs
  · trivial
  · exact ⟨trivial, fun _ => trivial⟩

theorem emits_writeSector {s : ℕ} (h : P s (take sectorSize data)) :
    (writeSector a s data).Emits K P d := by
  by_cases hs : Within a s 1
  · rw [writeSector_eq hs]
    exact ⟨h, trivial, fun _ => trivial, fun _ => trivial⟩
  · have hdenied : s < a.first ∨ a.last < s := by
      unfold Within at hs
      omega
    rw [writeSector, pkgWrite, if_pos hdenied]
    trivial

theorem emits_readSectors (n i : ℕ) (buf : Bytes) : (readSectors a first n i buf).Emits K P d := by
  induction n generalizing i buf d with
  | zero => trivial
  | succ n ih =>
    refine (emits_readSector (first + i)).bind fun x d' _ => ?_
    cases x with
    | none => trivial
    | some s => exact ih _ _

theorem emits_writeSectors (h : ∀ j < n, P (first + (i + j)) (sectorAt data (i + j))) :
    (writeSectors a first data n i).Emits K P d := by
  induction n generalizing i d with
  | zero => trivial
  | succ n ih =>
    refine (emits_writeSector (h 0 (Nat.succ_pos n))).ite fun d' => ih fun j hj => ?_
    have hnext := h (j + 1) (by omega)
    rwa [show i + (j + 1) = i + 1 + j by omega] at hnext

theorem emits_writeJournalRaw : (writeJournalRaw data).Emits K (Effect R S) d := by
  refine emits_writeSectors fun j hj => ?_
  rw [Nat.zero_add]
  exact .journal hj

theorem emits_writeRegistry (hR : R k.registry) : (writeRegistry k).Emits K (Effect R S) d := by
  refine emits_writeSectors fun j hj => ?_
  rw [Nat.zero_add]
  exact .registry hR hj

theorem emits_initStoreMarker : initStoreMarker.Emits K (Effect R S) d :=
  ⟨.marker, trivial, fun _ => trivial, fun _ => trivial⟩

theorem emits_commitStore (hR : R k.registry) : (commitStore k).Emits K (Effect R S) d :=
  (emits_writeRegistry hR).ite fun _ => emits_initStoreMarker.ite fun _ => emits_writeJournalRaw

theorem emits_writeBlobAt (role : Role) (hs : S slot) (hl : raw.length ≤ maxRawBytes) :
    (writeBlobAt (role.first slot) raw).Emits K (Effect R S) d := by
  refine emits_writeSectors fun j hj => ?_
  rw [Nat.zero_add]
  exact .blob role hs (hj.trans_le (sectorsFor_le hl))

theorem emits_readBlobArea : (readBlobArea base len).Emits K P d := by
  unfold readBlobArea
  split_ifs
  · trivial
  · exact (emits_readSectors _ _ _).bind fun _ _ _ => trivial

theorem length_of_exec {v : Option (List UInt8)} (h : (readBlobArea base len).Exec K d v d')
    (hv : v = some raw) : raw.length = len ∧ len ≤ maxRawBytes := by
  unfold readBlobArea at h
  split_ifs at h with hlen
  · obtain ⟨rfl, -⟩ := h
    cases hv
  · obtain ⟨buf, d1, -, hpure⟩ := exec_bind.mp h
    rw [exec_pure, hv] at hpure
    obtain ⟨b, -, rfl⟩ := Option.map_eq_some_iff.mp hpure.1.symm
    exact ⟨length_toList, by omega⟩

theorem emits_copyBlobArea (role : Role) (hs : S slot) :
    (copyBlobArea base (role.first slot) len).Emits K (Effect R S) d := by
  unfold copyBlobArea
  split_ifs
  · trivial
  · refine emits_readBlobArea.bind fun v d' hread => ?_
    cases v with
    | none => trivial
    | some raw =>
      obtain ⟨hlen, hle⟩ := length_of_exec hread rfl
      exact emits_writeBlobAt role hs (hlen.trans_le hle)

theorem emits_verifyBlobRecordAt : (verifyBlobRecordAt base r).Emits K P d := by
  unfold verifyBlobRecordAt
  split_ifs
  · trivial
  · refine emits_readBlobArea.bind fun v d' _ => ?_
    cases v with
    | none => trivial
    | some raw =>
      simp only
      split_ifs
      · trivial
      · split <;> trivial

theorem emits_readRegistry : (readRegistry k).Emits K P d := by
  refine (emits_readSectors _ _ _).bind fun v d' _ => ?_
  cases v <;> trivial

theorem exec_readJournalRaw {v : Option Bytes} (h : readJournalRaw.Exec K d v d') :
    d' = d ∧ (v = none ∨ v = some (journalOf d)) := by
  obtain ⟨hdisk, hjournal⟩ := exec_readArea ⟨le_rfl, by decide⟩ h
  refine ⟨hdisk, ?_⟩
  cases v with
  | none => exact .inl rfl
  | some raw => exact .inr (congrArg some (hjournal raw rfl))

end

section
variable {R : Bytes → Prop} {S : ℕ → Prop} {k' : Kernel} {name : Text}

theorem emits_install {p : Admission} (hs : S p.slot) (hl : raw.length ≤ maxRawBytes)
    (hR : ∀ state ≠ stateEmpty, R (p.registryWith k.registry raw state)) :
    (install k p raw).Emits K (Effect R S) d := by
  have hactive : setEntryState (p.registryWith k.registry raw statePendingInstall) p.slot
      stateActive = p.registryWith k.registry raw stateActive := setEntryState_encode
  unfold install
  refine emits_writeJournalRaw.ite fun _ => ?_
  refine (emits_writeBlobAt .current hs hl).ite fun _ => ?_
  refine emits_writeJournalRaw.ite fun _ => ?_
  refine emits_verifyBlobRecordAt.ite fun _ => ?_
  refine emits_writeJournalRaw.ite fun _ => ?_
  refine (emits_writeRegistry (hR statePendingInstall (by decide))).ite fun _ => ?_
  refine Emits.ite (emits_commitStore ?_) fun _ => trivial
  simp only [hactive]
  exact hR stateActive (by decide)

theorem emits_update {u : Replacement} (hs : S u.slot) (hl : raw.length ≤ maxRawBytes)
    (hR : ∀ state ≠ stateEmpty, R (u.registryWith k.registry raw state)) :
    (update k u raw).Emits K (Effect R S) d := by
  have hactive : setEntryState (u.registryWith k.registry raw statePendingInstall) u.slot
      stateActive = u.registryWith k.registry raw stateActive :=
    UpdateRecovery.setEntryState_registryWith
  unfold update
  refine emits_writeJournalRaw.ite fun _ => ?_
  refine (emits_writeBlobAt .stage hs hl).ite fun _ => ?_
  refine emits_writeJournalRaw.ite fun _ => ?_
  refine emits_verifyBlobRecordAt.ite fun _ => ?_
  refine (emits_copyBlobArea .previous hs).ite fun _ => ?_
  refine emits_writeJournalRaw.ite fun _ => ?_
  refine (emits_writeRegistry (hR statePendingInstall (by decide))).ite fun _ => ?_
  refine (emits_copyBlobArea .current hs).ite fun _ => ?_
  refine Emits.ite (emits_commitStore ?_) fun _ => trivial
  simp only [hactive]
  exact hR stateActive (by decide)

theorem emits_remove (hR : ∀ state ≠ stateEmpty, R (setEntryState k.registry slot state)) :
    (remove k slot).Emits K (Effect R S) d := by
  unfold remove
  refine emits_writeJournalRaw.ite fun _ => ?_
  refine (emits_writeRegistry (hR statePendingRemove (by decide))).ite fun _ => ?_
  refine Emits.ite (emits_commitStore ?_) fun _ => trivial
  simp only [setEntryState_setEntryState]
  exact hR stateRemoved (by decide)

theorem emits_restore (hs : S slot) (hl : raw.length ≤ maxRawBytes)
    (hR : ∀ state ≠ stateEmpty, R (restoredRegistry k.registry slot name state)) :
    (restore k slot name raw).Emits K (Effect R S) d := by
  unfold restore
  refine emits_writeJournalRaw.ite fun _ => ?_
  refine (emits_writeRegistry (hR statePendingInstall (by decide))).ite fun _ => ?_
  refine (emits_writeBlobAt .current hs hl).ite fun _ => ?_
  refine Emits.ite (emits_commitStore ?_) fun _ => trivial
  simp only [setEntryState_restoredRegistry]
  exact hR stateActive (by decide)

theorem emits_rollback {forced : Bool} (h : ∀ slot, findRegistrySlot k.registry name = some slot →
      S slot ∧ ∀ state ≠ stateEmpty, R (restoredRegistry k.registry slot name state)) :
    (rollback k name forced).Emits K (Effect R S) d := by
  unfold rollback
  split
  · trivial
  · rename_i slot hfound
    split_ifs
    · trivial
    · trivial
    · refine emits_readBlobArea.bind fun v d' hread => ?_
      cases v with
      | none => trivial
      | some raw =>
        obtain ⟨hlen, hle⟩ := length_of_exec hread rfl
        simp only
        split_ifs
        · trivial
        · exact emits_restore (h slot hfound).1 (hlen.trans_le hle) (h slot hfound).2

theorem emits_zeroBlobArea (role : Role) (hs : S slot) :
    (zeroBlobArea (role.first slot)).Emits K (Effect R S) d := by
  refine emits_writeSectors fun j hj => ?_
  rw [Nat.zero_add]
  exact .blob role hs hj

theorem emits_wipeSlots {P : ℕ → Sector → Prop} {slots : List ℕ}
    (hzero : ∀ slot ∈ slots, ∀ (role : Role) d, (zeroBlobArea (role.first slot)).Emits K P d) :
    (wipeSlots k slots).Emits K P d := by
  induction slots generalizing k d with
  | nil => trivial
  | cons slot rest ih =>
    have hslot := hzero slot List.mem_cons_self
    refine Emits.ite ?_ fun d' => ih fun s hs => hzero s (List.mem_cons_of_mem slot hs)
    exact (hslot .current _).ite fun _ => (hslot .previous _).ite fun _ => hslot .stage _

theorem exec_wipeSlots {slots : List ℕ} (h : (wipeSlots k slots).Exec K d (none, k') d') :
    k'.registry = slots.foldl clearRegistrySlot k.registry := by
  induction slots generalizing k d with
  | nil =>
    obtain ⟨h, -⟩ := (exec_pure _).mp h
    rw [(Prod.mk.inj h).2]
    rfl
  | cons slot rest ih =>
    obtain ⟨ok, d1, -, h⟩ := exec_bind.mp h
    cases ok with
    | true => exact ih h
    | false =>
      obtain ⟨h, -⟩ := (exec_pure _).mp h
      cases (Prod.mk.inj h).1

theorem emits_collect {P : ℕ → Sector → Prop}
    (hzero : ∀ slot ∈ removedSlots k.registry, ∀ (role : Role) d,
      (zeroBlobArea (role.first slot)).Emits K P d)
    (hreg : ∀ k' d, k'.registry = (removedSlots k.registry).foldl clearRegistrySlot k.registry →
      (writeRegistry k').Emits K P d)
    (hmarker : ∀ d, initStoreMarker.Emits K P d) : (collect k).Emits K P d := by
  unfold collect
  dsimp only
  split_ifs
  · trivial
  · refine (emits_wipeSlots hzero).bind fun v d' hwipe => ?_
    obtain ⟨failed, k'⟩ := v
    cases failed with
    | some slot => trivial
    | none =>
      exact (hreg k' d' (exec_wipeSlots hwipe)).ite fun _ => (hmarker _).ite fun _ => trivial

/-- What the recovery makes of a registry under a valid record. -/
def Undone (reg : Bytes) (r : JournalRecord) (reg' : Bytes) : Prop :=
  reg' = rollbackSlotToOldState reg r ∨ ∃ state ≠ stateEmpty, reg' = setEntryState reg r.slot state

theorem ite_bind {A B : Type} {c : Prop} [Decidable c] (p q : Program Sector A)
    (f : A → Program Sector B) :
    (if c then p >>= f else q >>= f) = (if c then p else q) >>= f := by
  split_ifs <;> rfl

theorem emits_recoverRegistry {r : JournalRecord} (hs : S r.slot) :
    (recoverRegistry k r).Emits K (Effect R S) d := by
  unfold recoverRegistry
  simp only [ite_bind]
  refine emits_ite (emits_ite trivial (emits_ite ?_ trivial))
    (emits_ite (emits_ite ?_ trivial) (emits_ite trivial trivial))
  · refine Emits.bind (emits_ite emits_verifyBlobRecordAt trivial) fun staged d1 _ => ?_
    refine Emits.bind (emits_ite (emits_copyBlobArea .current hs) trivial) fun copied d2 _ => ?_
    exact Emits.bind (emits_ite emits_verifyBlobRecordAt trivial) fun _ _ _ => trivial
  · refine emits_readBlobArea.bind fun v d' hread => ?_
    cases v with
    | none => trivial
    | some raw =>
      obtain ⟨hlen, hle⟩ := length_of_exec hread rfl
      refine emits_ite ?_ trivial
      exact (emits_writeBlobAt .current hs (hlen.trans_le hle)).ite fun _ => trivial

theorem undone_of_exec {r : JournalRecord} {v : Option Bytes} {reg : Bytes}
    (h : (recoverRegistry k r).Exec K d v d') (hv : v = some reg) : Undone k.registry r reg := by
  have hnone {e : Disk Sector} (h : (pure none : Program Sector (Option Bytes)).Exec K e v d') :
      Undone k.registry r reg := by
    obtain ⟨rfl, -⟩ := (exec_pure _).mp h
    cases hv
  have hstate {e : Disk Sector} {state : UInt8} (hne : state ≠ stateEmpty)
      (h : (pure (some (setEntryState k.registry r.slot state)) :
        Program Sector (Option Bytes)).Exec K e v d') : Undone k.registry r reg := by
    obtain ⟨rfl, -⟩ := (exec_pure _).mp h
    exact .inr ⟨state, hne, (Option.some.inj hv).symm⟩
  unfold recoverRegistry at h
  simp only [ite_bind] at h
  split at h
  · split at h
    · obtain ⟨rfl, -⟩ := (exec_pure _).mp h
      exact .inl (Option.some.inj hv).symm
    · split at h
      · obtain ⟨staged, d1, -, h⟩ := exec_bind.mp h
        obtain ⟨copied, d2, -, h⟩ := exec_bind.mp h
        obtain ⟨stored, d3, -, h⟩ := exec_bind.mp h
        refine hstate ?_ h
        split_ifs <;> decide
      · exact hnone h
  · split at h
    · split at h
      · obtain ⟨raw, d1, -, h⟩ := exec_bind.mp h
        cases raw with
        | none => exact hnone h
        | some raw =>
          simp only at h
          split at h
          · obtain ⟨ok, d2, -, h⟩ := exec_bind.mp h
            cases ok with
            | true => exact hstate (by decide) h
            | false => exact hnone h
          · exact hnone h
      · exact hnone h
    · split at h
      · exact hstate (by decide) h
      · exact hnone h

/-- The slots that a recovery acts on. -/
inductive RecoverySlot (reg journal : Bytes) (manual : Bool) : ℕ → Prop
  | named {r : JournalRecord} (h : decodeJournal journal = .valid r) :
      RecoverySlot reg journal manual r.slot
  | pending {fault : JournalFault} {slot : ℕ} (h : decodeJournal journal = .corrupt fault)
      (hmanual : manual = true) (hs : slot < maxPkgs)
      (hstate : entryState reg slot = statePendingInstall ∨ entryState reg slot = statePendingRemove) :
      RecoverySlot reg journal manual slot

/-- The registries that a recovery writes. -/
inductive RecoveryRegistry (reg journal : Bytes) (manual : Bool) : Bytes → Prop
  | undone {r : JournalRecord} {reg' : Bytes} (h : decodeJournal journal = .valid r)
      (hreg : Undone reg r reg') : RecoveryRegistry reg journal manual reg'
  | quarantined {fault : JournalFault} (h : decodeJournal journal = .corrupt fault)
      (hmanual : manual = true) : RecoveryRegistry reg journal manual (quarantinePendingSlots reg)

theorem emits_recoverFromJournal (manual : Bool) {reg : Bytes} (hk : k.registry = reg) :
    (recoverFromJournal k manual).Emits K (Effect (RecoveryRegistry reg (journalOf d) manual)
      (RecoverySlot reg (journalOf d) manual)) d := by
  subst hk
  refine Emits.bind (emits_readSectors _ _ _) fun v d' hread => ?_
  obtain ⟨rfl, rfl | rfl⟩ := exec_readJournalRaw hread
  · trivial
  · simp only
    split
    · trivial
    · rename_i fault hdecode
      split_ifs with hmanual
      · refine Emits.ite (emits_commitStore ?_) fun _ => trivial
        simp only
        exact .quarantined hdecode hmanual
      · trivial
    · rename_i r hdecode
      refine (emits_recoverRegistry (.named hdecode)).bind fun v d'' hrecover => ?_
      cases v with
      | none => trivial
      | some reg =>
        refine Emits.ite (emits_commitStore ?_) fun _ => trivial
        exact .undone hdecode (undone_of_exec hrecover rfl)

end

def faultSlots (reg : Bytes) : Injection → ℕ → Prop
  | .installPendingRegistry, slot => faultSlot reg = slot
  | .removePending, slot => findRegistrySlot reg (ascii "hello") = some slot
  | .installAfterBlob, _ | .corruptJournal, _ => False

def faultRegistries (reg : Bytes) : Injection → Bytes → Prop
  | .installPendingRegistry, reg' => reg' = encodeRegistryEntry reg (faultSlot reg)
      statePendingInstall faultName faultVersion kindDezhIr 1 128 faultCrc
  | .removePending, reg' => ∃ slot, findRegistrySlot reg (ascii "hello") = some slot ∧
      reg' = setEntryState reg slot statePendingRemove
  | .installAfterBlob, _ | .corruptJournal, _ => False

def slots (reg journal : Bytes) : Command → ℕ → Prop
  | .recv raw, slot => ∃ p, recvChecks reg raw = .ok p ∧ p.slot = slot
  | .update arg raw, slot => ∃ target options u, splitWhitespace arg = target :: options ∧
      updateChecks reg target (options.contains allowNewCaps) raw = .ok u ∧ u.slot = slot
  | .rollback arg, slot => ∃ name options, splitWhitespace arg = name :: options ∧
      findRegistrySlot reg name = some slot
  | .remove arg, slot | .pin arg _, slot => findRegistrySlot reg (trim arg) = some slot
  | .gc _, slot => slot ∈ removedSlots reg
  | .recover, slot => RecoverySlot reg journal true slot
  | .store, slot => RecoverySlot reg journal false slot
  | .fault arg, slot => ∃ fault, Injection.ofName (trim arg) = some fault ∧ faultSlots reg fault slot
  | .run _, _ | .verify _, _ | .query, _ => False

def registries (reg journal : Bytes) : Command → Bytes → Prop
  | .recv raw, reg' => ∃ p, recvChecks reg raw = .ok p ∧
      ∃ state ≠ stateEmpty, reg' = p.registryWith reg raw state
  | .update arg raw, reg' => ∃ target options u, splitWhitespace arg = target :: options ∧
      updateChecks reg target (options.contains allowNewCaps) raw = .ok u ∧
      ∃ state ≠ stateEmpty, reg' = u.registryWith reg raw state
  | .rollback arg, reg' => ∃ name options slot, splitWhitespace arg = name :: options ∧
      findRegistrySlot reg name = some slot ∧
      ∃ state ≠ stateEmpty, reg' = restoredRegistry reg slot name state
  | .remove arg, reg' => ∃ slot, findRegistrySlot reg (trim arg) = some slot ∧
      ∃ state ≠ stateEmpty, reg' = setEntryState reg slot state
  | .pin arg pinned, reg' => ∃ slot, findRegistrySlot reg (trim arg) = some slot ∧
      reg' = setEntryFlags reg slot (pinnedFlags (entryFlags reg slot) pinned)
  | .gc _, reg' => reg' = (removedSlots reg).foldl clearRegistrySlot reg
  | .recover, reg' => RecoveryRegistry reg journal true reg'
  | .store, reg' => RecoveryRegistry reg journal false reg'
  | .fault arg, reg' => ∃ fault, Injection.ofName (trim arg) = some fault ∧
      faultRegistries reg fault reg'
  | .run _, _ | .verify _, _ | .query, _ => False

section
variable (h : Opened k d)
include h

theorem emits_pkgRecv (raw : List UInt8) : (pkgRecv k raw).Emits K
    (Effect (registries k.registry (journalOf d) (.recv raw))
      (slots k.registry (journalOf d) (.recv raw))) d := by
  unfold pkgRecv
  rw [h.ensureLoaded]
  refine Emits.bind trivial fun v d' hload => ?_
  obtain ⟨rfl, rfl⟩ := (exec_pure _).mp hload
  simp only [if_true]
  split
  · trivial
  · rename_i p hcheck
    exact emits_install ⟨p, hcheck, rfl⟩ (recvChecks_ok hcheck).le fun state hne =>
      ⟨p, hcheck, state, hne, rfl⟩

theorem emits_pkgUpdate (arg : Text) (raw : List UInt8) : (pkgUpdate k arg raw).Emits K
    (Effect (registries k.registry (journalOf d) (.update arg raw))
      (slots k.registry (journalOf d) (.update arg raw))) d := by
  unfold pkgUpdate
  split
  · trivial
  · rename_i target options harg
    rw [withStore_of_opened h]
    split
    · trivial
    · rename_i u hcheck
      exact emits_update ⟨target, options, u, harg, hcheck, rfl⟩
        (UpdateRecovery.updateChecks_ok hcheck).le fun state hne =>
          ⟨target, options, u, harg, hcheck, state, hne, rfl⟩

theorem emits_pkgRollback (arg : Text) : (pkgRollback k arg).Emits K
    (Effect (registries k.registry (journalOf d) (.rollback arg))
      (slots k.registry (journalOf d) (.rollback arg))) d := by
  unfold pkgRollback
  split
  · trivial
  · rename_i name options harg
    rw [withStore_of_opened h]
    exact emits_rollback fun slot hfound => ⟨⟨name, options, harg, hfound⟩, fun state hne =>
      ⟨name, options, slot, harg, hfound, state, hne, rfl⟩⟩

theorem emits_pkgRemove (arg : Text) : (pkgRemove k arg).Emits K
    (Effect (registries k.registry (journalOf d) (.remove arg))
      (slots k.registry (journalOf d) (.remove arg))) d := by
  rw [pkgRemove, withStore_of_opened h]
  split
  · trivial
  · rename_i slot hfound
    refine emits_ite trivial (emits_remove fun state hne => ?_)
    exact ⟨slot, hfound, state, hne, rfl⟩

theorem emits_pkgPin (arg : Text) (pinned : Bool) : (pkgPin k arg pinned).Emits K
    (Effect (registries k.registry (journalOf d) (.pin arg pinned))
      (slots k.registry (journalOf d) (.pin arg pinned))) d := by
  rw [pkgPin, withStore_of_opened h]
  split
  · trivial
  · rename_i slot hfound
    refine Emits.ite (emits_writeRegistry ?_) fun _ => emits_initStoreMarker.ite fun _ => trivial
    exact ⟨slot, hfound, rfl⟩

theorem emits_pkgGc (arg : Text) : (pkgGc k arg).Emits K
    (Effect (registries k.registry (journalOf d) (.gc arg))
      (slots k.registry (journalOf d) (.gc arg))) d := by
  unfold pkgGc
  split
  · trivial
  · rw [withStore_of_opened h]
    refine Emits.bind (emits_readSectors _ _ _) fun v d' _ => ?_
    cases v with
    | none => trivial
    | some raw =>
      simp only
      split
      · trivial
      · trivial
      · refine emits_ite (emits_collect ?_ ?_ fun _ => emits_initStoreMarker) trivial
        · exact fun slot hs role d => emits_zeroBlobArea role hs
        · exact fun k' d hk' => emits_writeRegistry hk'

theorem emits_pkgRun {P : ℕ → Sector → Prop} (arg : Text) : (pkgRun k arg).Emits K P d := by
  rw [pkgRun, withStore_of_opened h]
  split
  · trivial
  · split <;> trivial

theorem emits_pkgVerify {P : ℕ → Sector → Prop} (arg : Text) : (pkgVerify k arg).Emits K P d := by
  rw [pkgVerify, withStore_of_opened h]
  split
  · trivial
  · refine emits_ite trivial (emits_readBlobArea.bind fun v d' _ => ?_)
    cases v with
    | none => trivial
    | some raw =>
      refine emits_ite trivial ?_
      split
      · trivial
      · split <;> trivial

end

theorem emits_pkgRecover : (pkgRecover k).Emits K
    (Effect (registries (registryOf d) (journalOf d) .recover)
      (slots (registryOf d) (journalOf d) .recover)) d := by
  refine emits_readRegistry.bind fun v d' hread => ?_
  obtain ⟨rfl, rfl | rfl⟩ := exec_readRegistry hread
  · simp only [if_true]
    exact emits_recoverFromJournal true (by simp only)
  · trivial

theorem emits_pkgStore :
    (pkgStore k).Emits K (Effect (registries (registryOf d) (journalOf d) .store)
      (slots (registryOf d) (journalOf d) .store)) d := by
  refine emits_readRegistry.bind fun v d' hread => ?_
  obtain ⟨rfl, rfl | rfl⟩ := exec_readRegistry hread
  swap
  · trivial
  · simp only [if_true]
    refine Emits.bind ?_ fun _ _ _ => emits_readRegistry.bind fun _ _ _ =>
      Emits.bind (emits_readSectors _ _ _) fun _ _ _ => trivial
    exact emits_recoverFromJournal false (by simp only)

theorem emits_injectPending {R : Bytes → Prop} {S : ℕ → Prop} {r : JournalRecord} (hR : R k.registry) :
    (injectPending k r).Emits K (Effect R S) d :=
  (emits_writeRegistry hR).ite fun _ => emits_writeJournalRaw.ite fun _ => trivial

theorem emits_inject {R : Bytes → Prop} {S : ℕ → Prop} (fault : Injection)
    (hR : ∀ reg, faultRegistries k.registry fault reg → R reg) :
    (inject k fault).Emits K (Effect R S) d := by
  cases fault with
  | installAfterBlob | corruptJournal => exact emits_writeJournalRaw.ite fun _ => trivial
  | installPendingRegistry => exact emits_injectPending (hR _ rfl)
  | removePending =>
    simp only [inject]
    split
    · trivial
    · rename_i slot hfound
      exact emits_injectPending (hR _ ⟨slot, hfound, rfl⟩)

theorem emits_pkgFault (arg : Text) : (pkgFault k arg).Emits K
    (Effect (registries (registryOf d) (journalOf d) (.fault arg))
      (slots (registryOf d) (journalOf d) (.fault arg))) d := by
  refine emits_readRegistry.bind fun v d' hread => ?_
  obtain ⟨rfl, rfl | rfl⟩ := exec_readRegistry hread
  swap
  · trivial
  · simp only [if_true]
    split
    · rename_i fault hfault
      exact emits_inject fault fun reg hR => ⟨fault, hfault, hR⟩
    · trivial

theorem emits_program (h : Opened k d) (c : Command) : (c.program k).Emits K
    (Effect (registries (registryOf d) (journalOf d) c) (slots (registryOf d) (journalOf d) c)) d := by
  have hreg := h.registry
  cases c with
  | recv raw => exact Emits.bind (hreg ▸ emits_pkgRecv h raw) fun _ _ _ => trivial
  | update arg raw => exact Emits.bind (hreg ▸ emits_pkgUpdate h arg raw) fun _ _ _ => trivial
  | rollback arg => exact Emits.bind (hreg ▸ emits_pkgRollback h arg) fun _ _ _ => trivial
  | remove arg => exact Emits.bind (hreg ▸ emits_pkgRemove h arg) fun _ _ _ => trivial
  | pin arg pinned => exact Emits.bind (hreg ▸ emits_pkgPin h arg pinned) fun _ _ _ => trivial
  | gc arg => exact Emits.bind (hreg ▸ emits_pkgGc h arg) fun _ _ _ => trivial
  | run arg => exact Emits.bind (emits_pkgRun h arg) fun _ _ _ => trivial
  | recover => exact Emits.bind emits_pkgRecover fun _ _ _ => trivial
  | store => exact Emits.bind emits_pkgStore fun _ _ _ => trivial
  | verify arg => exact Emits.bind (emits_pkgVerify h arg) fun _ _ _ => trivial
  | query =>
    refine Emits.bind ?_ fun _ _ _ => trivial
    rw [pkgQuery, h.ensureLoaded]
    trivial
  | fault arg => exact emits_pkgFault arg

end Dezh.CommandEffects

import Mathlib.Order.CompletePartialOrder
import Dezh.CommandEffects
import Dezh.RecoveryRepeat

/-!
# The frame of the package commands

On an opened store a command acts on the slot that its argument or the journal names, the
garbage collection on the removed slots, and the manual recovery from a corrupt journal
on the pending ones. Whatever fails, it writes blobs into the areas of these slots only,
and it leaves the entries of all other slots as they are. The areas do not overlap each
other or anything else on the disk.
-/
namespace Dezh.StoreFrame
open BlockProgram Program ByteLayout CairnFormat BlockDaemon PackageFormat PackageStore PackageCodec
  PackageAreas PackageRecovery PackageCommands CheckpointCodec InstallTrace InstallRecovery
  StorePhases RollbackRecovery RecoveryRepeat CommandEffects

variable {reg journal reg' : Bytes} {c : Command} {slot t i : ℕ} {role : Role} {x : ℕ}

def blobArea (role : Role) (slot : ℕ) : Set ℕ :=
  {x | role.first slot ≤ x ∧ x < role.first slot + slotSectors}

def registryArea : Set ℕ := {x | registrySector ≤ x ∧ x < registrySector + registrySectors}

def journalArea : Set ℕ := {x | journalSector ≤ x ∧ x < journalSector + journalSectors}

def cairnArea : Set ℕ :=
  {x | x = cairnCurrentSector ∨ x = cairnPreviousSector ∨
    (superSector ≤ x ∧ x < commitFirstSector + commitSlots)}

theorem disjoint_of_sectors {s t : Set ℕ} (h : ∀ x ∈ s, x ∉ t) : Disjoint s t :=
  Set.disjoint_left.mpr fun x hs => h x hs

theorem blobArea_disjoint {role' : Role} {slot slot' : ℕ} (hs : slot < maxPkgs)
    (hs' : slot' < maxPkgs) (hne : (role, slot) ≠ (role', slot')) :
    Disjoint (blobArea role slot) (blobArea role' slot') := by
  have hslots : role = role' → slot ≠ slot' := by
    rintro rfl rfl
    exact hne rfl
  refine disjoint_of_sectors fun x hx hx' => ?_
  obtain ⟨h1, h2⟩ := hx
  obtain ⟨h3, h4⟩ := hx'
  unfold maxPkgs at hs hs'
  cases role <;> cases role' <;>
    simp only [Role.first, slotBlobSector, previousBlobSector, stageBlobSector, slotSectors, reduceCtorEq,
      false_implies, true_implies] at h1 h2 h3 h4 hslots <;> omega

theorem blobArea_bounds {slot : ℕ} (hs : slot < maxPkgs) (hx : x ∈ blobArea role slot) :
    64 ≤ x ∧ x < 1600 := by
  obtain ⟨h1, h2⟩ := hx
  unfold maxPkgs at hs
  cases role <;>
    simp only [Role.first, slotBlobSector, previousBlobSector, stageBlobSector, slotSectors]
      at h1 h2 <;> omega

theorem blobArea_disjoint_others {slot : ℕ} (hs : slot < maxPkgs) :
    Disjoint (blobArea role slot) registryArea ∧ Disjoint (blobArea role slot) journalArea ∧
      Disjoint (blobArea role slot) cairnArea := by
  refine ⟨disjoint_of_sectors fun x hx hx' => ?_, disjoint_of_sectors fun x hx hx' => ?_,
    disjoint_of_sectors fun x hx hx' => ?_⟩
  · obtain ⟨h1, h2⟩ := blobArea_bounds hs hx
    obtain ⟨-, h3⟩ := hx'
    unfold registrySector registrySectors at h3
    omega
  · obtain ⟨h1, h2⟩ := blobArea_bounds hs hx
    obtain ⟨-, h3⟩ := hx'
    unfold journalSector journalSectors at h3
    omega
  · obtain ⟨h1, h2⟩ := blobArea_bounds hs hx
    rcases hx' with h3 | h3 | ⟨h3, -⟩
    · unfold cairnCurrentSector at h3
      omega
    · unfold cairnPreviousSector at h3
      omega
    · unfold superSector at h3
      omega

theorem mem_removedSlots : slot ∈ removedSlots reg ↔
    slot < maxPkgs ∧ entryState reg slot = stateRemoved := by
  simp only [removedSlots, List.mem_filter, List.mem_range, beq_iff_eq]

theorem faultSlot_lt : faultSlot reg < maxPkgs := by
  unfold faultSlot
  cases hslot : registrySlotFor reg faultName with
  | none => decide
  | some slot => exact registrySlotFor_lt hslot

theorem slots_lt (h : slots reg journal c slot) : slot < maxPkgs := by
  cases c with
  | recv raw =>
    obtain ⟨p, hcheck, rfl⟩ := h
    exact (recvChecks_ok hcheck).slot
  | update arg raw =>
    obtain ⟨_, _, u, -, hcheck, rfl⟩ := h
    exact (UpdateRecovery.updateChecks_ok hcheck).slot
  | rollback arg =>
    obtain ⟨_, _, -, hfound⟩ := h
    exact (findRegistrySlot_some hfound).1
  | remove arg | pin arg pinned => exact (findRegistrySlot_some h).1
  | gc arg => exact (mem_removedSlots.mp h).1
  | run arg | verify arg | query => exact h.elim
  | recover | store =>
    cases h with
    | named hdecode => exact decodeJournal_slot hdecode
    | pending _ _ hs _ => exact hs
  | fault arg =>
    obtain ⟨fault, -, hslot⟩ := h
    cases fault with
    | installAfterBlob | corruptJournal => exact hslot.elim
    | installPendingRegistry => exact hslot ▸ faultSlot_lt
    | removePending => exact (findRegistrySlot_some hslot).1

theorem slots_unique (hgc : ∀ arg, c ≠ .gc arg) (hjournal : c = .recover →
      ∀ fault, decodeJournal journal ≠ .corrupt fault)
    (hs : slots reg journal c slot) (ht : slots reg journal c t) : slot = t := by
  cases c with
  | recv raw =>
    obtain ⟨p, hcheck, rfl⟩ := hs
    obtain ⟨p', hcheck', rfl⟩ := ht
    rw [hcheck] at hcheck'
    rw [Except.ok.inj hcheck']
  | update arg raw =>
    obtain ⟨_, _, u, harg, hcheck, rfl⟩ := hs
    obtain ⟨_, _, u', harg', hcheck', rfl⟩ := ht
    rw [harg] at harg'
    obtain ⟨rfl, rfl⟩ := List.cons.inj harg'
    rw [hcheck] at hcheck'
    rw [Except.ok.inj hcheck']
  | rollback arg =>
    obtain ⟨_, _, harg, hfound⟩ := hs
    obtain ⟨_, _, harg', hfound'⟩ := ht
    rw [harg] at harg'
    obtain ⟨rfl, rfl⟩ := List.cons.inj harg'
    exact Option.some.inj (hfound.symm.trans hfound')
  | remove arg | pin arg pinned => exact Option.some.inj (hs.symm.trans ht)
  | gc arg => exact absurd rfl (hgc arg)
  | run arg | verify arg | query => exact hs.elim
  | recover =>
    cases hs with
    | named hdecode =>
      cases ht with
      | named hdecode' =>
        rw [hdecode] at hdecode'
        rw [JournalState.valid.inj hdecode']
      | pending hdecode' => exact absurd hdecode' (hjournal rfl _)
    | pending hdecode => exact absurd hdecode (hjournal rfl _)
  | store =>
    cases hs with
    | named hdecode =>
      cases ht with
      | named hdecode' =>
        rw [hdecode] at hdecode'
        rw [JournalState.valid.inj hdecode']
      | pending _ hmanual => cases hmanual
    | pending _ hmanual => cases hmanual
  | fault arg =>
    obtain ⟨fault, hfault, hs⟩ := hs
    obtain ⟨fault', hfault', ht⟩ := ht
    obtain rfl := Option.some.inj (hfault.symm.trans hfault')
    cases fault with
    | installAfterBlob | corruptJournal => exact hs.elim
    | installPendingRegistry => exact hs.symm.trans ht
    | removePending => exact Option.some.inj (hs.symm.trans ht)

theorem clearRegistrySlot_of_outside (hi : i < entryOff slot ∨ entryOff slot + entrySize ≤ i) :
    clearRegistrySlot reg slot i = reg i := copy_of_outside (by omega)

theorem foldl_clear_of_notMem {l : List ℕ} (ht : t ∉ l) (hi : i < entrySize) :
    l.foldl clearRegistrySlot reg (entryOff t + i) = reg (entryOff t + i) := by
  induction l generalizing reg with
  | nil => rfl
  | cons slot rest ih =>
    rw [List.mem_cons, not_or] at ht
    rw [List.foldl_cons, ih ht.2, clearRegistrySlot_of_outside (entryOff_ne ht.1 hi)]

theorem undone_of_outside {r : JournalRecord} (h : Undone reg r reg')
    (hi : i < entryOff r.slot ∨ entryOff r.slot + entrySize ≤ i) : reg' i = reg i := by
  rcases h with rfl | ⟨state, -, rfl⟩
  · unfold rollbackSlotToOldState
    split_ifs
    · exact clearRegistrySlot_of_outside hi
    · exact setEntryState_of_outside hi
  · exact setEntryState_of_outside hi

theorem setEntryFlags_of_outside {flags : ℕ}
    (hi : i < entryOff slot ∨ entryOff slot + entrySize ≤ i) :
    setEntryFlags reg slot flags i = reg i := by
  unfold entrySize at hi
  exact putU32_of_outside (by omega)

theorem quarantine_of_outside (ht : ¬ (entryState reg t = statePendingInstall ∨
      entryState reg t = statePendingRemove)) (hi : i < entrySize) :
    quarantinePendingSlots reg (entryOff t + i) = reg (entryOff t + i) := by
  rw [quarantinePendingSlots_apply, if_neg ?_]
  rintro ⟨hmod, -, hpending⟩
  have hzero : i = 0 := by
    unfold entryOff at hmod
    unfold entrySize at hi hmod
    omega
  rw [hzero] at hpending
  exact ht hpending

theorem recoveryRegistry_of_outside {manual : Bool} (h : RecoveryRegistry reg journal manual reg')
    (ht : t < maxPkgs) (hout : ¬ RecoverySlot reg journal manual t) (hi : i < entrySize) :
    reg' (entryOff t + i) = reg (entryOff t + i) := by
  cases h with
  | undone hdecode hreg =>
    refine undone_of_outside hreg (entryOff_ne ?_ hi)
    rintro rfl
    exact hout (.named hdecode)
  | quarantined hdecode hmanual =>
    exact quarantine_of_outside (fun hstate => hout (.pending hdecode hmanual ht hstate)) hi

theorem registries_of_outside (h : registries reg journal c reg') (ht : t < maxPkgs)
    (hout : ¬ slots reg journal c t) (hi : i < entrySize) :
    reg' (entryOff t + i) = reg (entryOff t + i) := by
  cases c with
  | recv raw =>
    obtain ⟨p, hcheck, state, -, rfl⟩ := h
    have ha := recvChecks_ok hcheck
    refine encodeRegistryEntry_of_outside ha.name ha.version (entryOff_ne ?_ hi)
    rintro rfl
    exact hout ⟨p, hcheck, rfl⟩
  | update arg raw =>
    obtain ⟨target, options, u, harg, hcheck, state, -, rfl⟩ := h
    refine UpdateRecovery.registryWith_of_outside (UpdateRecovery.updateChecks_ok hcheck)
      (entryOff_ne ?_ hi)
    rintro rfl
    exact hout ⟨target, options, u, harg, hcheck, rfl⟩
  | rollback arg =>
    obtain ⟨name, options, slot, harg, hfound, state, -, rfl⟩ := h
    have hname : name.length ≤ nameMax := by
      rw [← (findRegistrySlot_some hfound).2.2]
      exact entryText_length
    refine restoredRegistry_of_outside hname (entryOff_ne ?_ hi)
    rintro rfl
    exact hout ⟨name, options, harg, hfound⟩
  | remove arg =>
    obtain ⟨slot, hfound, state, -, rfl⟩ := h
    refine setEntryState_of_outside (entryOff_ne ?_ hi)
    rintro rfl
    exact hout hfound
  | pin arg pinned =>
    obtain ⟨slot, hfound, rfl⟩ := h
    refine setEntryFlags_of_outside (entryOff_ne ?_ hi)
    rintro rfl
    exact hout hfound
  | gc arg =>
    obtain rfl := h
    exact foldl_clear_of_notMem hout hi
  | run arg | verify arg | query => exact h.elim
  | recover | store => exact recoveryRegistry_of_outside h ht hout hi
  | fault arg =>
    obtain ⟨fault, hfault, hreg⟩ := h
    cases fault with
    | installAfterBlob | corruptJournal => exact hreg.elim
    | installPendingRegistry =>
      obtain rfl := hreg
      refine encodeRegistryEntry_of_outside (by decide) (by decide) (entryOff_ne ?_ hi)
      rintro rfl
      exact hout ⟨_, hfault, rfl⟩
    | removePending =>
      obtain ⟨slot, hfound, rfl⟩ := hreg
      refine setEntryState_of_outside (entryOff_ne ?_ hi)
      rintro rfl
      exact hout ⟨_, hfault, hfound⟩

section
variable {k k' : Kernel} {d d' : Disk Sector}

def commonArea : Set ℕ := {pkgStoreMarkerSector} ∪ registryArea ∪ journalArea

/-- Slots other than those acted on keep their entries and areas, and nothing outside the
store changes. -/
structure Framed (d d' : Disk Sector) (acting : ℕ → Prop) : Prop where
  entries : ∀ t < maxPkgs, ¬ acting t → EntryKept d d' t
  areas : ∀ t < maxPkgs, ¬ acting t → ∀ role, ∀ x ∈ blobArea role t, d' x = d x
  cairn : ∀ x ∈ cairnArea, d' x = d x

theorem mem_of_effect {R : Bytes → Prop} {S : ℕ → Prop} {b : Sector} (h : Effect R S x b) :
    x ∈ commonArea ∨ ∃ slot, S slot ∧ ∃ role, x ∈ blobArea role slot := by
  cases h with
  | marker => exact .inl (.inl (.inl rfl))
  | journal hj => exact .inl (.inr ⟨Nat.le_add_right _ _, Nat.add_lt_add_left hj _⟩)
  | blob role hs hj => exact .inr ⟨_, hs, role, Nat.le_add_right _ _, Nat.add_lt_add_left hj _⟩
  | registry _ hj => exact .inl (.inl (.inr ⟨Nat.le_add_right _ _, Nat.add_lt_add_left hj _⟩))

theorem commonArea_lt (h : x ∈ commonArea) : 24 ≤ x ∧ x < 64 := by
  rcases h with (rfl | ⟨h1, h2⟩) | ⟨h1, h2⟩
  · unfold pkgStoreMarkerSector
    omega
  · unfold registrySector registrySectors at *
    omega
  · unfold journalSector journalSectors at *
    omega

theorem framed_of_changed (h : ∀ x, d' x = d x ∨ Effect (registries (registryOf d) (journalOf d) c)
      (slots (registryOf d) (journalOf d) c) x (d' x)) :
    Framed d d' (slots (registryOf d) (journalOf d) c) := by
  refine ⟨fun t ht hout => ?_, fun t ht hout role x hx => ?_, fun x hx => ?_⟩
  · obtain ⟨reg, hreg, hentry⟩ := entry_of_effect h ht
    intro i hi
    rw [hentry i hi]
    rcases hreg with rfl | hreg
    · rfl
    · exact registries_of_outside hreg ht hout hi
  · refine (h x).resolve_right fun heffect => ?_
    have hbounds := blobArea_bounds ht hx
    rcases mem_of_effect heffect with hcommon | ⟨slot, hslot, role', hx'⟩
    · have hlt := commonArea_lt hcommon
      omega
    · have hne : (role, t) ≠ (role', slot) := by
        intro heq
        obtain ⟨rfl, rfl⟩ := Prod.mk.inj heq
        exact hout hslot
      exact Set.disjoint_left.mp (blobArea_disjoint ht (slots_lt hslot) hne) hx hx'
  · refine (h x).resolve_right fun heffect => ?_
    rcases mem_of_effect heffect with hcommon | ⟨slot, hslot, role, hx'⟩
    · have hlt := commonArea_lt hcommon
      rcases hx with h3 | h3 | ⟨h3, -⟩
      · unfold cairnCurrentSector at h3
        omega
      · unfold cairnPreviousSector at h3
        omega
      · unfold superSector at h3
        omega
    · exact Set.disjoint_left.mp (blobArea_disjoint_others (slots_lt hslot)).2.2 hx' hx

/-- The areas of all slots are disjoint from each other and from everything else. -/
def AreasDisjoint : Prop :=
  ∀ role, ∀ slot < maxPkgs,
    (∀ role', ∀ slot' < maxPkgs, (role, slot) ≠ (role', slot') →
      Disjoint (blobArea role slot) (blobArea role' slot')) ∧
    Disjoint (blobArea role slot) registryArea ∧ Disjoint (blobArea role slot) journalArea ∧
    Disjoint (blobArea role slot) cairnArea

/-- The frame of a command on an opened store, at every failure point. -/
theorem package_store_frame (h : Opened k d) (c : Command) :
    (c.program k).Emits .all (fun x _ => x ∈ commonArea ∨
      ∃ slot, slots (registryOf d) (journalOf d) c slot ∧ ∃ role, x ∈ blobArea role slot) d ∧
    (∀ k' d', (c.program k).Exec .all d k' d' →
      Framed d d' (slots (registryOf d) (journalOf d) c)) ∧
    (∀ n, Framed d (crashAfter n (c.program k) d) (slots (registryOf d) (journalOf d) c)) ∧
    ((∀ arg, c ≠ .gc arg) → (c = .recover → ∀ fault, decodeJournal (journalOf d) ≠ .corrupt fault) →
      ∀ slot t, slots (registryOf d) (journalOf d) c slot →
        slots (registryOf d) (journalOf d) c t → slot = t) ∧
    (∀ arg slot, slots (registryOf d) (journalOf d) (.gc arg) slot →
      entryState (registryOf d) slot = stateRemoved) ∧
    AreasDisjoint := by
  have hemits := emits_program (K := .all) h c
  refine ⟨hemits.mono fun x b heffect => mem_of_effect heffect, fun k' d' he => ?_, fun n => ?_,
    fun hgc hjournal slot t => slots_unique hgc hjournal, fun arg slot hs => ?_,
    fun role slot hs => ⟨fun role' slot' hs' => blobArea_disjoint hs hs', blobArea_disjoint_others hs⟩⟩
  · exact framed_of_changed fun x => hemits.changed he x
  · exact framed_of_changed fun x => hemits.crashAfter n x
  · exact (mem_removedSlots.mp hs).2

theorem package_store_frame_demo :
    Opened (reboot demoDisk).1.2 demoDisk ∧
    slots (registryOf demoDisk) (journalOf demoDisk) (.remove (ascii "demo")) 0 ∧
    ∀ n, Framed demoDisk (crashAfter n (Command.program (reboot demoDisk).1.2 (.remove (ascii "demo")))
      demoDisk) (slots (registryOf demoDisk) (journalOf demoDisk) (.remove (ascii "demo"))) := by
  have hopen := (reboot_atRest atRest_demoDisk).2.2
  have hslot : findRegistrySlot (registryOf demoDisk) (trim (ascii "demo")) = some 0 := by
    rw [registryOf_demoDisk]
    decide +kernel
  exact ⟨hopen, hslot, (package_store_frame hopen (.remove (ascii "demo"))).2.2.1⟩

end

end Dezh.StoreFrame

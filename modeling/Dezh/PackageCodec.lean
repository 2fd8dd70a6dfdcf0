import Dezh.PackageStore

/-!
# The records of the package store

A journal record whose fields fit their widths is read back from the bytes it was
written as. It ends before offset 100, so it fits into the first of the eight
journal sectors. A registry entry occupies its own 128 bytes, and the fields of an
entry just encoded are the values it was encoded from.
-/
namespace Dezh.PackageCodec
open ByteLayout CairnFormat PackageFormat PackageStore

variable {state' : UInt8}

section
variable {r : JournalRecord} {i : ℕ}

/-- The fields are in the range of their types. -/
structure Encodable (r : JournalRecord) : Prop where
  slot : r.slot < maxPkgs
  mcaps : r.mcaps < 2 ^ 32
  rawLen : r.rawLen < 2 ^ 32
  rawCrc : r.rawCrc < 2 ^ 32
  blobStart : r.blobStart < 2 ^ 32
  blobCount : r.blobCount < 2 ^ 32
  registryBeforeCrc : r.registryBeforeCrc < 2 ^ 32
  registryAfterCrc : r.registryAfterCrc < 2 ^ 32
  name : r.name.length ≤ nameMax
  version : r.version.length ≤ verMax

theorem encodeFields_of_le (h : Encodable r) (hi : 100 ≤ i) : encodeFields r i = 0 := by
  have hn : r.name.length ≤ 24 := h.name
  have hv : r.version.length ≤ 12 := h.version
  simp (disch := omega) only [encodeFields, copy_of_outside, putU8_of_ne, putU32_of_outside]

theorem encodeFields_crc (h : Encodable r) (hi : 52 ≤ i) (hi' : i < 56) : encodeFields r i = 0 := by
  have hn : r.name.length ≤ 24 := h.name
  have hv : r.version.length ≤ 12 := h.version
  simp (disch := omega) only [encodeFields, copy_of_outside, putU8_of_ne, putU32_of_outside]

theorem encodeJournal_of_ne (hi : i < 52 ∨ 56 ≤ i) : encodeJournal r i = encodeFields r i :=
  putU32_of_outside hi

section
variable (h : Encodable r)
include h

theorem decodeRecord_encodeJournal : decodeRecord (encodeJournal r) = r := by
  have hn : r.name.length ≤ 24 := h.name
  have hv : r.version.length ≤ 12 := h.version
  have hslot : r.slot < 8 := h.slot
  have hnameLen : encodeJournal r 56 = UInt8.ofNat r.name.length := by
    simp (disch := omega) only [encodeJournal, offJournalCrc, encodeFields, copy_of_outside,
      putU8_of_ne, putU8_self, putU32_of_outside]
  have hversionLen : encodeJournal r 57 = UInt8.ofNat r.version.length := by
    simp (disch := omega) only [encodeJournal, offJournalCrc, encodeFields, copy_of_outside,
      putU8_self, putU32_of_outside]
  have hname : toList (encodeJournal r) 64 r.name.length = r.name := by
    simp (disch := omega) only [encodeJournal, offJournalCrc, encodeFields,
      toList_putU32_of_disjoint, toList_copy_of_disjoint, toList_copy_self]
  have hversion : toList (encodeJournal r) 88 r.version.length = r.version := by
    simp (disch := omega) only [encodeJournal, offJournalCrc, encodeFields,
      toList_putU32_of_disjoint, toList_copy_self]
  have hname' : (UInt8.ofNat r.name.length).toNat = r.name.length := by
    rw [UInt8.toNat_ofNat']
    omega
  have hversion' : (UInt8.ofNat r.version.length).toNat = r.version.length := by
    rw [UInt8.toNat_ofNat']
    omega
  simp only [decodeRecord, hnameLen, hversionLen, hname', hversion', hname, hversion]
  simp (disch := omega) only [encodeJournal, offJournalCrc, encodeFields, u32At_copy_of_disjoint,
    u32At_putU8_of_disjoint, u32At_putU32_of_disjoint, u32At_putU32_self, copy_of_outside,
    putU8_of_ne, putU8_self, putU32_of_outside]
  simp only [Nat.mod_eq_of_lt h.mcaps, Nat.mod_eq_of_lt h.rawLen, Nat.mod_eq_of_lt h.rawCrc,
    Nat.mod_eq_of_lt h.blobStart, Nat.mod_eq_of_lt h.blobCount,
    Nat.mod_eq_of_lt h.registryBeforeCrc, Nat.mod_eq_of_lt h.registryAfterCrc,
    Nat.mod_eq_of_lt (show r.slot < 2 ^ 32 by omega)]

theorem encodeJournal_magic : toList (encodeJournal r) 0 4 = journalMagic := by
  have hn : r.name.length ≤ 24 := h.name
  have hmagic : (4 : ℕ) = journalMagic.length := by decide
  simp (disch := omega) only [encodeJournal, offJournalCrc, encodeFields, toList_copy_of_disjoint,
    toList_putU8_of_disjoint, toList_putU32_of_disjoint]
  rw [hmagic, toList_copy_self]

theorem encodeJournal_version : encodeJournal r 4 = journalVersion := by
  have hn : r.name.length ≤ 24 := h.name
  simp (disch := omega) only [encodeJournal, offJournalCrc, encodeFields, copy_of_outside,
    putU8_of_ne, putU8_self, putU32_of_outside]

theorem encodeJournal_zeroed : putU32 (encodeJournal r) offJournalCrc 0 = encodeFields r := by
  funext i
  by_cases hi : 52 ≤ i ∧ i < 56
  · obtain ⟨k, hk, rfl⟩ : ∃ k < 4, i = 52 + k := ⟨i - 52, by omega, by omega⟩
    rw [encodeFields_crc h hi.1 hi.2, putU32, offJournalCrc, putLe_inside hk, Nat.zero_shiftRight]
    rfl
  · rw [putU32_of_outside (by unfold offJournalCrc; omega), encodeJournal_of_ne (by omega)]

theorem decode_encodeJournal : decodeJournal (encodeJournal r) = .valid r := by
  have hnonzero : (toList (encodeJournal r) 0 journalSize).all (· == 0) = false := by
    rw [List.all_eq_false]
    refine ⟨encodeJournal r 4, ?_, ?_⟩
    · exact List.mem_map.mpr ⟨4, List.mem_range.mpr (by decide), rfl⟩
    · rw [encodeJournal_version h]
      decide
  have hcrc : u32At (encodeJournal r) offJournalCrc =
      checksum (toList (encodeFields r) 0 journalSize) := by
    rw [encodeJournal, u32At_putU32_self]
    exact Nat.mod_eq_of_lt (UInt32.toNat_lt _)
  have hrecord := decodeRecord_encodeJournal h
  have hslot : u32At (encodeJournal r) 12 = r.slot := congrArg JournalRecord.slot hrecord
  have hname : (encodeJournal r 56).toNat = r.name.length := by
    have := congrArg (fun r => r.name.length) hrecord
    simpa [decodeRecord] using this
  have hversion : (encodeJournal r 57).toNat = r.version.length := by
    have := congrArg (fun r => r.version.length) hrecord
    simpa [decodeRecord] using this
  have hrange : ¬ (maxPkgs ≤ r.slot ∨ nameMax < r.name.length ∨ verMax < r.version.length) := by
    have := h.slot
    have := h.name
    have := h.version
    omega
  simp only [decodeJournal, hnonzero, encodeJournal_magic h, encodeJournal_version h,
    encodeJournal_zeroed h, hcrc, hslot, hname, hversion, hrange, hrecord, ne_eq, not_true_eq_false,
    if_false, Bool.false_eq_true]

end

theorem decodeJournal_zero : decodeJournal (fun _ => 0) = .empty := by
  unfold decodeJournal
  rw [if_pos (by simp [toList])]

end

section
variable {reg : Bytes} {slot i : ℕ} {state : UInt8} {name version : Text}
  {kind mcaps rawLen rawCrc : ℕ}

theorem setEntryState_of_ne (h : i ≠ entryOff slot) : setEntryState reg slot state i = reg i :=
  putU8_of_ne h

@[simp] theorem entryState_setEntryState : entryState (setEntryState reg slot state) slot = state :=
  putU8_self

theorem entryOff_lt (hs : slot < maxPkgs) : entryOff slot + entrySize ≤ registrySize := by
  unfold maxPkgs at hs
  unfold entryOff entrySize registrySize registrySectors sectorSize
  omega

theorem entryState_setEntryState_of_ne {slot' : ℕ} (h : slot' ≠ slot) :
    entryState (setEntryState reg slot state) slot' = entryState reg slot' := by
  refine setEntryState_of_ne ?_
  unfold entryOff entrySize
  omega

theorem setEntryState_setEntryState :
    setEntryState (setEntryState reg slot state) slot state' = setEntryState reg slot state' := by
  funext i
  by_cases hi : i = entryOff slot
  · subst hi
    exact putU8_self.trans putU8_self.symm
  · rw [setEntryState_of_ne hi, setEntryState_of_ne hi, setEntryState_of_ne hi]

theorem setEntryState_of_outside (hi : i < entryOff slot ∨ entryOff slot + entrySize ≤ i) :
    setEntryState reg slot state i = reg i := by
  refine setEntryState_of_ne ?_
  unfold entrySize at hi
  omega

theorem setEntryState_self (h : entryState reg slot = state) :
    setEntryState reg slot state = reg := by
  funext i
  by_cases hi : i = entryOff slot
  · subst hi
    rw [setEntryState, putU8_self]
    exact h.symm
  · exact setEntryState_of_ne hi

theorem clearRegistrySlot_self (h : ∀ i < entrySize, reg (entryOff slot + i) = 0) :
    clearRegistrySlot reg slot = reg := by
  funext i
  by_cases hi : entryOff slot ≤ i ∧ i < entryOff slot + entrySize
  · obtain ⟨k, hk, rfl⟩ : ∃ k < entrySize, i = entryOff slot + k :=
      ⟨i - entryOff slot, by omega, by omega⟩
    rw [clearRegistrySlot, copy_inside hk, h k hk]
  · exact copy_of_outside (by omega)

theorem encodeRegistryEntry_of_outside (hn : name.length ≤ nameMax)
    (hv : version.length ≤ verMax) (hi : i < entryOff slot ∨ entryOff slot + entrySize ≤ i) :
    encodeRegistryEntry reg slot state name version kind mcaps rawLen rawCrc i = reg i := by
  unfold nameMax at hn
  unfold verMax at hv
  unfold entrySize at hi
  simp (disch := omega) only [encodeRegistryEntry, clearRegistrySlot, entrySize, nameMax,
    copy_of_outside, putU8_of_ne, putU32_of_outside, putU16, putLe_of_outside]

theorem entryState_encode :
    entryState (encodeRegistryEntry reg slot state name version kind mcaps rawLen rawCrc) slot =
      state := by
  simp (disch := omega) only [entryState, encodeRegistryEntry, nameMax,
    copy_of_outside, putU8_of_ne, putU8_self, putU32_of_outside, putU16, putLe_of_outside]

theorem encodeRegistryEntry_congr (hi : i ≠ entryOff slot) :
    encodeRegistryEntry reg slot state name version kind mcaps rawLen rawCrc i =
      encodeRegistryEntry reg slot state' name version kind mcaps rawLen rawCrc i := by
  simp only [encodeRegistryEntry, copy, putU16, putU32, putLe, putU8, hi, if_false]

theorem setEntryState_encode :
    setEntryState (encodeRegistryEntry reg slot state name version kind mcaps rawLen rawCrc) slot
      state' = encodeRegistryEntry reg slot state' name version kind mcaps rawLen rawCrc := by
  funext i
  by_cases hi : i = entryOff slot
  · subst hi
    exact putU8_self.trans entryState_encode.symm
  · rw [setEntryState_of_ne hi, encodeRegistryEntry_congr hi]

theorem entryMagic_encode :
    toList (encodeRegistryEntry reg slot state name version kind mcaps rawLen rawCrc)
      (entryOff slot + 1) 4 = regMagic := by
  have hmagic : (4 : ℕ) = regMagic.length := by decide
  simp (disch := omega) only [encodeRegistryEntry, nameMax, toList_copy_of_disjoint,
    toList_putU8_of_disjoint, toList_putU32_of_disjoint, putU16, toList_putLe_of_disjoint]
  rw [hmagic, toList_copy_self]

theorem entryFields_encode (hm : mcaps < 2 ^ 32) (hl : rawLen < 2 ^ 32) (hc : rawCrc < 2 ^ 32) :
    let e := encodeRegistryEntry reg slot state name version kind mcaps rawLen rawCrc
    u32At e (entryOff slot + 8) = mcaps ∧ u32At e (entryOff slot + 12) = rawLen ∧
      u32At e (entryOff slot + 16) = rawCrc := by
  simp (disch := omega) only [encodeRegistryEntry, nameMax, u32At_copy_of_disjoint,
    u32At_putU8_of_disjoint, u32At_putU32_of_disjoint, u32At_putU32_self]
  exact ⟨Nat.mod_eq_of_lt hm, Nat.mod_eq_of_lt hl, Nat.mod_eq_of_lt hc⟩

theorem entryText_of_stored {i off limit : ℕ} (hlim : limit < 256) (hl : name.length ≤ limit)
    (hu : isUtf8 name = true) (hlen : reg i = UInt8.ofNat name.length)
    (h : toList reg off name.length = name) : entryText reg (reg i).toNat off limit = name := by
  rw [hlen, UInt8.toNat_ofNat', Nat.mod_eq_of_lt (hl.trans_lt hlim)]
  unfold entryText
  split_ifs with h1 h2
  · have hnil : name.length = 0 := by omega
    exact (List.eq_nil_of_length_eq_zero hnil).symm
  · exact h
  · rw [h] at h2
    exact absurd hu h2

theorem entryName_encode (hn : name.length ≤ nameMax) (hu : isUtf8 name = true) :
    entryName (encodeRegistryEntry reg slot state name version kind mcaps rawLen rawCrc) slot =
      name := by
  have hlen : encodeRegistryEntry reg slot state name version kind mcaps rawLen rawCrc
      (entryOff slot + 32) = UInt8.ofNat name.length := by
    simp (disch := omega) only [encodeRegistryEntry, nameMax, copy_of_outside, putU8_of_ne,
      putU8_self]
  have hname : toList (encodeRegistryEntry reg slot state name version kind mcaps rawLen rawCrc)
      (entryOff slot + 40) name.length = name := by
    unfold nameMax at hn
    simp (disch := omega) only [encodeRegistryEntry, nameMax, toList_copy_of_disjoint,
      toList_copy_self]
  exact entryText_of_stored (by decide) hn hu hlen hname

theorem entryVersion_encode (hv : version.length ≤ verMax) (hu : isUtf8 version = true) :
    entryVersion (encodeRegistryEntry reg slot state name version kind mcaps rawLen rawCrc) slot =
      version := by
  have hlen : encodeRegistryEntry reg slot state name version kind mcaps rawLen rawCrc
      (entryOff slot + 33) = UInt8.ofNat version.length := by
    simp (disch := omega) only [encodeRegistryEntry, nameMax, copy_of_outside, putU8_self]
  have hversion : toList (encodeRegistryEntry reg slot state name version kind mcaps rawLen rawCrc)
      (entryOff slot + 40 + nameMax) version.length = version := toList_copy_self
  exact entryText_of_stored (by decide) hv hu hlen hversion

end

end Dezh.PackageCodec

import Dezh.PackageCodec
import Dezh.PackageCommands

/-!
# Entries with a checkpoint

The second half of a registry entry describes the previous package. It is written
behind the fields of the current package and does not disturb them, so the fields of
an updated entry are the values it was encoded from, on either side.
-/
namespace Dezh.CheckpointCodec
open ByteLayout PackageFormat PackageStore PackageCommands

variable {len off limit : ℕ}

section
variable {b : Bytes} {o p n v width : ℕ}

theorem u16At_putU16_self : u16At (putU16 b o v) o = v % 2 ^ 16 := by
  have h0 : putLe 2 b o v (o + 0) = UInt8.ofNat (v >>> (8 * 0)) := putLe_inside (by omega)
  rw [Nat.add_zero] at h0
  simp only [u16At, putU16, h0, putLe_inside (show 1 < 2 by omega), UInt8.toNat_ofNat',
    Nat.shiftRight_eq_div_pow]
  omega

theorem u16At_putLe_of_disjoint (h : p + 2 ≤ o ∨ o + width ≤ p) :
    u16At (putLe width b o v) p = u16At b p :=
  u16At_congr fun _ _ _ => putLe_of_outside (by omega)

theorem u16At_putU32_of_disjoint (h : p + 2 ≤ o ∨ o + 4 ≤ p) :
    u16At (putU32 b o v) p = u16At b p := u16At_putLe_of_disjoint h

theorem u16At_putU8_of_disjoint {x : UInt8} (h : p + 2 ≤ o ∨ o < p) :
    u16At (putU8 b o x) p = u16At b p :=
  u16At_congr fun _ _ _ => putU8_of_ne (by omega)

theorem u16At_copy_of_disjoint {src : Bytes} (h : p + 2 ≤ o ∨ o + n ≤ p) :
    u16At (copy b o src n) p = u16At b p :=
  u16At_congr fun _ _ _ => copy_of_outside (by omega)

theorem u16At_lt (b : Bytes) (o : ℕ) : u16At b o < 2 ^ 16 := by
  have h0 := (b o).toNat_lt
  have h1 := (b (o + 1)).toNat_lt
  unfold u16At
  omega

end

section
variable {reg : Bytes} {slot i : ℕ} {state : UInt8} {name version : Text}
  {kind mcaps rawLen rawCrc : ℕ}

theorem entryKind_encode :
    entryKind (encodeRegistryEntry reg slot state name version kind mcaps rawLen rawCrc) slot =
      kind % 2 ^ 16 := by
  simp (disch := omega) only [entryKind, encodeRegistryEntry, nameMax, u16At_copy_of_disjoint,
    u16At_putU8_of_disjoint, u16At_putU32_of_disjoint, u16At_putU16_self]

theorem entryFlags_encode :
    entryFlags (encodeRegistryEntry reg slot state name version kind mcaps rawLen rawCrc) slot = 0 := by
  have hclear : u32At (clearRegistrySlot reg slot) (entryOff slot + 28) = 0 := by
    have hzero {j : ℕ} (hj : j < entrySize) : clearRegistrySlot reg slot (entryOff slot + j) = 0 :=
      copy_inside hj
    simp only [u32At, Nat.add_assoc, hzero (show 28 < entrySize by decide),
      hzero (show 28 + 1 < entrySize by decide), hzero (show 28 + 2 < entrySize by decide),
      hzero (show 28 + 3 < entrySize by decide)]
    rfl
  simp (disch := omega) only [entryFlags, encodeRegistryEntry, nameMax, u32At_copy_of_disjoint,
    u32At_putU8_of_disjoint, u32At_putU32_of_disjoint, putU16, u32At_putLe_of_disjoint]
  exact hclear

theorem encodePreviousMetadata_of_outside (hv : version.length ≤ verMax)
    (hi : i < entryOff slot + 28 ∨ entryOff slot + 32 ≤ i ∧ i < entryOff slot + 80 ∨
      entryOff slot + 116 ≤ i) :
    encodePreviousMetadata reg slot version kind mcaps rawLen rawCrc i = reg i := by
  unfold verMax at hv
  simp (disch := omega) only [encodePreviousMetadata, setEntryFlags, verMax, copy_of_outside,
    putU8_of_ne, putU32_of_outside, putU16, putLe_of_outside]

theorem encodePreviousMetadata_congr {reg' : Bytes}
    (hf : entryFlags reg slot = entryFlags reg' slot) (h : reg i = reg' i) :
    encodePreviousMetadata reg slot version kind mcaps rawLen rawCrc i =
      encodePreviousMetadata reg' slot version kind mcaps rawLen rawCrc i := by
  simp only [encodePreviousMetadata, setEntryFlags, copy, putU16, putU32, putLe, putU8, hf, h]

theorem entryOff_ne {slot' : ℕ} (h : slot' ≠ slot) (hi : i < entrySize) :
    entryOff slot' + i < entryOff slot ∨ entryOff slot + entrySize ≤ entryOff slot' + i := by
  unfold entryOff
  unfold entrySize at hi ⊢
  omega

end

section
variable {reg reg' : Bytes} {slot : ℕ}

theorem entryText_congr (h : ∀ i < limit, reg' (off + i) = reg (off + i)) :
    entryText reg' len off limit = entryText reg len off limit := by
  unfold entryText
  by_cases hlen : len = 0 ∨ limit < len
  · rw [if_pos hlen, if_pos hlen]
  · have hbytes : toList reg' off len = toList reg off len :=
      toList_congr fun i hi => h i (by omega)
    rw [hbytes]

theorem entryText_length : (entryText reg len off limit).length ≤ limit := by
  unfold entryText
  split_ifs with hlen hutf8
  · exact Nat.zero_le _
  · rw [length_toList]
    omega
  · exact Nat.zero_le _

theorem isUtf8_entryText : isUtf8 (entryText reg len off limit) = true := by
  unfold entryText
  split_ifs with hlen hutf8
  · rfl
  · exact hutf8
  · rfl

/-- The fields of the current package agree. Flags and checkpoint may differ. -/
def SameHead (reg reg' : Bytes) (slot : ℕ) : Prop :=
  ∀ i < 80, i < 28 ∨ 32 ≤ i → reg' (entryOff slot + i) = reg (entryOff slot + i)

namespace SameHead

section
variable (h : SameHead reg reg' slot)
include h

theorem state : entryState reg' slot = entryState reg slot :=
  h 0 (by omega) (by omega)

theorem magic : toList reg' (entryOff slot + 1) 4 = toList reg (entryOff slot + 1) 4 := by
  refine toList_congr fun i hi => ?_
  rw [Nat.add_assoc]
  exact h _ (by omega) (by omega)

theorem field {o : ℕ} (ho : o + 4 ≤ 28) :
    u32At reg' (entryOff slot + o) = u32At reg (entryOff slot + o) :=
  u32At_congr_add fun j h1 h2 => h j (by omega) (by omega)

theorem kind : entryKind reg' slot = entryKind reg slot := by
  refine u16At_congr fun i h1 h2 => ?_
  obtain ⟨j, rfl⟩ : ∃ j, i = entryOff slot + j := ⟨i - entryOff slot, by omega⟩
  exact h j (by omega) (by omega)

theorem name : entryName reg' slot = entryName reg slot := by
  rw [entryName, h 32 (by omega) (by omega), entryName]
  refine entryText_congr fun i hi => ?_
  unfold nameMax at hi
  rw [Nat.add_assoc]
  exact h _ (by omega) (by omega)

theorem version : entryVersion reg' slot = entryVersion reg slot := by
  rw [entryVersion, h 33 (by omega) (by omega), entryVersion]
  refine entryText_congr fun i hi => ?_
  unfold verMax at hi
  unfold nameMax
  rw [Nat.add_assoc, Nat.add_assoc]
  exact h _ (by omega) (by omega)

end

end SameHead

theorem sameHead_encodePreviousMetadata {version : Text} {kind mcaps rawLen rawCrc : ℕ}
    (hv : version.length ≤ verMax) :
    SameHead reg (encodePreviousMetadata reg slot version kind mcaps rawLen rawCrc) slot :=
  fun _ _ _ => encodePreviousMetadata_of_outside hv (by omega)

end

section
variable {reg : Bytes} {slot : ℕ} {version : Text} {kind mcaps rawLen rawCrc : ℕ}

theorem previousFields_encode (hm : mcaps < 2 ^ 32) (hl : rawLen < 2 ^ 32) (hc : rawCrc < 2 ^ 32)
    (hk : kind < 2 ^ 16) :
    let e := encodePreviousMetadata reg slot version kind mcaps rawLen rawCrc
    previousKind e slot = kind ∧ previousMcaps e slot = mcaps ∧ previousRawLen e slot = rawLen ∧
      previousRawCrc e slot = rawCrc := by
  simp (disch := omega) only [previousKind, previousMcaps, previousRawLen, previousRawCrc,
    encodePreviousMetadata, u32At_copy_of_disjoint, u32At_putU32_of_disjoint, u32At_putU32_self,
    u16At_copy_of_disjoint, u16At_putU32_of_disjoint, u16At_putU16_self]
  exact ⟨Nat.mod_eq_of_lt hk, Nat.mod_eq_of_lt hm, Nat.mod_eq_of_lt hl, Nat.mod_eq_of_lt hc⟩

end

section
variable {reg : Bytes} {target : Text} {slot : ℕ}

theorem findRegistrySlot_some (h : findRegistrySlot reg target = some slot) :
    slot < maxPkgs ∧ entryState reg slot ≠ stateEmpty ∧ entryName reg slot = target := by
  have hmem := List.mem_range.mp (List.mem_of_find?_eq_some h)
  have hfound := List.find?_some h
  simp only [Bool.and_eq_true, bne_iff_ne, ne_eq, beq_iff_eq] at hfound
  exact ⟨hmem, hfound⟩

end

end Dezh.CheckpointCodec

import Dezh.CairnOutcomes

/-!
# The two encoders of commit records

A commit goes through the shared header encoder. The compensations that a rollback
appends are laid out by hand, field by field, over a buffer that is zeroed first.
Both give the same sector, and the shared decoder reads back every field of it.
-/
namespace Dezh.RecordEncoders
open ByteLayout CairnFormat CairnService SfarService CairnStore CairnOutcomes

/-- The fields are in the range of their types. -/
structure Fits (h : CommitHeader) : Prop where
  slot : h.slot < 2 ^ 32
  parent : h.parent < 2 ^ 32
  ns : h.ns < 2 ^ 32
  hash : h.hash < 2 ^ 64
  actor : h.actor < 2 ^ 32
  flags : h.flags < 2 ^ 32
  len : h.len < 2 ^ 32
  intent : h.intent < 2 ^ 32
  derived : h.derived < 2 ^ 32
  generation : h.generation < 2 ^ 16

section
variable {h : CommitHeader} {b : Bytes}

theorem encode_of_le {i : ℕ} (hi : valueOff ≤ i) : h.encode b i = b i := by
  have hi' : 64 ≤ i := hi
  have hmagic := length_commitMagic
  simp (disch := omega) only [CommitHeader.encode, offSlot, offParent, offNs, offHash, offActor,
    offFlags, offLen, offIntent, offDerived, offRevclass, offStatus, offGen, copy_of_outside,
    putU8_of_ne, putU32_of_outside]

theorem header_encode_of_fits (hf : Fits h) : header (h.encode b) = h := by
  rw [header_encode, Nat.mod_eq_of_lt hf.slot, Nat.mod_eq_of_lt hf.parent, Nat.mod_eq_of_lt hf.ns,
    Nat.mod_eq_of_lt hf.hash, Nat.mod_eq_of_lt hf.actor, Nat.mod_eq_of_lt hf.flags,
    Nat.mod_eq_of_lt hf.len, Nat.mod_eq_of_lt hf.intent, Nat.mod_eq_of_lt hf.derived,
    Nat.mod_eq_of_lt hf.generation]

theorem decode_encode (hf : Fits h) : CommitHeader.decode (h.encode b) = some h := by
  rw [CommitHeader.decode, if_pos (isCommit_encode h b), header_encode_of_fits hf]

theorem decode_commitSector (hf : Fits h) (value : Bytes) (len : ℕ) :
    CommitHeader.decode (bytes (commitSector h value len)) = some h := by
  rw [CommitHeader.decode, if_pos isCommit_commitSector, header_commitSector,
    header_encode_of_fits hf]

end

theorem putU32_mod (b : Bytes) (o v : ℕ) : putU32 b o (v % 2 ^ 32) = putU32 b o v := by
  funext i
  by_cases hi : o ≤ i ∧ i < o + 4
  · obtain ⟨k, hk, rfl⟩ : ∃ k < 4, i = o + k := ⟨i - o, by omega, by omega⟩
    rw [putU32, putLe_inside hk, putLe_inside hk]
    apply UInt8.toNat.inj
    rw [UInt8.toNat_ofNat', UInt8.toNat_ofNat', Nat.shiftRight_eq_div_pow, Nat.shiftRight_eq_div_pow]
    obtain rfl | rfl | rfl | rfl : k = 0 ∨ k = 1 ∨ k = 2 ∨ k = 3 := by omega
    all_goals omega
  · rw [putU32_of_outside (by omega), putU32_of_outside (by omega)]

section
variable (slot parent ns : ℕ) (value : List UInt8) (actor intent derived : ℕ) (status : UInt8)
  (generation : ℕ)

def rawHeader : CommitHeader where
  slot := slot
  parent := parent
  ns := ns
  hash := (fnv64 (ofList value) 0 (min value.length (valueMax - 1))).toNat
  actor := actor
  flags := 1
  len := min value.length (valueMax - 1)
  intent := intent
  derived := derived
  revClass := RevClass.reversible.code
  status := status
  generation := generation

theorem rawCommit_eq (w : Bytes) :
    rawCommit w slot parent ns value actor intent derived status generation =
      buildCommit w (rawHeader slot parent ns value actor intent derived status generation)
        (ofList value) (min value.length (valueMax - 1)) := by
  have hmagic : min commitMagic.length (sectorSize - 1) = commitMagic.length := by decide
  simp only [rawCommit, buildCommit, CommitHeader.encode, rawHeader, setData, zeroFill_zeroFill,
    putU64, hmagic, offSlot, offParent, offNs, offHash, offActor, offFlags, offLen]

theorem take_rawCommit_eq (w : Bytes) :
    take sectorSize (rawCommit w slot parent ns value actor intent derived status generation) =
      commitSector (rawHeader slot parent ns value actor intent derived status generation)
        (ofList value) (min value.length (valueMax - 1)) := by
  rw [rawCommit_eq, take_buildCommit]

theorem rawCommit_ns_mod (w : Bytes) :
    rawCommit w slot parent (ns % 2 ^ 32) value actor intent derived status generation =
      rawCommit w slot parent ns value actor intent derived status generation := by
  simp only [rawCommit, putU32_mod]

theorem fits_rawHeader (hn : ns < 2 ^ 32) (hs : slot < 2 ^ 32) (hp : parent < 2 ^ 32) (ha : actor < 2 ^ 32)
    (hi : intent < 2 ^ 32) (hd : derived < 2 ^ 32) (hg : generation < 2 ^ 16) :
    Fits (rawHeader slot parent ns value actor intent derived status generation) where
  slot := hs
  parent := hp
  ns := hn
  hash := UInt64.toNat_lt _
  actor := ha
  flags := show 1 < 2 ^ 32 by decide
  len := by
    have hlen : min value.length (valueMax - 1) ≤ valueMax - 1 := min_le_right _ _
    have hmax : valueMax - 1 < 2 ^ 32 := by decide
    exact lt_of_le_of_lt hlen hmax
  intent := hi
  derived := hd
  generation := hg

end

def recordSector (h : CommitHeader) (value : List UInt8) : Sector :=
  take sectorSize (copy (h.encode fun _ => 0) valueOff (ofList value) value.length)

theorem commitSector_eq (h : CommitHeader) (value : List UInt8) :
    commitSector h (ofList value) value.length = recordSector h value := by
  have hzero : zeroFill (fun _ => 0) sectorSize = fun _ => 0 := by
    funext i
    rw [zeroFill, ite_self]
  rw [commitSector, buildCommit, hzero, recordSector]

theorem toList_recordSector {h : CommitHeader} {value : List UInt8} (hv : value.length ≤ 447) :
    toList (bytes (recordSector h value)) valueOff value.length = value := by
  have hoff : valueOff + 447 < sectorSize := by decide
  refine (toList_congr fun i hi => ?_).trans toList_ofList
  rw [recordSector, bytes_take (by omega), copy_inside hi, Nat.zero_add]

/-- The record that is laid out by hand is written as, byte for byte, a zeroed sector
with the shared header encoder applied to its header and followed by the value, and that
header is decoded from it. Over any buffer the shared encoder keeps what follows the
header, and decoding gives back what was encoded. -/
theorem encoders_agree :
    (∀ (w : Bytes) (slot parent actor intent derived : UInt32) (ns : ℕ) (status : UInt8)
        (generation : ℕ) (value : List UInt8), generation < 65536 → value.length ≤ 447 →
      let h := rawHeader slot.toNat parent.toNat (ns % 2 ^ 32) value actor.toNat intent.toNat
        derived.toNat status generation
      (∃ next, appendCommitRaw w slot.toNat parent.toNat ns value actor.toNat intent.toNat
          derived.toNat status generation =
        .write (commitFirstSector + slot.toNat) (recordSector h value) next) ∧
      CommitHeader.decode (bytes (recordSector h value)) = some h ∧
      toList (bytes (recordSector h value)) valueOff h.len = value) ∧
    ∀ h : CommitHeader, Fits h → ∀ b : Bytes,
      (∀ i, valueOff ≤ i → h.encode b i = b i) ∧ CommitHeader.decode (h.encode b) = some h := by
  refine ⟨fun w slot parent actor intent derived ns status generation value hg hv => ?_,
    fun h hf b => ⟨fun i hi => encode_of_le hi, decode_encode hf⟩⟩
  have hmin : min value.length (valueMax - 1) = value.length := min_eq_left hv
  intro h
  have hsector : commitSector h (ofList value) (min value.length (valueMax - 1)) =
      recordSector h value := by
    rw [hmin, commitSector_eq]
  have hfits : Fits h := fits_rawHeader _ _ _ _ _ _ _ _ _
    (Nat.mod_lt _ (Nat.two_pow_pos 32)) slot.toNat_lt parent.toNat_lt actor.toNat_lt
    intent.toNat_lt derived.toNat_lt hg
  refine ⟨?_, ?_, ?_⟩
  · rw [appendCommitRaw, rw, if_pos rfl, ← rawCommit_ns_mod, take_rawCommit_eq, hsector]
    exact ⟨_, rfl⟩
  · rw [← hsector]
    exact decode_commitSector hfits _ _
  · have hlen : h.len = value.length := hmin
    rw [hlen]
    exact toList_recordSector hv

/-- A compensation is recorded on top of the record in slot 6. -/
theorem encoders_agree_compensation :
    let h := rawHeader 7 6 2 (ascii "undo") 4 9 24 statusCompensation 3
    (∃ next, appendCommitRaw (fun _ => 0xFF) 7 6 2 (ascii "undo") 4 9 24 statusCompensation 3 =
      .write (commitFirstSector + 7) (recordSector h (ascii "undo")) next) ∧
    CommitHeader.decode (h.encode fun _ => 0xFF) = some h := by
  intro h
  have hfits : Fits h := fits_rawHeader _ _ _ _ _ _ _ _ _ (by decide) (by decide) (by decide)
    (by decide) (by decide) (by decide) (by decide)
  exact ⟨(encoders_agree.1 (fun _ => 0xFF) 7 6 4 9 24 2 statusCompensation 3 (ascii "undo")
    (by decide) (by decide)).1, (encoders_agree.2 h hfits fun _ => 0xFF).2⟩

end Dezh.RecordEncoders

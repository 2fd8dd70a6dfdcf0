import Dezh.PackageChecksum
import Dezh.PackageCodec

/-!
# Damaged journals

The checksum of a journal record sits inside the image it covers and is taken with
its own field zeroed. So damage has to be told apart by where it lies. Outside the
field it changes the bytes the checksum is taken over, within 32 consecutive bits.
Inside the field those bytes are the same, and the stored value is another one.
-/
namespace Dezh.JournalDamage
open ByteLayout PackageFormat PackageStore PackageCodec PackageChecksum

def stored (raw : Bytes) : List UInt8 := toList raw 0 journalSize

section
variable {raw img : Bytes} {k n j : ℕ}

theorem getD_stored (hj : j < journalSize) : (stored raw).getD j 0 = raw j := by
  rw [stored, List.getD_eq_getElem?_getD, toList, List.getElem?_map, List.getElem?_range hj]
  simp

theorem getD_stored_of_le (hj : journalSize ≤ j) : (stored raw).getD j 0 = 0 := by
  rw [List.getD_eq_getElem?_getD, List.getElem?_eq_none (by simpa [stored] using hj)]
  rfl

theorem stored_congr (h : ∀ j < journalSize, raw j = img j) : stored raw = stored img :=
  toList_congr fun j hj => by simpa using h j hj

theorem eq_of_agree (h : AgreeOutside (stored raw) (stored img) k n) (hj : j < journalSize)
    (hout : 8 * j + 8 ≤ k ∨ k + n ≤ 8 * j) : raw j = img j := by
  have heq := h.getD_eq hout
  rwa [getD_stored hj, getD_stored hj] at heq

theorem agree_zeroed (h : AgreeOutside (stored raw) (stored img) k n) (o : ℕ) :
    AgreeOutside (stored (putU32 raw o 0)) (stored (putU32 img o 0)) k n := by
  intro i hi
  by_cases hj : i / 8 < journalSize
  · rw [bitAt, bitAt, getD_stored hj, getD_stored hj]
    by_cases hfield : o ≤ i / 8 ∧ i / 8 < o + 4
    · obtain ⟨m, hm, heq⟩ : ∃ m < 4, i / 8 = o + m := ⟨i / 8 - o, by omega, by omega⟩
      rw [heq, putU32, putLe_inside hm, putLe_inside hm]
    · rw [putU32_of_outside (by omega), putU32_of_outside (by omega)]
      have hbit := h i hi
      rwa [bitAt, bitAt, getD_stored hj, getD_stored hj] at hbit
  · rw [bitAt, bitAt, getD_stored_of_le (by omega), getD_stored_of_le (by omega)]

theorem agree_putU8 (x : UInt8) (hk : k ≤ 8 * j) (hn : 8 * j + 8 ≤ k + n) :
    AgreeOutside (stored (putU8 img j x)) (stored img) k n := by
  intro i hi
  by_cases hlt : i / 8 < journalSize
  · rw [bitAt, bitAt, getD_stored hlt, getD_stored hlt, putU8_of_ne (by omega)]
  · rw [bitAt, bitAt, getD_stored_of_le (by omega), getD_stored_of_le (by omega)]

end

section
variable {raw : Bytes} {r : JournalRecord} {k : ℕ}

theorem crc_of_valid (h : decodeJournal raw = .valid r) :
    checksum (stored (putU32 raw offJournalCrc 0)) = u32At raw offJournalCrc := by
  unfold decodeJournal at h
  split_ifs at h with hzero hmagic hversion hcrc
  exact not_not.mp hcrc

theorem zero_of_empty (h : decodeJournal raw = .empty) {j : ℕ} (hj : j < journalSize) :
    raw j = 0 := by
  unfold decodeJournal at h
  split_ifs at h with hzero
  have hall := List.all_eq_true.mp hzero (raw j)
    (List.mem_map.mpr ⟨j, List.mem_range.mpr hj, by rw [Nat.zero_add]⟩)
  exact eq_of_beq hall

theorem crc_encodeJournal (h : Encodable r) :
    checksum (stored (putU32 (encodeJournal r) offJournalCrc 0)) =
      u32At (encodeJournal r) offJournalCrc := crc_of_valid (decode_encodeJournal h)

theorem checksum_ne {s t : List UInt8} (hlen : s.length = t.length) (hne : s ≠ t)
    (h : AgreeOutside s t k 32) : checksum s ≠ checksum t :=
  fun heq => crc32_burst hlen hne h (UInt32.toNat_inj.mp heq)

section
variable (hr : Encodable r)
include hr

theorem encodeJournal_first : encodeJournal r 0 ≠ 0 := by
  have hmagic := congrArg List.head? (encodeJournal_magic hr)
  have hfirst : encodeJournal r 0 = 0x44 := Option.some.inj hmagic
  rw [hfirst]
  decide

theorem encodeJournal_ninth : encodeJournal r 8 ≠ 0 := by
  have hname : r.name.length ≤ 24 := hr.name
  simp (disch := omega) only [encodeJournal, offJournalCrc, encodeFields, copy_of_outside,
    putU8_of_ne, putU32_of_outside]
  rw [putU32, putLe_inside (i := 0) (by decide)]
  decide

theorem not_empty (h : AgreeOutside (stored raw) (stored (encodeJournal r)) k 32) :
    decodeJournal raw ≠ .empty := by
  intro hempty
  by_cases hk : k + 32 ≤ 64
  · have heq := eq_of_agree h (j := 8) (by decide) (.inr hk)
    rw [zero_of_empty hempty (by decide)] at heq
    exact encodeJournal_ninth hr heq.symm
  · have heq := eq_of_agree h (j := 0) (by decide) (.inl (by omega))
    rw [zero_of_empty hempty (by decide)] at heq
    exact encodeJournal_first hr heq.symm

theorem not_valid_outside {r' : JournalRecord} (hne : stored raw ≠ stored (encodeJournal r))
    (h : AgreeOutside (stored raw) (stored (encodeJournal r)) k 32)
    (hout : k + 32 ≤ 8 * offJournalCrc ∨ 8 * (offJournalCrc + 4) ≤ k) :
    decodeJournal raw ≠ .valid r' := by
  intro hvalid
  have hfield : ∀ j, offJournalCrc ≤ j → j < offJournalCrc + 4 → raw j = encodeJournal r j := by
    intro j hlo hhi
    refine eq_of_agree h ?_ (by omega)
    have hsize : offJournalCrc + 4 ≤ journalSize := by decide
    omega
  have hcrc : u32At raw offJournalCrc = u32At (encodeJournal r) offJournalCrc := u32At_congr hfield
  rw [← crc_of_valid hvalid, ← crc_encodeJournal hr] at hcrc
  refine checksum_ne (by simp [stored]) ?_ (agree_zeroed h offJournalCrc) hcrc
  -- The zeroed images differ where the images do, since the field is the same in both.
  intro hzeroed
  refine hne (stored_congr fun j hj => ?_)
  by_cases hin : offJournalCrc ≤ j ∧ j < offJournalCrc + 4
  · exact hfield j hin.1 hin.2
  · have heq := congrArg (List.getD · j 0) hzeroed
    simp only [getD_stored hj] at heq
    rwa [putU32_of_outside (by omega), putU32_of_outside (by omega)] at heq

theorem not_valid_inside {r' : JournalRecord} (hne : stored raw ≠ stored (encodeJournal r))
    (h : AgreeOutside (stored raw) (stored (encodeJournal r)) k 32)
    (hlo : 8 * offJournalCrc ≤ k) (hhi : k + 32 ≤ 8 * (offJournalCrc + 4)) :
    decodeJournal raw ≠ .valid r' := by
  intro hvalid
  have hrest : ∀ j < journalSize, j < offJournalCrc ∨ offJournalCrc + 4 ≤ j →
      raw j = encodeJournal r j := by
    intro j hj hout
    exact eq_of_agree h hj (by omega)
  have hzeroed : stored (putU32 raw offJournalCrc 0) =
      stored (putU32 (encodeJournal r) offJournalCrc 0) := by
    refine stored_congr fun j hj => ?_
    by_cases hin : offJournalCrc ≤ j ∧ j < offJournalCrc + 4
    · obtain ⟨m, hm, rfl⟩ : ∃ m < 4, j = offJournalCrc + m :=
        ⟨j - offJournalCrc, by omega, by omega⟩
      simp only [putU32, putLe_inside hm]
    · rw [putU32_of_outside (by omega), putU32_of_outside (by omega)]
      exact hrest j hj (by omega)
  have hcrc : u32At raw offJournalCrc = u32At (encodeJournal r) offJournalCrc := by
    rw [← crc_of_valid hvalid, ← crc_encodeJournal hr, hzeroed]
  -- Writing the same number into images that agree elsewhere gives the same image.
  refine hne (stored_congr fun j hj => ?_)
  by_cases hin : offJournalCrc ≤ j ∧ j < offJournalCrc + 4
  · obtain ⟨m, hm, rfl⟩ : ∃ m < 4, j = offJournalCrc + m :=
      ⟨j - offJournalCrc, by omega, by omega⟩
    rw [← putU32_u32At (b := raw) (o := offJournalCrc), hcrc, putU32, putLe_inside hm,
      ← putLe_inside (b := encodeJournal r) (o := offJournalCrc) hm, ← putU32, putU32_u32At]
  · exact hrest j hj (by omega)

end

end

/-- Decoding undoes encoding, and a written image with damage within 32 consecutive
bits, beside the checksum field or inside it, is reported as corrupt. -/
theorem journal_damage (r : JournalRecord) (hr : Encodable r) :
    decodeJournal (encodeJournal r) = .valid r ∧
      ∀ raw : Bytes, ∀ k : ℕ, stored raw ≠ stored (encodeJournal r) →
        AgreeOutside (stored raw) (stored (encodeJournal r)) k 32 →
        (8 * offJournalCrc ≤ k ∧ k + 32 ≤ 8 * (offJournalCrc + 4)) ∨
          (k + 32 ≤ 8 * offJournalCrc ∨ 8 * (offJournalCrc + 4) ≤ k) →
        ∃ fault, decodeJournal raw = .corrupt fault := by
  refine ⟨decode_encodeJournal hr, fun raw k hne hagree hwindow => ?_⟩
  cases hdecoded : decodeJournal raw with
  | empty => exact absurd hdecoded (not_empty hr hagree)
  | valid r' =>
    rcases hwindow with ⟨hlo, hhi⟩ | hout
    · exact absurd hdecoded (not_valid_inside hr hne hagree hlo hhi)
    · exact absurd hdecoded (not_valid_outside hr hne hagree hout)
  | corrupt fault => exact ⟨fault, rfl⟩

def removal : JournalRecord :=
  journalRecord opRemove phaseStarted 2 stateActive stateRemoved (ascii "notes") (ascii "1.0") 24 600
    0xCAFEF00D 0x12345678 0

/-- Its new state is overwritten. -/
theorem journal_damage_state :
    ∃ fault, decodeJournal (putU8 (encodeJournal removal) 17 stateActive) = .corrupt fault := by
  have hr : Encodable removal := by
    refine ⟨?_, ?_, ?_, ?_, ?_, ?_, ?_, ?_, ?_, ?_⟩ <;> decide
  refine (journal_damage removal hr).2 _ (8 * 17) ?_ (agree_putU8 _ (by omega) (by omega))
    (.inr (.inl (by decide)))
  intro heq
  have hbyte := congrArg (List.getD · 17 0) heq
  simp only [getD_stored (show 17 < journalSize by decide), putU8_self] at hbyte
  revert hbyte
  decide +kernel

end Dezh.JournalDamage

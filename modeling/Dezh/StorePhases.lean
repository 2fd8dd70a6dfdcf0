import Dezh.CheckpointCodec
import Dezh.PackageLoading

/-!
# Phases of the write sequences

What the package store keeps on disk is its image: the journal, the registry and the
sectors of the blob areas. A command writes phase after phase, where a phase writes
the journal, the registry, one package or the marker. A power cut within a phase
leaves its first sectors written. So a power cut is a function of the image, the
phases and the number of completed writes, and the disk follows it.
-/
namespace Dezh.StorePhases
open BlockProgram Program ByteLayout CairnFormat PackageFormat PackageStore PackageCodec
  PackageAreas PackageRecovery PackageLoading PackageCommands CheckpointCodec

/-- The entry of a slot is the one of another store. -/
def EntryKept (d d' : Disk Sector) (slot : ℕ) : Prop :=
  ∀ i < entrySize, registryOf d' (entryOff slot + i) = registryOf d (entryOff slot + i)

/-- The first use of the store after a power cut: whether it succeeded, the kernel
and the disk. -/
def reboot (d : Disk Sector) : (Bool × Kernel) × Disk Sector := (ensureLoaded .boot).eval d

variable {d : Disk Sector} {m n base rawLen slot : ℕ} {k : Kernel}
variable {s t : ℕ} {reg : Bytes} {R : Type}

section
variable {d' : Disk Sector} {first : ℕ} {new old : Bytes}

/-- What the package store keeps on disk. -/
@[ext] structure Image where
  journal : Bytes
  registry : Bytes
  blobs : Disk Sector

def imageOf (d : Disk Sector) : Image where
  journal := journalOf d
  registry := registryOf d
  blobs := fun s => if 64 ≤ s then d s else fun _ => 0

theorem imageOf_blobs (hs : 64 ≤ s) : (imageOf d).blobs s = d s := if_pos hs

theorem imageOf_below (hs : s < 64) : (imageOf d).blobs s = fun _ => 0 :=
  if_neg (by omega)

def overlay (m : ℕ) (new old : Bytes) : Bytes := fun i => if i < m * sectorSize then new i else old i

theorem le_slotBlobSector (slot : ℕ) : 64 ≤ slotBlobSector slot := Nat.le_add_right _ _

theorem overlay_zero : overlay 0 new old = old := by
  funext i
  exact if_neg (by omega)

theorem overlay_of_le (h : ∀ i, m * sectorSize ≤ i → old i = new i) : overlay m new old = new := by
  funext i
  unfold overlay
  split_ifs with hi
  · rfl
  · exact h i (by omega)

/-- A buffer that ends in its first sector. -/
def Short (raw : Bytes) : Prop := ∀ i, sectorSize ≤ i → raw i = 0

theorem short_zero : Short fun _ => 0 := fun _ _ => rfl

theorem short_encodeJournal {r : JournalRecord} (h : Encodable r) : Short (encodeJournal r) := by
  intro i hi
  unfold sectorSize at hi
  rw [encodeJournal_of_ne (by omega), encodeFields_of_le h (by omega)]

theorem Short.ite {c : Prop} [Decidable c] (hnew : Short new) (hold : Short old) :
    Short (if c then new else old) := by
  split_ifs
  · exact hnew
  · exact hold

theorem overlay_journal (hold : Short old) (hnew : Short new) :
    overlay (min m journalSectors) new old = if m = 0 then old else new := by
  split_ifs with hm
  · rw [hm, Nat.zero_min, overlay_zero]
  · refine overlay_of_le fun i hi => ?_
    have hi' : sectorSize ≤ i := by
      refine le_trans (Nat.le_mul_of_pos_left _ ?_) hi
      unfold journalSectors
      omega
    rw [hold i hi', hnew i hi']

def entryWrites (slot : ℕ) : ℕ := slot / 4 + 1

theorem entryWrites_bounds (hs : slot < maxPkgs) :
    0 < entryWrites slot ∧ entryWrites slot ≤ 2 := by
  unfold maxPkgs at hs
  unfold entryWrites
  omega

theorem overlay_registry (hs : slot < maxPkgs)
    (h : ∀ i, i < entryOff slot ∨ entryOff slot + entrySize ≤ i → new i = old i) :
    overlay (min m registrySectors) new old = if m < entryWrites slot then old else new := by
  have hs' : slot < 8 := hs
  unfold entryOff entrySize at h
  unfold entryWrites
  split_ifs with hm
  · funext i
    unfold overlay
    split_ifs with hi
    · refine h i (.inl ?_)
      unfold registrySectors sectorSize at hi
      omega
    · rfl
  · refine overlay_of_le fun i hi => (h i (.inr ?_)).symm
    unfold registrySectors sectorSize at hi
    omega

theorem overlay_registry_ite {pending : Bytes} {c : Prop} [Decidable c]
    (hs : slot < maxPkgs)
    (hpending : ∀ i, i < entryOff slot ∨ entryOff slot + entrySize ≤ i → pending i = old i)
    (hnew : ∀ i, i < entryOff slot ∨ entryOff slot + entrySize ≤ i → new i = old i) :
    overlay (min m registrySectors) new (if c then old else pending) =
      if m < entryWrites slot then (if c then old else pending) else new := by
  refine overlay_registry hs fun i hi => ?_
  rw [hnew i hi]
  split_ifs
  · rfl
  · exact (hpending i hi).symm

theorem area_congr (h : ∀ j < n, d (first + j) = d' (first + j)) : area d first n = area d' first n := by
  funext i
  by_cases hi : i < n * sectorSize
  · rw [area_of_lt hi, area_of_lt hi]
    exact image_congr (h _ (Nat.div_lt_of_lt_mul (by rwa [Nat.mul_comm])))
  · rw [area_of_le (by omega), area_of_le (by omega)]

theorem area_take_stripe : area (replay d ((stripe first (sectorAt new) n).take m)) first n =
    overlay (min m n) new (area d first n) := by
  funext i
  unfold overlay
  have hdiv : i < min m n * sectorSize ↔ i / sectorSize < min m n :=
    (Nat.div_lt_iff_lt_mul (by decide)).symm
  by_cases hi : i < n * sectorSize
  · rw [area_of_lt hi]
    by_cases hm : i < min m n * sectorSize
    · rw [if_pos hm]
      refine image_eq ?_
      rw [replay_take_stripe, if_pos ⟨Nat.le_add_right _ _, Nat.add_lt_add_left (hdiv.mp hm) _⟩,
        Nat.add_sub_cancel_left]
    · rw [if_neg hm, area_of_lt hi]
      refine image_congr ?_
      rw [replay_take_stripe, if_neg fun h => hm (hdiv.mpr (Nat.lt_of_add_lt_add_left h.2))]
  · have hle : min m n * sectorSize ≤ n * sectorSize := Nat.mul_le_mul_right _ (Nat.min_le_right m n)
    rw [area_of_le (by omega), area_of_le (by omega), if_neg (by omega)]

end

/-- One part of a write sequence. -/
inductive Phase where
  | journal (raw : Bytes)
  | registry (reg : Bytes)
  | blob (base : ℕ) (raw : List UInt8)
  | marker

variable {ph : Phase} {img : Image} {l : List Phase}

namespace Phase

def writes : Phase → List (ℕ × Sector)
  | journal raw => journalWrites raw
  | registry reg => registryWrites reg
  | blob base raw => blobWrites base raw
  | marker => markerWrites

def size : Phase → ℕ
  | journal _ => journalSectors
  | registry _ => registrySectors
  | blob _ raw => sectorsFor raw.length
  | marker => 1

def after (m : ℕ) (img : Image) : Phase → Image
  | journal raw => { img with journal := overlay (min m journalSectors) raw img.journal }
  | registry reg => { img with registry := overlay (min m registrySectors) reg img.registry }
  | blob base raw => { img with blobs := replay img.blobs ((blobWrites base raw).take m) }
  | marker => img

def Placed : Phase → Prop
  | blob base _ => 64 ≤ base
  | _ => True

theorem length_writes : ph.writes.length = ph.size := by
  cases ph <;> exact length_stripe

theorem imageOf_blobs_congr {d' : Disk Sector} (h : ∀ s, 64 ≤ s → d' s = d s) :
    (imageOf d').blobs = (imageOf d).blobs := by
  funext s
  by_cases hs : 64 ≤ s
  · rw [imageOf_blobs hs, imageOf_blobs hs, h s hs]
  · rw [imageOf_below (by omega), imageOf_below (by omega)]

theorem imageOf_blob {base : ℕ} {raw : List UInt8} (h : 64 ≤ base) :
    (imageOf (replay d ((blobWrites base raw).take m))).blobs =
      replay (imageOf d).blobs ((blobWrites base raw).take m) := by
  funext s
  unfold blobWrites
  rw [replay_take_stripe]
  by_cases hs : 64 ≤ s
  · rw [imageOf_blobs hs, imageOf_blobs hs, replay_take_stripe]
  · rw [imageOf_below (by omega), imageOf_below (by omega), if_neg (by omega)]

theorem area_of_apart {first n first' n' : ℕ} {f : ℕ → Sector}
    (h : first' + n' ≤ first ∨ first + n ≤ first') :
    area (replay d ((stripe first f n).take m)) first' n' = area d first' n' :=
  area_congr fun j _ => replay_take_stripe_of_outside (by omega)

theorem imageOf_after (h : ph.Placed) :
    imageOf (replay d (ph.writes.take m)) = ph.after m (imageOf d) := by
  cases ph with
  | journal raw =>
    have hblobs : (imageOf (replay d ((journalWrites raw).take m))).blobs = (imageOf d).blobs := by
      refine imageOf_blobs_congr fun s hs => replay_take_stripe_of_outside (.inr ?_)
      unfold journalSector journalSectors
      omega
    exact Image.ext area_take_stripe (area_of_apart (.inl (by decide))) hblobs
  | registry reg =>
    have hblobs : (imageOf (replay d ((registryWrites reg).take m))).blobs = (imageOf d).blobs := by
      refine imageOf_blobs_congr fun s hs => replay_take_stripe_of_outside (.inr ?_)
      unfold registrySector registrySectors
      omega
    exact Image.ext (area_of_apart (.inr (by decide))) area_take_stripe hblobs
  | blob base raw =>
    have hbase : 64 ≤ base := h
    have hjournal : journalSector + journalSectors ≤ base := le_trans (by decide) hbase
    have hregistry : registrySector + registrySectors ≤ base := le_trans (by decide) hbase
    exact Image.ext (area_of_apart (.inl hjournal)) (area_of_apart (.inl hregistry))
      (imageOf_blob hbase)
  | marker =>
    have hblobs : (imageOf (replay d (markerWrites.take m))).blobs = (imageOf d).blobs := by
      refine imageOf_blobs_congr fun s hs => replay_take_stripe_of_outside (.inr ?_)
      unfold BlockDaemon.pkgStoreMarkerSector
      omega
    exact Image.ext (area_of_apart (.inr (by decide))) (area_of_apart (.inr (by decide))) hblobs

end Phase

section
variable {b : Disk Sector} {base' : ℕ} {raw : List UInt8}

theorem current_le_previous (hs : slot < maxPkgs) :
    slotBlobSector slot + slotSectors ≤ previousBlobSector t := by
  unfold maxPkgs at hs
  unfold slotBlobSector previousBlobSector slotSectors
  omega

theorem previous_le_stage (hs : slot < maxPkgs) :
    previousBlobSector slot + slotSectors ≤ stageBlobSector t := by
  unfold maxPkgs at hs
  unfold previousBlobSector stageBlobSector slotSectors
  omega

theorem current_le_stage (hs : slot < maxPkgs) :
    slotBlobSector slot + slotSectors ≤ stageBlobSector t := by
  unfold maxPkgs at hs
  unfold slotBlobSector stageBlobSector slotSectors
  omega

theorem current_disjoint (h : slot ≠ t) :
    slotBlobSector slot + slotSectors ≤ slotBlobSector t ∨
      slotBlobSector t + slotSectors ≤ slotBlobSector slot := by
  unfold slotBlobSector slotSectors
  omega

section
variable (hl : raw.length ≤ maxRawBytes)
include hl

theorem replay_blobWrites_of_outside
    (h : s < base ∨ base + slotSectors ≤ s) : replay b ((blobWrites base raw).take m) s = b s := by
  have hsectors := sectorsFor_le hl
  exact replay_take_stripe_of_outside (by omega)

theorem replay_blobWrites_outside
    (h : s < base ∨ base + slotSectors ≤ s) : replay b (blobWrites base raw) s = b s := by
  have hall := replay_blobWrites_of_outside (b := b) (m := (blobWrites base raw).length) hl h
  rwa [List.take_length] at hall

theorem blobAt_of_disjoint (hl' : rawLen ≤ maxRawBytes)
    (h : base' + slotSectors ≤ base ∨ base + slotSectors ≤ base') :
    blobAt (replay b ((blobWrites base raw).take m)) base' rawLen = blobAt b base' rawLen := by
  have hsectors := sectorsFor_le hl'
  exact blobAt_congr fun j hj => replay_blobWrites_of_outside hl (by omega)

end

theorem blobAt_journalWrites {data : Bytes} (hb : 64 ≤ base) :
    blobAt (replay b (journalWrites data)) base rawLen = blobAt b base rawLen := by
  refine blobAt_congr fun j _ => ?_
  rw [journalWrites, replay_stripe, if_neg (by unfold journalSector journalSectors; omega)]

theorem blobAt_registryWrites {data : Bytes} (hb : 64 ≤ base) :
    blobAt (replay b (registryWrites data)) base rawLen = blobAt b base rawLen := by
  refine blobAt_congr fun j _ => ?_
  rw [registryWrites, replay_stripe, if_neg (by unfold registrySector registrySectors; omega)]

theorem blobAt_blobWrites_of_disjoint (hl : raw.length ≤ maxRawBytes) (hl' : rawLen ≤ maxRawBytes)
    (h : base' + slotSectors ≤ base ∨ base + slotSectors ≤ base') :
    blobAt (replay b (blobWrites base raw)) base' rawLen = blobAt b base' rawLen := by
  have hall := blobAt_of_disjoint (b := b) (m := (blobWrites base raw).length) hl hl' h
  rwa [List.take_length] at hall

theorem blobAt_of_written (hm : sectorsFor raw.length ≤ m) :
    blobAt (replay b ((blobWrites base raw).take m)) base raw.length = raw := by
  refine blobAt_eq fun j hj => ?_
  rw [blobWrites, replay_take_stripe, if_pos (by omega), Nat.add_sub_cancel_left]

theorem blobAt_blobWrites : blobAt (replay b (blobWrites base raw)) base raw.length = raw := by
  refine blobAt_eq fun j hj => ?_
  rw [blobWrites, replay_stripe, if_pos (by omega), Nat.add_sub_cancel_left]

end

section
variable {l' : List Phase}

def writesOf (l : List Phase) : List (ℕ × Sector) := l.flatMap Phase.writes

def crash : List Phase → ℕ → Image → Image
  | [], _, img => img
  | ph :: rest, n, img => crash rest (n - ph.size) (ph.after n img)

def complete (l : List Phase) (img : Image) : Image :=
  l.foldl (fun img ph => ph.after ph.size img) img

theorem writesOf_append : writesOf (l ++ l') = writesOf l ++ writesOf l' := List.flatMap_append

@[simp] theorem writesOf_nil : writesOf [] = [] := rfl

theorem writesOf_cons : writesOf (ph :: l) = ph.writes ++ writesOf l := rfl

theorem imageOf_crash (h : ∀ ph ∈ l, ph.Placed) :
    imageOf (replay d ((writesOf l).take n)) = crash l n (imageOf d) := by
  induction l generalizing n d with
  | nil =>
    rw [writesOf, List.flatMap_nil, List.take_nil]
    rfl
  | cons ph l ih =>
    rw [writesOf_cons, List.take_append, Phase.length_writes, replay_append, crash,
      ← Phase.imageOf_after (h ph List.mem_cons_self)]
    exact ih fun ph hph => h ph (List.mem_cons_of_mem _ hph)

theorem imageOf_complete (h : ∀ ph ∈ l, ph.Placed) :
    imageOf (replay d (writesOf l)) = complete l (imageOf d) := by
  induction l generalizing d with
  | nil => rfl
  | cons ph l ih =>
    have hfirst := Phase.imageOf_after (d := d) (m := ph.size) (h ph List.mem_cons_self)
    rw [← Phase.length_writes, List.take_length] at hfirst
    rw [writesOf_cons, replay_append, ih fun ph hph => h ph (List.mem_cons_of_mem _ hph), hfirst,
      Phase.length_writes]
    rfl

end

section
variable {r : JournalRecord} {manual : Bool}

theorem within_previous (hs : slot < maxPkgs) :
    Within .blob (previousBlobSector slot) slotSectors := by
  unfold maxPkgs at hs
  refine ⟨?_, ?_⟩ <;> simp only [previousBlobSector, slotSectors, BlockDaemon.PkgArea.first,
    BlockDaemon.PkgArea.last] <;> omega

theorem within_stage (hs : slot < maxPkgs) : Within .blob (stageBlobSector slot) slotSectors := by
  unfold maxPkgs at hs
  refine ⟨?_, ?_⟩ <;> simp only [stageBlobSector, slotSectors, BlockDaemon.PkgArea.first,
    BlockDaemon.PkgArea.last] <;> omega

theorem blobAt_imageOf (hb : 64 ≤ base) : blobAt (imageOf d).blobs base rawLen = blobAt d base rawLen :=
  blobAt_congr fun j _ => imageOf_blobs (by omega)

def verified (blobs : Disk Sector) (base : ℕ) (r : JournalRecord) : Bool :=
  decide (r.rawLen ≠ 0 ∧ r.rawLen ≤ maxRawBytes ∧ r.blobCount = sectorsFor r.rawLen ∧
    checksum (blobAt blobs base r.rawLen) = r.rawCrc) &&
  match inspect (blobAt blobs base r.rawLen) with
  | none => false
  | some p => decide (p.name = asText r.name ∧ p.version = asText r.version ∧ p.mcaps = r.mcaps)

theorem trace_verifyBlobRecordAt (hb : Within .blob base slotSectors) :
    (verifyBlobRecordAt base r).Trace d (verified d base r) [] := by
  unfold verifyBlobRecordAt verified
  by_cases hlen : r.rawLen = 0 ∨ maxRawBytes < r.rawLen ∨ r.blobCount ≠ sectorsFor r.rawLen
  · rw [if_pos hlen, decide_eq_false (by omega), Bool.false_and]
    exact .pure _ d
  · rw [if_neg hlen]
    simp only [not_or, Nat.not_lt, not_not] at hlen
    refine (trace_readBlobArea hlen.2.1 hb).bind_nil ?_
    by_cases hcrc : checksum (blobAt d base r.rawLen) = r.rawCrc
    · rw [decide_eq_true ⟨hlen.1, hlen.2.1, hlen.2.2, hcrc⟩, Bool.true_and]
      simp only [hcrc, ne_eq, not_true_eq_false, if_false]
      cases inspect (blobAt d base r.rawLen) <;> exact .pure _ d
    · rw [decide_eq_false fun h => hcrc h.2.2.2, Bool.false_and]
      simp only [hcrc, ne_eq, not_false_eq_true, if_true]
      exact .pure _ d

theorem trace_copyBlobArea {source target : ℕ} (hpos : rawLen ≠ 0) (hl : rawLen ≤ maxRawBytes)
    (hs : Within .blob source slotSectors) (ht : Within .blob target slotSectors) :
    (copyBlobArea source target rawLen).Trace d true
      (blobWrites target (blobAt d source rawLen)) := by
  have hlen : (blobAt d source rawLen).length = rawLen := length_toList
  rw [copyBlobArea, if_neg (by omega)]
  refine (trace_readBlobArea hl hs).bind_nil ?_
  exact trace_writeBlobAt (by omega) ht

def commit (reg : Bytes) : List Phase := [.registry reg, .marker, .journal fun _ => 0]

theorem writesOf_commit : writesOf (commit reg) = commitWrites reg := by
  simp only [commit, writesOf, List.flatMap_cons, List.flatMap_nil, List.append_nil]
  rfl

theorem encodable_journalRecord {op phase oldState newState : UInt8} {name version : Text}
    {mcaps rawCrc before after : ℕ} (hs : slot < maxPkgs) (hn : name.length ≤ nameMax)
    (hv : version.length ≤ verMax) (hm : mcaps < 2 ^ 32) (hl : rawLen ≤ maxRawBytes)
    (hc : rawCrc < 2 ^ 32) (hb : before < 2 ^ 32) (ha : after < 2 ^ 32) :
    Encodable (journalRecord op phase slot oldState newState name version mcaps rawLen rawCrc
      before after) := by
  have hs' : slot < 8 := hs
  have hl' : rawLen ≤ 32768 := hl
  have hcount : sectorsFor rawLen ≤ 64 := sectorsFor_le hl
  have hstart : slotBlobSector slot < 2 ^ 32 := by
    unfold slotBlobSector slotSectors
    omega
  exact ⟨hs, hm, show rawLen < 2 ^ 32 by omega, hc, hstart,
    show sectorsFor rawLen < 2 ^ 32 by omega, hb, ha, hn, hv⟩

theorem verified_journalRecord {op phase oldState newState : UInt8} {before after : ℕ}
    {raw : List UInt8} {p : Inspected} (hpos : 0 < raw.length) (hl : raw.length ≤ maxRawBytes)
    (hp : inspect raw = some p) (hraw : blobAt d base raw.length = raw) :
    verified d base (journalRecord op phase slot oldState newState p.name p.version p.mcaps
      raw.length (checksum raw) before after) = true := by
  obtain ⟨hname, hversion, -⟩ := inspect_isUtf8 hp
  unfold verified journalRecord
  simp only [hraw, hp, asText, hname, hversion, if_true, and_self, decide_true, Bool.and_true,
    decide_eq_true_eq, and_true]
  omega

/-- What a valid record demands: the package that is written first, and the registry.
`none` means that the record cannot be acted on. -/
def Image.verdict (img : Image) (r : JournalRecord) : Option (List Phase × Bytes) :=
  let staged := blobAt img.blobs (stageBlobSector r.slot) r.rawLen
  let previous := blobAt img.blobs (previousBlobSector r.slot) r.rawLen
  let pending := entryState img.registry r.slot = statePendingInstall
  if r.op = opInstall ∨ r.op = opReplace then
    if r.phase = phaseStarted ∨ r.phase = phaseBlobWritten then
      some ([], rollbackSlotToOldState img.registry r)
    else if r.phase = phaseRegistryPending then
      if r.op = opReplace ∧ pending ∧ verified img.blobs (stageBlobSector r.slot) r then
        some ([.blob (slotBlobSector r.slot) staged], setEntryState img.registry r.slot stateActive)
      else if r.op = opInstall ∧ pending ∧ verified img.blobs (slotBlobSector r.slot) r then
        some ([], setEntryState img.registry r.slot stateActive)
      else some ([], setEntryState img.registry r.slot stateQuarantined)
    else none
  else if r.op = opRollback then
    if r.phase = phaseRegistryPending ∧ r.rawLen ≤ maxRawBytes ∧ checksum previous = r.rawCrc then
      some ([.blob (slotBlobSector r.slot) previous], setEntryState img.registry r.slot stateActive)
    else none
  else if r.op = opRemove then some ([], setEntryState img.registry r.slot stateRemoved)
  else none

def Image.plan (img : Image) (manual : Bool) : Option (List Phase) :=
  match decodeJournal img.journal with
  | .empty => some []
  | .corrupt _ => if manual then some (commit (quarantinePendingSlots img.registry)) else none
  | .valid r => (img.verdict r).map fun v => v.1 ++ commit v.2

section
variable {v : List Phase × Bytes}

theorem plan_of_zero (hj : img.journal = fun _ => 0) : img.plan manual = some [] := by
  have hdecode : decodeJournal img.journal = .empty := by
    rw [hj]
    exact decodeJournal_zero
  unfold Image.plan
  simp only [hdecode]

theorem plan_of_record (hj : img.journal = encodeJournal r) (he : Encodable r)
    (hv : img.verdict r = some v) : img.plan manual = some (v.1 ++ commit v.2) := by
  have hdecode : decodeJournal img.journal = .valid r := by
    rw [hj]
    exact decode_encodeJournal he
  unfold Image.plan
  simp only [hdecode, hv, Option.map_some]

theorem verdict_undo (img : Image) (r : JournalRecord) (hop : r.op = opInstall ∨ r.op = opReplace)
    (hphase : r.phase = phaseStarted ∨ r.phase = phaseBlobWritten) :
    img.verdict r = some ([], rollbackSlotToOldState img.registry r) := by
  unfold Image.verdict
  simp only [if_pos hop, if_pos hphase]

theorem verdict_promote (img : Image) (r : JournalRecord) (hop : r.op = opReplace)
    (hphase : r.phase = phaseRegistryPending)
    (hstate : entryState img.registry r.slot = statePendingInstall)
    (hverified : verified img.blobs (stageBlobSector r.slot) r = true) :
    img.verdict r = some ([.blob (slotBlobSector r.slot)
      (blobAt img.blobs (stageBlobSector r.slot) r.rawLen)],
        setEntryState img.registry r.slot stateActive) := by
  unfold Image.verdict
  simp only [if_pos (Or.inr hop : r.op = opInstall ∨ r.op = opReplace), if_neg (not_early hphase),
    if_pos hphase]
  exact if_pos ⟨hop, hstate, hverified⟩

theorem verdict_complete (img : Image) (r : JournalRecord) (hop : r.op = opInstall)
    (hphase : r.phase = phaseRegistryPending)
    (hstate : entryState img.registry r.slot = statePendingInstall)
    (hverified : verified img.blobs (slotBlobSector r.slot) r = true) :
    img.verdict r = some ([], setEntryState img.registry r.slot stateActive) := by
  have hreplace : ¬ (r.op = opReplace ∧ entryState img.registry r.slot = statePendingInstall ∧
      verified img.blobs (stageBlobSector r.slot) r) := by
    rw [hop]
    exact fun h => absurd h.1 (by decide)
  unfold Image.verdict
  simp only [if_pos (Or.inl hop : r.op = opInstall ∨ r.op = opReplace), if_neg (not_early hphase),
    if_pos hphase]
  rw [if_neg hreplace]
  exact if_pos ⟨hop, hstate, hverified⟩

theorem verdict_quarantine (img : Image) (r : JournalRecord)
    (hop : r.op = opInstall ∨ r.op = opReplace) (hphase : r.phase = phaseRegistryPending)
    (hstate : entryState img.registry r.slot ≠ statePendingInstall) :
    img.verdict r = some ([], setEntryState img.registry r.slot stateQuarantined) := by
  unfold Image.verdict
  simp only [if_pos hop, if_neg (not_early hphase), if_pos hphase]
  rw [if_neg fun h => hstate h.2.1, if_neg fun h => hstate h.2.1]

theorem verdict_restore (img : Image) (r : JournalRecord) (hop : r.op = opRollback)
    (hphase : r.phase = phaseRegistryPending) (hl : r.rawLen ≤ maxRawBytes)
    (hcrc : checksum (blobAt img.blobs (previousBlobSector r.slot) r.rawLen) = r.rawCrc) :
    img.verdict r = some ([.blob (slotBlobSector r.slot)
      (blobAt img.blobs (previousBlobSector r.slot) r.rawLen)],
        setEntryState img.registry r.slot stateActive) := by
  have hop' : ¬ (r.op = opInstall ∨ r.op = opReplace) := by
    rw [hop]
    decide
  unfold Image.verdict
  simp only [if_neg hop', if_pos hop]
  exact if_pos ⟨hphase, hl, hcrc⟩

theorem verdict_remove (img : Image) (r : JournalRecord) (hop : r.op = opRemove) :
    img.verdict r = some ([], setEntryState img.registry r.slot stateRemoved) := by
  have hop' : ¬ (r.op = opInstall ∨ r.op = opReplace) := by
    rw [hop]
    decide
  have hop'' : ¬ r.op = opRollback := by
    rw [hop]
    decide
  unfold Image.verdict
  simp only [if_neg hop', if_neg hop'', if_pos hop]

end

theorem verified_imageOf (hb : 64 ≤ base) : verified (imageOf d).blobs base r = verified d base r := by
  rw [verified, blobAt_imageOf hb, verified]

theorem le_previousBlobSector (slot : ℕ) : 64 ≤ previousBlobSector slot := by
  unfold previousBlobSector
  omega

theorem le_stageBlobSector (slot : ℕ) : 64 ≤ stageBlobSector slot := by
  unfold stageBlobSector
  omega

theorem trace_recoverRegistry_pending (hk : k.registry = registryOf d) (hs : r.slot < maxPkgs)
    (hop : r.op = opInstall ∨ r.op = opReplace) (hphase : r.phase = phaseRegistryPending) :
    ∃ v, (imageOf d).verdict r = some v ∧ (recoverRegistry k r).Trace d (some v.2) (writesOf v.1) := by
  have hregistry : (imageOf d).registry = k.registry := hk.symm
  have hne : opInstall ≠ opReplace := by decide
  unfold Image.verdict recoverRegistry
  simp only [if_pos hop, if_neg (not_early hphase), if_pos hphase, hregistry,
    verified_imageOf (le_stageBlobSector r.slot), verified_imageOf (le_slotBlobSector r.slot),
    blobAt_imageOf (le_stageBlobSector r.slot)]
  by_cases hentry : entryState k.registry r.slot = statePendingInstall
  · rcases hop with hop | hop
    · have hread := trace_verifyBlobRecordAt (d := d) (r := r) (within_slot hs)
      simp only [hop, hentry, hne, decide_true, and_true, true_and, false_and, if_true, if_false]
      cases hverified : verified d (slotBlobSector r.slot) r with
      | true | false =>
        rw [hverified] at hread
        refine ⟨_, rfl, (Trace.pure false d).bind_nil ((Trace.pure false d).bind_nil ?_)⟩
        exact hread.bind_nil (.pure _ d)
    · have hread := trace_verifyBlobRecordAt (d := d) (r := r) (within_stage hs)
      simp only [hop, hentry, hne.symm, decide_true, and_true, true_and, false_and, if_true, if_false]
      cases hverified : verified d (stageBlobSector r.slot) r with
      | true =>
        rw [hverified] at hread
        have hlen := of_decide_eq_true (Bool.and_eq_true_iff.mp hverified).1
        refine ⟨_, rfl, hread.bind_nil ?_⟩
        rw [writesOf, List.flatMap_cons, List.flatMap_nil]
        refine (trace_copyBlobArea hlen.1 hlen.2.1 (within_stage hs) (within_slot hs)).bind ?_
        exact (Trace.pure false _).bind_nil (.pure _ _)
      | false =>
        rw [hverified] at hread
        refine ⟨_, rfl, hread.bind_nil ((Trace.pure false d).bind_nil ?_)⟩
        exact (Trace.pure false _).bind_nil (.pure _ _)
  · simp only [hentry, decide_false, Bool.false_eq_true, and_false, false_and, if_false]
    refine ⟨_, rfl, (Trace.pure false d).bind_nil ((Trace.pure false d).bind_nil ?_)⟩
    exact (Trace.pure false _).bind_nil (.pure _ _)

theorem trace_recoverRegistry (hk : k.registry = registryOf d) (hs : r.slot < maxPkgs) :
    (recoverRegistry k r).Trace d (((imageOf d).verdict r).map (·.2))
      (writesOf (((imageOf d).verdict r).elim [] (·.1))) := by
  by_cases hpending : (r.op = opInstall ∨ r.op = opReplace) ∧ r.phase = phaseRegistryPending
  · obtain ⟨v, hv, htrace⟩ := trace_recoverRegistry_pending hk hs hpending.1 hpending.2
    rw [hv]
    exact htrace
  · have hregistry : (imageOf d).registry = k.registry := hk.symm
    unfold Image.verdict recoverRegistry
    simp only [hregistry, blobAt_imageOf (le_previousBlobSector r.slot)]
    by_cases hop : r.op = opInstall ∨ r.op = opReplace
    · have hphase : ¬ r.phase = phaseRegistryPending := fun h => hpending ⟨hop, h⟩
      rw [if_pos hop, if_pos hop, if_neg hphase, if_neg hphase]
      split_ifs <;> exact .pure _ d
    · rw [if_neg hop, if_neg hop]
      by_cases hrollback : r.op = opRollback
      · rw [if_pos hrollback, if_pos hrollback]
        by_cases hphase : r.phase = phaseRegistryPending
        · rw [if_pos hphase]
          by_cases hlen : r.rawLen ≤ maxRawBytes
          · refine (trace_readBlobArea hlen (within_previous hs)).bind_nil ?_
            simp only [hphase, hlen, true_and]
            by_cases hcrc : checksum (blobAt d (previousBlobSector r.slot) r.rawLen) = r.rawCrc
            · have hraw : (blobAt d (previousBlobSector r.slot) r.rawLen).length ≤ maxRawBytes :=
                length_toList.trans_le hlen
              rw [if_pos hcrc, if_pos hcrc, Option.elim_some, writesOf, List.flatMap_cons]
              exact (trace_writeBlobAt hraw (within_slot hs)).bind (.pure _ _)
            · rw [if_neg hcrc, if_neg hcrc]
              exact .pure _ d
          · rw [if_neg fun h => hlen h.2.1, readBlobArea, if_pos (.inr (by omega))]
            exact .pure _ d
        · rw [if_neg hphase, if_neg fun h => hphase h.1]
          exact .pure _ d
      · rw [if_neg hrollback, if_neg hrollback]
        split_ifs <;> exact .pure _ d

theorem decodeJournal_slot {raw : Bytes} (h : decodeJournal raw = .valid r) : r.slot < maxPkgs := by
  unfold decodeJournal at h
  split_ifs at h with h1 h2 h3 h4 h5
  obtain rfl := JournalState.valid.inj h
  have hslot : ¬ maxPkgs ≤ u32At raw 12 := fun hle => h5 (.inl hle)
  exact Nat.lt_of_not_le hslot

theorem trace_recover_plan (hk : k.registry = registryOf d)
    (h : (imageOf d).plan manual = some l) :
    ∃ k', (recoverFromJournal k manual).Trace d (true, k') (writesOf l) ∧ k'.degraded = false := by
  have hregistry : (imageOf d).registry = k.registry := hk.symm
  have hcommit (reg : Bytes) (e : Disk Sector) :
      (commitStore { k with registry := reg }).Trace e true (writesOf (commit reg)) := by
    rw [writesOf_commit]
    exact trace_commitStore
  have hjournal : (imageOf d).journal = journalOf d := rfl
  unfold Image.plan at h
  rw [hjournal] at h
  cases hdecode : decodeJournal (journalOf d) with
  | empty =>
    simp only [hdecode] at h
    obtain rfl := Option.some.inj h
    exact ⟨k.setDegraded false, trace_recover_empty hdecode, rfl⟩
  | corrupt fault =>
    simp only [hdecode] at h
    split_ifs at h with hmanual
    obtain rfl := Option.some.inj h
    let k' : Kernel := { k with registry := quarantinePendingSlots k.registry }
    refine ⟨{ k'.setDegraded false with loaded := false }, trace_readJournalRaw.bind_nil ?_, rfl⟩
    simp only [hdecode, hmanual, if_true, hregistry]
    rw [← List.append_nil (writesOf _)]
    exact (hcommit _ d).bind (.pure _ _)
  | valid r =>
    simp only [hdecode] at h
    obtain ⟨v, hv, rfl⟩ := Option.map_eq_some_iff.mp h
    have hrecover := trace_recoverRegistry hk (decodeJournal_slot hdecode)
    rw [hv] at hrecover
    let k' : Kernel := { k with registry := v.2 }
    refine ⟨{ k'.setDegraded false with loaded := false }, trace_readJournalRaw.bind_nil ?_, rfl⟩
    simp only [hdecode, writesOf_append]
    refine hrecover.bind ?_
    simp only [Option.map_some]
    rw [← List.append_nil (writesOf (commit v.2))]
    exact (hcommit v.2 _).bind (.pure _ _)

theorem trace_recover_refused (hk : k.registry = registryOf d)
    (h : (imageOf d).plan manual = none) :
    (recoverFromJournal k manual).Trace d (false, k.setDegraded true) [] := by
  have hjournal : (imageOf d).journal = journalOf d := rfl
  unfold Image.plan at h
  rw [hjournal] at h
  refine trace_readJournalRaw.bind_nil ?_
  cases hdecode : decodeJournal (journalOf d) with
  | empty => simp [hdecode] at h
  | corrupt fault =>
    simp only [hdecode] at h ⊢
    split_ifs at h with hmanual
    rw [if_neg hmanual]
    exact .pure _ d
  | valid r =>
    simp only [hdecode] at h ⊢
    have hrecover := trace_recoverRegistry hk (decodeJournal_slot hdecode)
    rw [Option.map_eq_none_iff.mp h] at hrecover
    exact hrecover.bind_nil (.pure _ d)

theorem trace_opening_plan (h : (imageOf d).plan false = some l) :
    ∃ k', (opening k).Trace d (true, k') (writesOf l) ∧
      k'.registry = registryOf (replay d (writesOf l)) ∧ k'.degraded = false := by
  obtain ⟨k1, htrace, hdegraded⟩ :=
    trace_recover_plan (k := { k with registry := registryOf d }) rfl h
  refine ⟨{ k1 with registry := registryOf (replay d (writesOf l)) }, ?_, rfl, hdegraded⟩
  refine trace_readRegistry.bind_nil ?_
  have hopen := htrace.bind (k := fun r => if r.1 then readRegistry r.2 else pure (false, r.2))
    trace_readRegistry
  rwa [List.append_nil] at hopen

theorem registryOf_plan (hz : ∀ i, registrySize ≤ i → reg i = 0) :
    registryOf (replay d (writesOf (l ++ commit reg))) = reg := by
  rw [writesOf_append, writesOf_commit, replay_append, registryOf_commit hz]

theorem journalOf_plan :
    journalOf (replay d (writesOf (l ++ commit reg))) = fun _ => 0 := by
  rw [writesOf_append, writesOf_commit, replay_append]
  exact journalOf_of_zero fun i hi => commit_journal hi

theorem blobs_plan (hs : 64 ≤ s) :
    replay d (writesOf (l ++ commit reg)) s = replay d (writesOf l) s := by
  rw [writesOf_append, writesOf_commit, replay_append, commit_of_le hs]

end

section
variable {e : Disk Sector} {unavailable : R} {body : Kernel → Program Sector (R × Kernel)}

def roomBefore (d : Disk Sector) (slot : ℕ) : ℕ :=
  ∑ t ∈ Finset.range slot, payloadLen d (registryOf d) t

theorem short_of_atRest (h : AtRest d) : Short (journalOf d) := by
  rw [h.journal]
  exact short_zero

theorem withStore_of_loaded (h : (k.loaded && !k.degraded) = true) :
    withStore k unavailable body = body k := by
  have hopen : ensureLoaded k = pure (true, k) := if_pos h
  rw [withStore, hopen]
  rfl

theorem withStore_of_opened (h : Opened k d) :
    withStore k unavailable body = body k :=
  withStore_of_loaded h.loaded

theorem trace_withStore {result : R} {w : List (ℕ × Sector)} (h : AtRest d)
    (hk : Synced k d)
    (hbody : ∀ k', k'.registry = registryOf d → ∃ k'', (body k').Trace d (result, k'') w) :
    ∃ k'', (withStore k unavailable body).Trace d (result, k'') w := by
  obtain ⟨k', ht, hreg⟩ := h.trace_ensureLoaded hk
  obtain ⟨k'', hbody⟩ := hbody k' hreg
  exact ⟨k'', ht.bind_nil hbody⟩

theorem roomBefore_add_le (h : AtRest d) (hs : slot < maxPkgs) :
    roomBefore d slot + payloadLen d (registryOf d) slot ≤ arenaSize := by
  have hsub : Finset.range (slot + 1) ⊆ Finset.range maxPkgs :=
    Finset.range_subset_range.mpr hs
  calc roomBefore d slot + payloadLen d (registryOf d) slot
      = ∑ t ∈ Finset.range (slot + 1), payloadLen d (registryOf d) t :=
        (Finset.sum_range_succ _ slot).symm
    _ ≤ payloadTotal d := Finset.sum_le_sum_of_subset hsub
    _ ≤ arenaSize := h.room

theorem validPayload_of_loadable (h : Loadable d reg slot) :
    validPayload d reg slot = payloadLen d reg slot := by
  unfold validPayload payloadLen
  split_ifs with hstate
  · obtain ⟨p, hp⟩ := h hstate
    rw [accepted_iff.mpr hp, hp.contents]
  · rfl

theorem arenaBefore_of_loadable (h : ∀ t < slot, Loadable d reg t)
    (hfit : ∑ t ∈ Finset.range slot, payloadLen d reg t ≤ arenaSize) :
    arenaBefore (fun _ => false) d reg slot = ∑ t ∈ Finset.range slot, payloadLen d reg t := by
  have hsum : ∑ t ∈ Finset.range slot, validPayload d reg t =
      ∑ t ∈ Finset.range slot, payloadLen d reg t :=
    Finset.sum_congr rfl fun t ht => validPayload_of_loadable (h t (Finset.mem_range.mp ht))
  have hall : AllLoaded (fun _ => false) d reg slot :=
    allLoaded_iff.mpr ⟨fun _ _ _ _ _ => rfl, hsum.trans_le hfit⟩
  rw [hall.arenaBefore_eq, hsum]

theorem arenaBefore_of_untouched (h : AtRest d) (hs : slot < maxPkgs)
    (hsame : ∀ t < slot, Untouched d e t) :
    arenaBefore (fun _ => false) e (registryOf e) slot = roomBefore d slot := by
  have hloadable (t : ℕ) (ht : t < slot) : Loadable d (registryOf d) t :=
    h.loadable t (ht.trans hs)
  have hsum : ∑ t ∈ Finset.range slot, payloadLen e (registryOf e) t = roomBefore d slot :=
    Finset.sum_congr rfl fun t ht =>
      (hsame t (Finset.mem_range.mp ht)).payloadLen_eq (hloadable t (Finset.mem_range.mp ht))
  have hroom := roomBefore_add_le h hs
  rw [arenaBefore_of_loadable (fun t ht => (hsame t ht).loadable (hloadable t ht)) (by omega), hsum]

end

section
variable {p : Inspected}

/-- The slot is active, its package is `raw` with the contents `p`, and the kernel has it
loaded. -/
structure Serves (after : (Bool × Kernel) × Disk Sector) (slot : ℕ) (raw : List UInt8)
    (p : Inspected) : Prop where
  usable : after.1.1 = true
  state : entryState (registryOf after.2) slot = stateActive
  blob : blobOf after.2 (registryOf after.2) slot = raw
  contents : inspect raw = some p
  entry : ∃ e, after.1.2.pkgs slot = some e ∧ e.name = p.name ∧ e.version = p.version ∧
    e.kind = p.kind ∧ e.mcaps = p.mcaps ∧ toList after.1.2.arena e.off e.len = p.payload

theorem eval_loadAll (hreg : k.registry = registryOf d) :
    ∃ k' d', (loadAll k).eval d = (k', d') ∧
      Progress (fun _ => false) d (registryOf d) maxPkgs k' ∧ Tracked d k' d' := by
  obtain ⟨reads', l, k', d', hrun, hprogress, htracked, -⟩ := runs_loadAll (fun _ => true) hreg
  have hnil : l = [] := hrun.failed.symm.trans (failedReads_reliable _ fun _ _ => rfl)
  subst hnil
  have heval : (loadAll k).eval d = (k', d') := by
    rw [← run_clean]
    exact hrun.run
  exact ⟨k', d', heval, hprogress.congr fun _ _ => rfl, htracked⟩

/-- The disk once the plan `l` has been carried out. -/
abbrev planned (d : Disk Sector) (l : List Phase) : Disk Sector := replay d (writesOf l)

section
variable (h : (imageOf d).plan false = some l)
include h

theorem reboot_plan :
    ∃ k', (reboot d).1 = (true, k') ∧ k'.loaded = true ∧
      Progress (fun _ => false) (planned d l) (registryOf (planned d l))
        maxPkgs k' ∧
      Tracked (planned d l) k' (reboot d).2 := by
  obtain ⟨k1, hopen, hreg, -⟩ := trace_opening_plan (k := .boot) h
  obtain ⟨k2, d2, hload, hprogress, htracked⟩ := eval_loadAll hreg
  have hboot : reboot d = ((true, { k2 with loaded := true }), d2) := by
    rw [reboot, ensureLoaded_eq, if_neg (by decide), eval_bind, hopen.eval, if_pos rfl, eval_bind,
      hload]
    rfl
  rw [hboot]
  exact ⟨_, rfl, rfl, ⟨hprogress.registry, hprogress.used, hprogress.pkgs, hprogress.arena⟩,
    ⟨htracked.registry, htracked.rest⟩⟩

theorem registryOf_reboot :
    registryOf (reboot d).2 = marked (fun _ => false) (planned d l)
      (registryOf (planned d l)) maxPkgs := by
  obtain ⟨k', -, -, hprogress, htracked⟩ := reboot_plan h
  rw [← htracked.registry, hprogress.registry]

theorem blobs_reboot (hs : 64 ≤ s) : (reboot d).2 s = planned d l s := by
  obtain ⟨k', -, -, -, htracked⟩ := reboot_plan h
  refine htracked.rest s (.inr ?_)
  unfold registrySector registrySectors
  omega

theorem entry_reboot {i : ℕ} (hi : 1 ≤ i)
    (hi' : i < entrySize) : registryOf (reboot d).2 (entryOff slot + i) =
      registryOf (planned d l) (entryOff slot + i) := by
  rw [registryOf_reboot h, marked_of_pos hi hi']

theorem entryState_reboot_of_ne
    (hstate : entryState (registryOf (planned d l)) slot ≠ stateActive) :
    entryState (registryOf (reboot d).2) slot =
      entryState (registryOf (planned d l)) slot := by
  rw [registryOf_reboot h, entryState_marked, if_neg fun hm => hstate hm.2.1]

theorem blobOf_reboot :
    blobOf (reboot d).2 (registryOf (reboot d).2) slot =
      blobOf (planned d l) (registryOf (planned d l)) slot := by
  have hbase := le_slotBlobSector slot
  have hlen : u32At (registryOf (reboot d).2) (entryOff slot + 12) =
      u32At (registryOf (planned d l)) (entryOff slot + 12) :=
    u32At_congr_add fun j h1 h2 => entry_reboot h (by omega) (by unfold entrySize; omega)
  rw [blobOf, hlen, blobOf]
  exact blobAt_congr fun j _ => blobs_reboot h (by omega)

theorem serves_reboot (hs : slot < maxPkgs)
    (hstate : entryState (registryOf (planned d l)) slot = stateActive)
    (hp : Loads (planned d l) (registryOf (planned d l)) slot p)
    (hfit : arenaBefore (fun _ => false) (planned d l)
      (registryOf (planned d l)) slot + p.payload.length ≤ arenaSize) :
    Serves (reboot d) slot
      (blobOf (planned d l) (registryOf (planned d l)) slot) p := by
  have hloaded : loadedAt (fun _ => false) (planned d l)
      (registryOf (planned d l)) slot = some p :=
    loadedAt_eq_some.mpr ⟨hstate, rfl, accepted_iff.mpr hp, hfit⟩
  obtain ⟨k', hboot, -, hprogress, -⟩ := reboot_plan h
  refine ⟨?_, ?_, blobOf_reboot h, hp.contents, ?_⟩
  · rw [hboot]
  · rw [registryOf_reboot h, entryState_marked, if_neg ?_, hstate]
    rw [hloaded]
    exact fun hm => Option.some_ne_none p hm.2.2
  · rw [hboot]
    refine ⟨runtimeEntry _ _ _ slot p, ?_, rfl, rfl, rfl, rfl, hprogress.arena slot hs p hloaded⟩
    rw [hprogress.pkgs, if_pos hs, hloaded]
    rfl

theorem corrupt_reboot (hs : slot < maxPkgs)
    (hstate : entryState (registryOf (planned d l)) slot = stateActive)
    (hp : Loads (planned d l) (registryOf (planned d l)) slot p)
    (hfit : arenaSize < arenaBefore (fun _ => false) (planned d l)
      (registryOf (planned d l)) slot + p.payload.length) :
    entryState (registryOf (reboot d).2) slot = stateCorrupt := by
  rw [registryOf_reboot h, entryState_marked]
  refine if_pos ⟨hs, hstate, ?_⟩
  rw [Option.eq_none_iff_forall_ne_some]
  intro q hq
  obtain ⟨-, -, haccepted, hroom⟩ := loadedAt_eq_some.mp hq
  rw [accepted_iff.mpr hp] at haccepted
  obtain rfl := Option.some.inj haccepted
  omega

theorem loads_of_active_reboot (hs : slot < maxPkgs)
    (hactive : entryState (registryOf (reboot d).2) slot = stateActive) :
    entryState (registryOf (planned d l)) slot = stateActive ∧
      ∃ p, Loads (planned d l) (registryOf (planned d l)) slot p ∧
        arenaBefore (fun _ => false) (planned d l)
          (registryOf (planned d l)) slot + p.payload.length ≤ arenaSize := by
  rw [registryOf_reboot h, entryState_marked] at hactive
  split_ifs at hactive with hmarked
  · exact absurd hactive (by decide)
  · refine ⟨hactive, ?_⟩
    cases hloaded : loadedAt (fun _ => false) (planned d l)
        (registryOf (planned d l)) slot with
    | none => exact absurd ⟨hs, hactive, hloaded⟩ hmarked
    | some p =>
      obtain ⟨-, -, haccepted, hfit⟩ := loadedAt_eq_some.mp hloaded
      exact ⟨p, accepted_iff.mp haccepted, hfit⟩

theorem active_or_corrupt (hstate : entryState (registryOf (planned d l)) slot = stateActive) :
    entryState (registryOf (reboot d).2) slot = stateActive ∨
      entryState (registryOf (reboot d).2) slot = stateCorrupt := by
  rw [registryOf_reboot h, entryState_marked]
  split_ifs
  · exact .inr rfl
  · exact .inl hstate

theorem untouched_reboot (hs : slot < maxPkgs)
    (hactive : entryState (registryOf (reboot d).2) slot = stateActive) :
    Untouched (planned d l) (reboot d).2 slot := by
  have hbase := le_slotBlobSector slot
  refine ⟨fun i hi => ?_, fun i _ => blobs_reboot h (by omega)⟩
  cases i with
  | zero => exact hactive.trans (loads_of_active_reboot h hs hactive).1.symm
  | succ i => exact entry_reboot h (Nat.succ_pos i) hi

theorem sameHead_reboot (hs : slot < maxPkgs)
    (hactive : entryState (registryOf (reboot d).2) slot = stateActive) :
    SameHead (registryOf (planned d l)) (registryOf (reboot d).2) slot :=
  fun i hi _ => (untouched_reboot h hs hactive).entry i (by unfold entrySize; omega)

theorem reboot_of_loadable (hloadable : ∀ t < maxPkgs,
      Loadable (planned d l) (registryOf (planned d l)) t)
    (hroom : payloadTotal (planned d l) ≤ arenaSize) :
    (reboot d).1.1 = true ∧ (reboot d).2 = planned d l ∧
      Opened (reboot d).1.2 (planned d l) := by
  obtain ⟨k', htrace, hreg, hloaded, hdegraded⟩ := trace_ensureLoaded (k := .boot) rfl
    (fun k hk => trace_recover_plan hk h) hloadable hroom
  rw [reboot, htrace.eval]
  refine ⟨rfl, rfl, ?_, hreg⟩
  rw [hloaded, hdegraded]
  rfl

end

theorem reboot_atRest (hrest : AtRest d) :
    (reboot d).1.1 = true ∧ (reboot d).2 = d ∧ Opened (reboot d).1.2 d :=
  reboot_of_loadable (l := []) (plan_of_zero hrest.journal) hrest.loadable hrest.room

theorem reboot_of_loads {room : ℕ} (h : (imageOf d).plan false = some l) (hs : slot < maxPkgs)
    (hstate : entryState (registryOf (planned d l)) slot = stateActive)
    (hp : Loads (planned d l) (registryOf (planned d l)) slot p)
    (harena : arenaBefore (fun _ => false) (planned d l)
      (registryOf (planned d l)) slot = room) :
    (room + p.payload.length ≤ arenaSize ∧
      Serves (reboot d) slot
        (blobOf (planned d l) (registryOf (planned d l)) slot) p ∧
      SameHead (registryOf (planned d l)) (registryOf (reboot d).2) slot) ∨
    (¬ room + p.payload.length ≤ arenaSize ∧
      entryState (registryOf (reboot d).2) slot = stateCorrupt) := by
  subst harena
  by_cases hfit : arenaBefore (fun _ => false) (planned d l)
      (registryOf (planned d l)) slot + p.payload.length ≤ arenaSize
  · have hserves := serves_reboot h hs hstate hp hfit
    exact .inl ⟨hfit, hserves, sameHead_reboot h hs hserves.state⟩
  · exact .inr ⟨hfit, corrupt_reboot h hs hstate hp (by omega)⟩

theorem kept_reboot {c : Disk Sector} (h : (imageOf c).plan false = some l) (hrest : AtRest d)
    (hs : slot < maxPkgs) (hsame : ∀ t ≤ slot, Untouched d (planned c l) t)
    (hactive : entryState (registryOf d) slot = stateActive) (hp : Loads d (registryOf d) slot p) :
    EntryKept d (reboot c).2 slot ∧ Serves (reboot c) slot (blobOf d (registryOf d) slot) p := by
  have hslot := hsame slot le_rfl
  have hlen : payloadLen d (registryOf d) slot = p.payload.length := by
    rw [payloadLen, if_pos hactive, hp.contents]
    rfl
  have hroom := roomBefore_add_le hrest hs
  have harena := arenaBefore_of_untouched hrest hs fun t ht => hsame t ht.le
  have hserves := serves_reboot h hs (hslot.state.trans hactive) (hslot.loads hp) (by omega)
  rw [hslot.blobOf_eq hp] at hserves
  exact ⟨fun i hi => ((untouched_reboot h hs hserves.state).entry i hi).trans (hslot.entry i hi),
    hserves⟩

end

end Dezh.StorePhases

import Dezh.PackageCodec

/-!
# Traces of the sector loops

The bytes of consecutive sectors form one buffer. A loop of sector reads returns
that buffer and writes nothing; a loop of sector writes puts a buffer into
consecutive sectors. Every function of the package store that only moves sectors has
a trace in these terms.
-/
namespace Dezh.PackageAreas
open BlockProgram ByteLayout CairnFormat CairnService BlockDaemon PackageStore

variable {d : Disk Sector} {data : Bytes} {first n i : ℕ}

def image (d : Disk Sector) (first : ℕ) : Bytes := fun i =>
  bytes (d (first + i / sectorSize)) (i % sectorSize)

def area (d : Disk Sector) (first n : ℕ) : Bytes := copy (fun _ => 0) 0 (image d first) (n * sectorSize)

def sectorAt (data : Bytes) (i : ℕ) : Sector := take sectorSize (slice data i)

section
variable {d' : Disk Sector}

theorem area_of_lt (h : i < n * sectorSize) : area d first n i = image d first i := by
  have hcopy : copy (fun _ => 0) 0 (image d first) (n * sectorSize) (0 + i) = image d first i :=
    copy_inside h
  rwa [Nat.zero_add] at hcopy

theorem area_of_le (h : n * sectorSize ≤ i) : area d first n i = 0 :=
  copy_of_outside (by omega)

theorem image_eq (h : d (first + i / sectorSize) = sectorAt data (i / sectorSize)) :
    image d first i = data i := by
  have hi : i % sectorSize < sectorSize := Nat.mod_lt _ (by decide)
  rw [image, h, sectorAt, bytes_take hi, slice, Nat.div_add_mod]

theorem image_at {r : ℕ} (hr : r < sectorSize) :
    image d first (sectorSize * i + r) = bytes (d (first + i)) r := by
  rw [image, Nat.mul_add_div (by decide), Nat.div_eq_of_lt hr, Nat.add_zero, Nat.mul_add_mod,
    Nat.mod_eq_of_lt hr]

theorem image_congr (h : d (first + i / sectorSize) = d' (first + i / sectorSize)) :
    image d first i = image d' first i := by rw [image, h, image]

theorem area_eq (h : ∀ j < n, d (first + j) = sectorAt data j)
    (hz : ∀ i, n * sectorSize ≤ i → data i = 0) : area d first n = data := by
  funext i
  by_cases hi : i < n * sectorSize
  · rw [area_of_lt hi]
    exact image_eq (h _ (Nat.div_lt_of_lt_mul (by rwa [Nat.mul_comm])))
  · rw [area_of_le (by omega), hz i (by omega)]

end

section
variable {a : PkgArea} {s : ℕ} {buf : Bytes}

/-- The sectors `first` up to `first + n` belong to an area of the daemon. -/
def Within (a : PkgArea) (first n : ℕ) : Prop := a.first ≤ first ∧ first + n ≤ a.last + 1

theorem readSector_eq (h : Within a s 1) : readSector a s = .read s .done := by
  have hs : ¬ (s < a.first ∨ a.last < s) := by
    unfold Within at h
    omega
  simp only [readSector, pkgRead, hs, if_false, access, rw, Bool.false_eq_true, Program.read_bind]
  congr 1
  funext r
  cases r with
  | none => rfl
  | some b => simp [statusFromIo, Program.pure_eq]

theorem writeSector_eq (h : Within a s 1) :
    writeSector a s data = .write s (take sectorSize data) .done := by
  have hs : ¬ (s < a.first ∨ a.last < s) := by
    unfold Within at h
    omega
  have hdata : take sectorSize (copyInput (fun _ => 0) data sectorSize) = take sectorSize data := by
    refine take_congr fun i hi => ?_
    have hcopy : copyInput (fun _ => 0) data sectorSize (0 + i) = data i := copy_inside hi
    rwa [Nat.zero_add] at hcopy
  simp only [writeSector, pkgWrite, hs, if_false, access, rw, if_true, Program.write_bind, hdata]
  congr 1
  funext r
  cases r <;> rfl

theorem trace_readSector (h : Within a s 1) : (readSector a s).Trace d (some (d s)) [] := by
  rw [readSector_eq h]
  exact ⟨rfl, rfl⟩

theorem trace_writeSector (h : Within a s 1) :
    (writeSector a s data).Trace d true [(s, take sectorSize data)] := by
  rw [writeSector_eq h]
  exact ⟨rfl, rfl⟩

theorem copy_image_succ :
    copy (copy buf (sectorSize * i) (bytes (d (first + i))) sectorSize) (sectorSize * (i + 1))
        (fun j => image d first (sectorSize * (i + 1) + j)) (sectorSize * n) =
      copy buf (sectorSize * i) (fun j => image d first (sectorSize * i + j))
        (sectorSize * (n + 1)) := by
  funext j
  simp only [Nat.mul_add, Nat.mul_one]
  by_cases hlow : j < sectorSize * i
  · rw [copy_of_outside (by omega), copy_of_outside (by omega), copy_of_outside (by omega)]
  · obtain ⟨r, rfl⟩ : ∃ r, j = sectorSize * i + r := ⟨j - sectorSize * i, by omega⟩
    by_cases hr : r < sectorSize
    · rw [copy_of_outside (by omega), copy_inside hr, copy_inside (by omega), image_at hr]
    · obtain ⟨q, rfl⟩ : ∃ q, r = sectorSize + q := ⟨r - sectorSize, by omega⟩
      by_cases hq : q < sectorSize * n
      · rw [copy_inside (by omega), ← Nat.add_assoc, copy_inside hq]
      · rw [copy_of_outside (by omega), copy_of_outside (by omega), copy_of_outside (by omega)]

theorem trace_readSectors (h : Within a (first + i) n) :
    (readSectors a first n i buf).Trace d
      (some (copy buf (sectorSize * i) (fun j => image d first (sectorSize * i + j))
        (sectorSize * n))) [] := by
  induction n generalizing i buf with
  | zero =>
    have hbuf : copy buf (sectorSize * i) (fun j => image d first (sectorSize * i + j))
        (sectorSize * 0) = buf := funext fun j => copy_of_outside (by omega)
    rw [hbuf]
    exact .pure _ d
  | succ n ih =>
    unfold Within at h
    rw [← copy_image_succ]
    refine (trace_readSector ⟨h.1, by omega⟩).bind_nil (ih ?_)
    exact ⟨by omega, by omega⟩

theorem trace_readArea (h : Within a first n) :
    (readSectors a first n 0 fun _ => 0).Trace d (some (area d first n)) [] := by
  have hloop : (readSectors a first n 0 fun _ => 0).Trace d
      (some (copy (fun _ => 0) (sectorSize * 0) (fun j => image d first (sectorSize * 0 + j))
        (sectorSize * n))) [] := trace_readSectors h
  simpa only [area, Nat.mul_zero, Nat.zero_add, Nat.mul_comm] using hloop

theorem trace_writeSectors (h : Within a (first + i) n) :
    (writeSectors a first data n i).Trace d true
      (stripe (first + i) (fun j => sectorAt data (i + j)) n) := by
  induction n generalizing i d with
  | zero => exact .pure _ d
  | succ n ih =>
    unfold Within at h
    have hfirst : stripe (first + i) (fun j => sectorAt data (i + j)) (n + 1) =
        [(first + i, take sectorSize (slice data i))] ++
          stripe (first + (i + 1)) (fun j => sectorAt data (i + 1 + j)) n := by
      simp only [stripe_succ, Nat.add_assoc, Nat.add_comm 1]
      rfl
    rw [hfirst]
    exact (trace_writeSector ⟨h.1, by omega⟩).bind (ih ⟨by omega, by omega⟩)

theorem trace_writeArea (h : Within a first n) :
    (writeSectors a first data n 0).Trace d true (stripe first (sectorAt data) n) := by
  have hloop : (writeSectors a first data n 0).Trace d true
      (stripe (first + 0) (fun j => sectorAt data (0 + j)) n) := trace_writeSectors h
  simpa only [Nat.add_zero, Nat.zero_add] using hloop

end

def registryOf (d : Disk Sector) : Bytes := area d registrySector registrySectors

def journalOf (d : Disk Sector) : Bytes := area d journalSector journalSectors

def blobAt (d : Disk Sector) (base len : ℕ) : List UInt8 := toList (image d base) 0 len

def registryWrites (reg : Bytes) : List (ℕ × Sector) :=
  stripe registrySector (sectorAt reg) registrySectors

def journalWrites (raw : Bytes) : List (ℕ × Sector) :=
  stripe journalSector (sectorAt raw) journalSectors

def blobWrites (base : ℕ) (raw : List UInt8) : List (ℕ × Sector) :=
  stripe base (sectorAt (ofList raw)) (sectorsFor raw.length)

def markerWrites : List (ℕ × Sector) :=
  stripe pkgStoreMarkerSector (sectorAt (setData (fun _ => 0) pkgStoreMarker)) 1

def commitWrites (reg : Bytes) : List (ℕ × Sector) :=
  registryWrites reg ++ (markerWrites ++ journalWrites fun _ => 0)

section
variable {k : Kernel} {raw : List UInt8} {base rawLen : ℕ}

theorem trace_readRegistry :
    (readRegistry k).Trace d (true, { k with registry := registryOf d }) [] :=
  (trace_readArea ⟨le_rfl, by decide⟩).bind_nil (.pure _ d)

theorem trace_writeRegistry : (writeRegistry k).Trace d true (registryWrites k.registry) :=
  trace_writeArea ⟨le_rfl, by decide⟩

theorem trace_readJournalRaw : readJournalRaw.Trace d (some (journalOf d)) [] :=
  trace_readArea ⟨le_rfl, by decide⟩

theorem trace_writeJournalRaw {data : Bytes} :
    (writeJournalRaw data).Trace d true (journalWrites data) :=
  trace_writeArea ⟨le_rfl, by decide⟩

theorem trace_initStoreMarker : initStoreMarker.Trace d true markerWrites := by
  have hslice (data : Bytes) : slice data 0 = data := by
    funext i
    rw [slice, Nat.mul_zero, Nat.zero_add]
  refine ⟨?_, ?_⟩ <;>
    simp [initStoreMarker, pkgStoreInit, access, rw, statusFromIo, Program.writes, Program.pure_eq,
      markerWrites, stripe, sectorAt, hslice]

theorem trace_commitStore : (commitStore k).Trace d true (commitWrites k.registry) :=
  trace_writeRegistry.bind (trace_initStoreMarker.bind trace_writeJournalRaw)

theorem le_sectorsFor (n : ℕ) : n ≤ sectorsFor n * sectorSize := by
  unfold sectorsFor sectorSize
  omega

theorem sectorsFor_le (h : rawLen ≤ maxRawBytes) : sectorsFor rawLen ≤ slotSectors := by
  unfold maxRawBytes slotSectors sectorSize at h
  unfold sectorsFor sectorSize slotSectors
  omega

theorem div_lt_sectorsFor {i : ℕ} (h : i < rawLen) : i / sectorSize < sectorsFor rawLen := by
  unfold sectorsFor sectorSize
  omega

theorem blobAt_congr {d' : Disk Sector}
    (h : ∀ j < sectorsFor rawLen, d (base + j) = d' (base + j)) :
    blobAt d base rawLen = blobAt d' base rawLen :=
  toList_congr fun i hi => by
    rw [Nat.zero_add]
    exact image_congr (h _ (div_lt_sectorsFor hi))

theorem blobAt_eq (h : ∀ j < sectorsFor raw.length, d (base + j) = sectorAt (ofList raw) j) :
    blobAt d base raw.length = raw := by
  have hbytes : blobAt d base raw.length = toList (ofList raw) 0 raw.length :=
    toList_congr fun i hi => by
      rw [Nat.zero_add]
      exact image_eq (h _ (div_lt_sectorsFor hi))
  rw [hbytes, toList_ofList]

theorem not_oversized (hl : rawLen ≤ maxRawBytes) :
    ¬ (stageSize < rawLen ∨ maxRawBytes < rawLen) := by
  have : maxRawBytes ≤ stageSize := by decide
  omega

theorem trace_readBlobArea (hl : rawLen ≤ maxRawBytes) (hb : Within .blob base slotSectors) :
    (readBlobArea base rawLen).Trace d (some (blobAt d base rawLen)) [] := by
  have hsectors := sectorsFor_le hl
  have hread : (readSectors .blob base (sectorsFor rawLen) 0 fun _ => 0).Trace d
      (some (area d base (sectorsFor rawLen))) [] :=
    trace_readArea ⟨hb.1, by have := hb.2; omega⟩
  have hbytes : toList (area d base (sectorsFor rawLen)) 0 rawLen = blobAt d base rawLen :=
    toList_congr fun i hi => area_of_lt (by have := le_sectorsFor rawLen; omega)
  rw [readBlobArea, if_neg (not_oversized hl), ← hbytes]
  exact hread.bind_nil (.pure _ d)

theorem trace_writeBlobAt (hl : raw.length ≤ maxRawBytes) (hb : Within .blob base slotSectors) :
    (writeBlobAt base raw).Trace d true (blobWrites base raw) := by
  have hsectors := sectorsFor_le hl
  exact trace_writeArea ⟨hb.1, by have := hb.2; omega⟩

end

end Dezh.PackageAreas

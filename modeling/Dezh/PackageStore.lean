import Dezh.PackageFormat
import Dezh.BlockDaemon

/-!
# The package store

Eight slots. The registry holds one entry of 128 bytes per slot in two sectors, the
journal one record in eight sectors, and every slot has an area of 64 sectors for
its package. All sectors are read and written through the block daemon.
-/
namespace Dezh.PackageStore
open BlockProgram ByteLayout CairnFormat BlockDaemon PackageFormat

def stageSize : ℕ := 64 * 1024
def arenaSize : ℕ := 128 * 1024
def maxPkgs : ℕ := 8
def nameMax : ℕ := 24
def verMax : ℕ := 12
def entrySize : ℕ := 128
def registrySectors : ℕ := 2
def registrySize : ℕ := registrySectors * sectorSize
def journalSectors : ℕ := 8
def journalSize : ℕ := journalSectors * sectorSize
def slotSectors : ℕ := 64
def maxRawBytes : ℕ := slotSectors * sectorSize

def stateEmpty : UInt8 := 0
def stateActive : UInt8 := 1
def stateRemoved : UInt8 := 2
def stateCorrupt : UInt8 := 3
def statePendingInstall : UInt8 := 4
def statePendingRemove : UInt8 := 5
def stateQuarantined : UInt8 := 6

def registrySector : ℕ := 25
def journalSector : ℕ := 32
def slotBlobSector (slot : ℕ) : ℕ := 64 + slot * slotSectors
def previousBlobSector (slot : ℕ) : ℕ := 576 + slot * slotSectors
def stageBlobSector (slot : ℕ) : ℕ := 1088 + slot * slotSectors

def sectorsFor (len : ℕ) : ℕ := (len + (sectorSize - 1)) / sectorSize

/-- Read one sector through the daemon. The window of an answered read is the
sector, whatever it was before. -/
def readSector (area : PkgArea) (sector : ℕ) : Program Sector (Option Sector) := do
  let a ← pkgRead area (fun _ => 0) sector
  pure (if a.value = .ok then some (take sectorSize a.window) else none)

/-- Write one sector through the daemon. The data is what the input page holds:
the bytes to write, followed by zeros. -/
def writeSector (area : PkgArea) (sector : ℕ) (data : Bytes) : Program Sector Bool := do
  let a ← pkgWrite area data (fun _ => 0) sector
  pure (decide (a.value = .ok))

def readSectors (area : PkgArea) (first : ℕ) : ℕ → ℕ → Bytes → Program Sector (Option Bytes)
  | 0, _, buf => pure (some buf)
  | n + 1, i, buf => do
    match ← readSector area (first + i) with
    | some s => readSectors area first n (i + 1) (copy buf (sectorSize * i) (bytes s) sectorSize)
    | none => pure none

def slice (data : Bytes) (i : ℕ) : Bytes := fun j => data (sectorSize * i + j)

def writeSectors (area : PkgArea) (first : ℕ) (data : Bytes) : ℕ → ℕ → Program Sector Bool
  | 0, _ => pure true
  | n + 1, i => do
    if ← writeSector area (first + i) (slice data i) then writeSectors area first data n (i + 1)
    else pure false

def initStoreMarker : Program Sector Bool := do
  let a ← pkgStoreInit fun _ => 0
  pure (decide (a.value = .ok))

def writeBlobAt (base : ℕ) (raw : List UInt8) : Program Sector Bool :=
  writeSectors .blob base (ofList raw) (sectorsFor raw.length) 0

def readBlobArea (base rawLen : ℕ) : Program Sector (Option (List UInt8)) :=
  if stageSize < rawLen ∨ maxRawBytes < rawLen then pure none
  else do
    let buf ← readSectors .blob base (sectorsFor rawLen) 0 fun _ => 0
    pure (buf.map fun b => toList b 0 rawLen)

def copyBlobArea (source target rawLen : ℕ) : Program Sector Bool :=
  if rawLen = 0 ∨ maxRawBytes < rawLen then pure false
  else do
    match ← readBlobArea source rawLen with
    | some raw => writeBlobAt target raw
    | none => pure false

def journalMagic : List UInt8 := ascii "DPJ0"
def journalVersion : UInt8 := 1
def opInstall : UInt8 := 1
def opRemove : UInt8 := 2
def opReplace : UInt8 := 3
def opRollback : UInt8 := 4
def phaseStarted : UInt8 := 1
def phaseBlobWritten : UInt8 := 2
def phaseRegistryPending : UInt8 := 3

/-- One transaction. The name and the version are the bytes that count of the
fixed arrays. -/
structure JournalRecord where
  op : UInt8
  phase : UInt8
  slot : ℕ
  oldState : UInt8
  newState : UInt8
  mcaps : ℕ
  rawLen : ℕ
  rawCrc : ℕ
  blobStart : ℕ
  blobCount : ℕ
  registryBeforeCrc : ℕ
  registryAfterCrc : ℕ
  name : Text
  version : Text
  deriving DecidableEq, Repr

def asText (s : Text) : Text := if isUtf8 s then s else ascii "<bad>"

inductive JournalFault where
  | badMagic | badVersion | checksumMismatch | fieldOutOfRange
  deriving DecidableEq, Repr

inductive JournalState where
  | empty
  | valid (record : JournalRecord)
  | corrupt (fault : JournalFault)
  deriving DecidableEq, Repr

def offJournalCrc : ℕ := 52

def decodeRecord (raw : Bytes) : JournalRecord where
  op := raw 5
  phase := raw 6
  slot := u32At raw 12
  oldState := raw 16
  newState := raw 17
  mcaps := u32At raw 24
  rawLen := u32At raw 28
  rawCrc := u32At raw 32
  blobStart := u32At raw 36
  blobCount := u32At raw 40
  registryBeforeCrc := u32At raw 44
  registryAfterCrc := u32At raw 48
  name := toList raw 64 (raw 56).toNat
  version := toList raw 88 (raw 57).toNat

def decodeJournal (raw : Bytes) : JournalState :=
  if (toList raw 0 journalSize).all (· == 0) then .empty
  else if toList raw 0 4 ≠ journalMagic then .corrupt .badMagic
  else if raw 4 ≠ journalVersion then .corrupt .badVersion
  else if checksum (toList (putU32 raw offJournalCrc 0) 0 journalSize) ≠ u32At raw offJournalCrc then
    .corrupt .checksumMismatch
  else if maxPkgs ≤ u32At raw 12 ∨ nameMax < (raw 56).toNat ∨ verMax < (raw 57).toNat then
    .corrupt .fieldOutOfRange
  else .valid (decodeRecord raw)

def encodeFields (rec : JournalRecord) : Bytes :=
  let raw := copy (fun _ => 0) 0 (ofList journalMagic) 4
  let raw := putU8 raw 4 journalVersion
  let raw := putU8 raw 5 rec.op
  let raw := putU8 raw 6 rec.phase
  let raw := putU32 raw 8 1
  let raw := putU32 raw 12 rec.slot
  let raw := putU8 raw 16 rec.oldState
  let raw := putU8 raw 17 rec.newState
  let raw := putU32 raw 24 rec.mcaps
  let raw := putU32 raw 28 rec.rawLen
  let raw := putU32 raw 32 rec.rawCrc
  let raw := putU32 raw 36 rec.blobStart
  let raw := putU32 raw 40 rec.blobCount
  let raw := putU32 raw 44 rec.registryBeforeCrc
  let raw := putU32 raw 48 rec.registryAfterCrc
  let raw := putU8 raw 56 (UInt8.ofNat rec.name.length)
  let raw := putU8 raw 57 (UInt8.ofNat rec.version.length)
  let raw := copy raw 64 (ofList rec.name) rec.name.length
  copy raw 88 (ofList rec.version) rec.version.length

def encodeJournal (rec : JournalRecord) : Bytes :=
  putU32 (encodeFields rec) offJournalCrc (checksum (toList (encodeFields rec) 0 journalSize))

def readJournalRaw : Program Sector (Option Bytes) :=
  readSectors .journal journalSector journalSectors 0 fun _ => 0

def writeJournalRaw (raw : Bytes) : Program Sector Bool :=
  writeSectors .journal journalSector raw journalSectors 0

def clearJournal : Program Sector Bool := writeJournalRaw fun _ => 0

def writeJournal (rec : JournalRecord) : Program Sector Bool := writeJournalRaw (encodeJournal rec)

def regMagic : List UInt8 := ascii "DPKG"

def entryOff (slot : ℕ) : ℕ := slot * entrySize

def entryState (reg : Bytes) (slot : ℕ) : UInt8 := reg (entryOff slot)

def entryText (reg : Bytes) (len off limit : ℕ) : Text :=
  if len = 0 ∨ limit < len then []
  else if isUtf8 (toList reg off len) then toList reg off len else []

def entryName (reg : Bytes) (slot : ℕ) : Text :=
  entryText reg (reg (entryOff slot + 32)).toNat (entryOff slot + 40) nameMax

def entryVersion (reg : Bytes) (slot : ℕ) : Text :=
  entryText reg (reg (entryOff slot + 33)).toNat (entryOff slot + 40 + nameMax) verMax

def setEntryState (reg : Bytes) (slot : ℕ) (state : UInt8) : Bytes :=
  putU8 reg (entryOff slot) state

def clearRegistrySlot (reg : Bytes) (slot : ℕ) : Bytes :=
  copy reg (entryOff slot) (fun _ => 0) entrySize

def encodeRegistryEntry (reg : Bytes) (slot : ℕ) (state : UInt8) (name version : Text)
    (kind mcaps rawLen rawCrc : ℕ) : Bytes :=
  let e := entryOff slot
  let reg := clearRegistrySlot reg slot
  let reg := putU8 reg e state
  let reg := copy reg (e + 1) (ofList regMagic) 4
  let reg := putU8 reg (e + 5) (UInt8.ofNat slot)
  let reg := putU16 reg (e + 6) kind
  let reg := putU32 reg (e + 8) mcaps
  let reg := putU32 reg (e + 12) rawLen
  let reg := putU32 reg (e + 16) rawCrc
  let reg := putU32 reg (e + 20) (slotBlobSector slot)
  let reg := putU32 reg (e + 24) slotSectors
  let reg := putU8 reg (e + 32) (UInt8.ofNat name.length)
  let reg := putU8 reg (e + 33) (UInt8.ofNat version.length)
  let reg := copy reg (e + 40) (ofList name) name.length
  copy reg (e + 40 + nameMax) (ofList version) version.length

/-- The slot of a package: the one that holds its name, or the first removed one,
or the first empty one. -/
def registrySlotFor (reg : Bytes) (name : Text) : Option ℕ :=
  let slots := List.range maxPkgs
  let named := slots.find? fun slot =>
    entryState reg slot != stateEmpty && entryName reg slot == name
  let removed := slots.find? fun slot => entryState reg slot == stateRemoved
  let empty := slots.find? fun slot => entryState reg slot == stateEmpty
  named.or (removed.or empty)

def quarantinePendingSlots (reg : Bytes) : Bytes :=
  (List.range maxPkgs).foldl (fun reg slot =>
    if entryState reg slot = statePendingInstall ∨ entryState reg slot = statePendingRemove
    then setEntryState reg slot stateQuarantined else reg) reg

def rollbackSlotToOldState (reg : Bytes) (rec : JournalRecord) : Bytes :=
  if rec.oldState = stateEmpty then clearRegistrySlot reg rec.slot
  else setEntryState reg rec.slot rec.oldState

/-- A package loaded into the runtime arena. -/
structure PkgEntry where
  slot : ℕ
  name : Text
  version : Text
  kind : ℕ
  mcaps : ℕ
  rawLen : ℕ
  rawCrc : ℕ
  off : ℕ
  len : ℕ

/-- The state of the package module in memory. -/
structure Kernel where
  registry : Bytes
  pkgs : ℕ → Option PkgEntry
  arena : Bytes
  arenaUsed : ℕ
  loaded : Bool
  degraded : Bool

def Kernel.boot : Kernel where
  registry := fun _ => 0
  pkgs := fun _ => none
  arena := fun _ => 0
  arenaUsed := 0
  loaded := false
  degraded := false

def Kernel.clearRuntimeRegistry (k : Kernel) : Kernel :=
  { k with pkgs := fun _ => none, arenaUsed := 0 }

def Kernel.setDegraded (k : Kernel) (v : Bool) : Kernel :=
  if v then { k.clearRuntimeRegistry with degraded := true, loaded := false }
  else { k with degraded := false }

def readRegistry (k : Kernel) : Program Sector (Bool × Kernel) := do
  match ← readSectors .registry registrySector registrySectors 0 fun _ => 0 with
  | some reg => pure (true, { k with registry := reg })
  | none => pure (false, k)

def writeRegistry (k : Kernel) : Program Sector Bool :=
  writeSectors .registry registrySector k.registry registrySectors 0

/-- What the manifest of a verified package says. -/
structure Inspected where
  kind : ℕ
  name : Text
  version : Text
  mcaps : ℕ
  payload : List UInt8
  deriving DecidableEq, Repr

def defaultVersion : Text := ascii "0.0.0"

def inspect (raw : List UInt8) : Option Inspected :=
  match parse raw with
  | .error _ => none
  | .ok pkg =>
    match verifyPayload pkg, manifestStr pkg.manifest (ascii "name"), parseMcaps pkg.manifest with
    | .ok _, some name, .ok mcaps =>
      let version := (manifestStr pkg.manifest (ascii "version")).getD defaultVersion
      some ⟨pkg.kind, name, version, mcaps, pkg.payload⟩
    | _, _, _ => none

def verifyBlobRecordAt (base : ℕ) (rec : JournalRecord) : Program Sector Bool :=
  if rec.rawLen = 0 ∨ maxRawBytes < rec.rawLen ∨ rec.blobCount ≠ sectorsFor rec.rawLen then
    pure false
  else do
    match ← readBlobArea base rec.rawLen with
    | none => pure false
    | some raw =>
      if checksum raw ≠ rec.rawCrc then pure false
      else
        match inspect raw with
        | none => pure false
        | some p => pure (decide (p.name = asText rec.name ∧ p.version = asText rec.version ∧
            p.mcaps = rec.mcaps))

def verifySlotBlob (rec : JournalRecord) : Program Sector Bool :=
  verifyBlobRecordAt (slotBlobSector rec.slot) rec

def verifyStageBlob (rec : JournalRecord) : Program Sector Bool :=
  verifyBlobRecordAt (stageBlobSector rec.slot) rec

/-- The last steps of a recovery and of an install: the registry, the marker, and
the journal is cleared. -/
def commitStore (k : Kernel) : Program Sector Bool := do
  if ← writeRegistry k then
    if ← initStoreMarker then clearJournal else pure false
  else pure false

/-- The registry that a valid journal record asks for. `none` means that the
record cannot be acted on. -/
def recoverRegistry (k : Kernel) (rec : JournalRecord) : Program Sector (Option Bytes) :=
  if rec.op = opInstall ∨ rec.op = opReplace then
    if rec.phase = phaseStarted ∨ rec.phase = phaseBlobWritten then
      pure (some (rollbackSlotToOldState k.registry rec))
    else if rec.phase = phaseRegistryPending then do
      let pending := decide (entryState k.registry rec.slot = statePendingInstall)
      let staged ← if rec.op = opReplace ∧ pending = true then verifyStageBlob rec else pure false
      let copied ← if staged then
          copyBlobArea (stageBlobSector rec.slot) (slotBlobSector rec.slot) rec.rawLen
        else pure false
      let stored ← if rec.op = opInstall ∧ pending = true then verifySlotBlob rec else pure false
      pure (some (setEntryState k.registry rec.slot
        (if copied || stored then stateActive else stateQuarantined)))
    else pure none
  else if rec.op = opRollback then
    if rec.phase = phaseRegistryPending then do
      match ← readBlobArea (previousBlobSector rec.slot) rec.rawLen with
      | none => pure none
      | some raw =>
        if checksum raw = rec.rawCrc then
          if ← writeBlobAt (slotBlobSector rec.slot) raw then
            pure (some (setEntryState k.registry rec.slot stateActive))
          else pure none
        else pure none
    else pure none
  else if rec.op = opRemove then pure (some (setEntryState k.registry rec.slot stateRemoved))
  else pure none

def recoverFromJournal (k : Kernel) (manual : Bool) : Program Sector (Bool × Kernel) := do
  match ← readJournalRaw with
  | none => pure (false, k.setDegraded true)
  | some raw =>
    match decodeJournal raw with
    | .empty => pure (true, k.setDegraded false)
    | .corrupt _ =>
      if manual then
        let k := { k with registry := quarantinePendingSlots k.registry }
        if ← commitStore k then pure (true, { k.setDegraded false with loaded := false })
        else pure (false, k.setDegraded true)
      else pure (false, k.setDegraded true)
    | .valid rec =>
      match ← recoverRegistry k rec with
      | none => pure (false, k.setDegraded true)
      | some reg =>
        let k := { k with registry := reg }
        if ← commitStore k then pure (true, { k.setDegraded false with loaded := false })
        else pure (false, k.setDegraded true)

def installRuntimeEntry (k : Kernel) (slot : ℕ) (p : Inspected) (rawLen rawCrc : ℕ) :
    Bool × Kernel :=
  if k.arenaUsed + p.payload.length ≤ arenaSize then
    (true, { k with
      arena := copy k.arena k.arenaUsed (ofList p.payload) p.payload.length
      pkgs := Function.update k.pkgs slot (some ⟨slot, p.name, p.version, p.kind, p.mcaps, rawLen,
        rawCrc, k.arenaUsed, p.payload.length⟩)
      arenaUsed := k.arenaUsed + p.payload.length })
  else (false, k)

def markCorrupt (k : Kernel) (slot : ℕ) : Program Sector Kernel :=
  if entryState k.registry slot = stateActive then do
    let k := { k with registry := setEntryState k.registry slot stateCorrupt }
    let _ ← writeRegistry k
    pure k
  else pure k

def loadSlot (k : Kernel) (slot : ℕ) : Program Sector Kernel :=
  let e := entryOff slot
  let rawLen := u32At k.registry (e + 12)
  let rawCrc := u32At k.registry (e + 16)
  if entryState k.registry slot ≠ stateActive then pure k
  else if toList k.registry (e + 1) 4 ≠ regMagic then markCorrupt k slot
  else if rawLen = 0 ∨ maxRawBytes < rawLen then markCorrupt k slot
  else do
    match ← readBlobArea (slotBlobSector slot) rawLen with
    | none => markCorrupt k slot
    | some raw =>
      if checksum raw ≠ rawCrc then markCorrupt k slot
      else
        match inspect raw with
        | none => markCorrupt k slot
        | some p =>
          if nameMax < p.name.length ∨ verMax < p.version.length then markCorrupt k slot
          else if (installRuntimeEntry k slot p rawLen rawCrc).1 then
            pure (installRuntimeEntry k slot p rawLen rawCrc).2
          else markCorrupt k slot

def loadFrom : ℕ → ℕ → Kernel → Program Sector Kernel
  | 0, _, k => pure k
  | n + 1, slot, k => do
    let k ← loadSlot k slot
    loadFrom n (slot + 1) k

def ensureLoaded (k : Kernel) : Program Sector (Bool × Kernel) :=
  if k.loaded && !k.degraded then pure (true, k)
  else do
    let (ok, k) ← readRegistry k
    if ok then
      let (ok, k) ← recoverFromJournal k false
      if ok then
        let (ok, k) ← readRegistry k
        if ok then
          let k ← loadFrom maxPkgs 0 k.clearRuntimeRegistry
          pure (true, { k with loaded := true })
        else pure (false, k)
      else pure (false, k)
    else pure (false, k)

/-- Why an install is turned down before anything is written. -/
inductive Rejection where
  | storeUnavailable
  | tooLarge
  | malformed (e : DzpError)
  | noName
  | lengthOutOfRange
  | badCaps (reason : String)
  | badPayload (reason : String)
  | registryFull
  | slotUnusable (state : UInt8)
  | alreadyInstalled
  | alreadyActive
  deriving DecidableEq, Repr

/-- An install that has passed all checks. -/
structure Admission where
  slot : ℕ
  oldState : UInt8
  package : Inspected
  rawCrc : ℕ
  deriving DecidableEq, Repr

def recvChecks (reg : Bytes) (raw : List UInt8) : Except Rejection Admission := do
  if raw.length = 0 ∨ maxRawBytes < raw.length then .error .tooLarge
  else
    let pkg ← (parse raw).mapError .malformed
    match manifestStr pkg.manifest (ascii "name") with
    | none => .error .noName
    | some name =>
      let version := (manifestStr pkg.manifest (ascii "version")).getD defaultVersion
      if name = [] ∨ nameMax < name.length ∨ verMax < version.length then
        .error .lengthOutOfRange
      else
        let mcaps ← (parseMcaps pkg.manifest).mapError .badCaps
        let _ ← (verifyPayload pkg).mapError .badPayload
        let rawCrc := checksum raw
        match registrySlotFor reg name with
        | none => .error .registryFull
        | some slot =>
          let oldState := entryState reg slot
          if oldState = stateCorrupt ∨ oldState = stateQuarantined then
            .error (.slotUnusable oldState)
          else if oldState = stateActive ∧ entryVersion reg slot = version ∧
              u32At reg (entryOff slot + 16) = rawCrc then .error .alreadyInstalled
          else if oldState = stateActive then .error .alreadyActive
          else .ok ⟨slot, oldState, ⟨pkg.kind, name, version, mcaps, pkg.payload⟩, rawCrc⟩

def journalRecord (op phase : UInt8) (slot : ℕ) (oldState newState : UInt8) (name version : Text)
    (mcaps rawLen rawCrc registryBeforeCrc registryAfterCrc : ℕ) : JournalRecord where
  op := op
  phase := phase
  slot := slot
  oldState := oldState
  newState := newState
  mcaps := mcaps
  rawLen := rawLen
  rawCrc := rawCrc
  blobStart := slotBlobSector slot
  blobCount := sectorsFor rawLen
  registryBeforeCrc := registryBeforeCrc
  registryAfterCrc := registryAfterCrc
  name := name
  version := version

/-- How an install ends. -/
inductive RecvResult where
  | rejected (why : Rejection)
  | journalFailed
  | blobFailed
  | blobJournalFailed
  | readBackFailed
  | pendingFailed
  | commitFailed
  | arenaFull
  | installed
  deriving DecidableEq, Repr

def registryCrc (reg : Bytes) : ℕ := checksum (toList reg 0 registrySize)

def Admission.registryWith (p : Admission) (reg : Bytes) (raw : List UInt8) (state : UInt8) :
    Bytes :=
  encodeRegistryEntry reg p.slot state p.package.name p.package.version p.package.kind
    p.package.mcaps raw.length p.rawCrc

def Admission.started (p : Admission) (reg : Bytes) (raw : List UInt8) : JournalRecord :=
  journalRecord opInstall phaseStarted p.slot p.oldState stateActive p.package.name
    p.package.version p.package.mcaps raw.length p.rawCrc (registryCrc reg) 0

def Admission.blobWritten (p : Admission) (reg : Bytes) (raw : List UInt8) : JournalRecord :=
  { p.started reg raw with phase := phaseBlobWritten }

def Admission.registryPending (p : Admission) (reg : Bytes) (raw : List UInt8) : JournalRecord :=
  { p.blobWritten reg raw with
    phase := phaseRegistryPending
    registryAfterCrc := registryCrc (p.registryWith reg raw statePendingInstall) }

def finishInstall (k : Kernel) (p : Admission) (raw : List UInt8) : RecvResult × Kernel :=
  let k := { k with pkgs := Function.update k.pkgs p.slot none }
  let (fits, k) := installRuntimeEntry k p.slot p.package raw.length p.rawCrc
  (if fits then .installed else .arenaFull, { k with loaded := false })

def install (k : Kernel) (p : Admission) (raw : List UInt8) :
    Program Sector (RecvResult × Kernel) := do
  let reg := k.registry
  if ← writeJournal (p.started reg raw) then
    if ← writeBlobAt (slotBlobSector p.slot) raw then
      if ← writeJournal (p.blobWritten reg raw) then
        if ← verifySlotBlob (p.blobWritten reg raw) then
          let k := { k with registry := p.registryWith reg raw statePendingInstall }
          if ← writeJournal (p.registryPending reg raw) then
            if ← writeRegistry k then
              let k := { k with registry := setEntryState k.registry p.slot stateActive }
              if ← commitStore k then pure (finishInstall k p raw)
              else pure (.commitFailed, k)
            else pure (.pendingFailed, k)
          else pure (.pendingFailed, k)
        else pure (.readBackFailed, k)
      else pure (.blobJournalFailed, k)
    else pure (.blobFailed, k)
  else pure (.journalFailed, k)

def pkgRecv (k : Kernel) (raw : List UInt8) : Program Sector (RecvResult × Kernel) := do
  let (ok, k) ← ensureLoaded k
  if ok then
    match recvChecks k.registry raw with
    | .error why => pure (.rejected why, k)
    | .ok p => install k p raw
  else pure (.rejected .storeUnavailable, k)

end Dezh.PackageStore

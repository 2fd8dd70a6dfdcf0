import Dezh.PackageStore

/-!
# The commands of the package store

An update stages the new package, copies the active one to the previous area, and
promotes the staged one under a journal record of three phases. A rollback restores
the previous package under one record. A remove is logical; the garbage collection
wipes the areas of removed slots. Every command first makes sure that the store is
loaded. Only what reaches a caller is kept of the console output.
-/
namespace Dezh.PackageCommands
open BlockProgram ByteLayout CairnFormat PackageFormat PackageStore

def flagPinned : ℕ := 1 <<< 0
def flagPreviousValid : ℕ := 1 <<< 1

def entryFlags (reg : Bytes) (slot : ℕ) : ℕ := u32At reg (entryOff slot + 28)

def setEntryFlags (reg : Bytes) (slot flags : ℕ) : Bytes := putU32 reg (entryOff slot + 28) flags

def entryIsPinned (reg : Bytes) (slot : ℕ) : Bool := entryFlags reg slot &&& flagPinned != 0

def entryPreviousValid (reg : Bytes) (slot : ℕ) : Bool :=
  entryFlags reg slot &&& flagPreviousValid != 0

def entryKind (reg : Bytes) (slot : ℕ) : ℕ := u16At reg (entryOff slot + 6)
def entryMcaps (reg : Bytes) (slot : ℕ) : ℕ := u32At reg (entryOff slot + 8)
def entryRawLen (reg : Bytes) (slot : ℕ) : ℕ := u32At reg (entryOff slot + 12)
def entryRawCrc (reg : Bytes) (slot : ℕ) : ℕ := u32At reg (entryOff slot + 16)

def previousVersion (reg : Bytes) (slot : ℕ) : Text :=
  entryText reg (reg (entryOff slot + 80)).toNat (entryOff slot + 104) verMax

def previousKind (reg : Bytes) (slot : ℕ) : ℕ := u16At reg (entryOff slot + 82)
def previousMcaps (reg : Bytes) (slot : ℕ) : ℕ := u32At reg (entryOff slot + 84)
def previousRawLen (reg : Bytes) (slot : ℕ) : ℕ := u32At reg (entryOff slot + 88)
def previousRawCrc (reg : Bytes) (slot : ℕ) : ℕ := u32At reg (entryOff slot + 92)

def encodePreviousMetadata (reg : Bytes) (slot : ℕ) (version : Text)
    (kind mcaps rawLen rawCrc : ℕ) : Bytes :=
  let e := entryOff slot
  let reg := setEntryFlags reg slot (entryFlags reg slot ||| flagPreviousValid)
  let reg := putU8 reg (e + 80) (UInt8.ofNat version.length)
  let reg := putU16 reg (e + 82) kind
  let reg := putU32 reg (e + 84) mcaps
  let reg := putU32 reg (e + 88) rawLen
  let reg := putU32 reg (e + 92) rawCrc
  let reg := putU32 reg (e + 96) (previousBlobSector slot)
  let reg := putU32 reg (e + 100) slotSectors
  let reg := copy reg (e + 104) (fun _ => 0) verMax
  copy reg (e + 104) (ofList version) version.length

def findRegistrySlot (reg : Bytes) (name : Text) : Option ℕ :=
  (List.range maxPkgs).find? fun slot =>
    entryState reg slot != stateEmpty && entryName reg slot == name

def wordsFor : ℕ → Text → Text → List Text
  | 0, word, _ => if word = [] then [] else [word]
  | _ + 1, word, [] => if word = [] then [] else [word]
  | n + 1, word, b :: rest =>
    match whitespace.find? fun c => c.isPrefixOf (b :: rest) with
    | some c => (if word = [] then [] else [word]) ++ wordsFor n [] ((b :: rest).drop c.length)
    | none => wordsFor n (word ++ [b]) rest

def splitWhitespace (s : Text) : List Text := wordsFor s.length [] s

def withStore {R : Type} (k : Kernel) (unavailable : R)
    (body : Kernel → Program Sector (R × Kernel)) : Program Sector (R × Kernel) := do
  let (ok, k) ← ensureLoaded k
  if ok then body k else pure (unavailable, k)

def Kernel.invalidateLoaded (k : Kernel) : Kernel := { k with loaded := false }

def notU32 (v : ℕ) : ℕ := 0xFFFFFFFF ^^^ v

def capDelta (old new : ℕ) : ℕ × ℕ × ℕ := (new &&& notU32 old, old &&& notU32 new, old &&& new)

inductive RemoveResult where
  | storeUnavailable | noPackage | notActive (state : UInt8)
  | journalFailed | pendingFailed | commitFailed | removed
  deriving DecidableEq, Repr

def removal (reg : Bytes) (slot : ℕ) : JournalRecord :=
  journalRecord opRemove phaseStarted slot stateActive stateRemoved (entryName reg slot)
    (entryVersion reg slot) (entryMcaps reg slot) (entryRawLen reg slot) (entryRawCrc reg slot)
    (registryCrc reg) 0

def remove (k : Kernel) (slot : ℕ) : Program Sector (RemoveResult × Kernel) := do
  if ← writeJournal (removal k.registry slot) then
    let k := { k with
      registry := setEntryState k.registry slot statePendingRemove
      pkgs := Function.update k.pkgs slot none }
    if ← writeRegistry k then
      let k := { k with registry := setEntryState k.registry slot stateRemoved }
      if ← commitStore k then pure (.removed, Kernel.invalidateLoaded k)
      else pure (.commitFailed, k)
    else pure (.pendingFailed, k)
  else pure (.journalFailed, k)

def pkgRemove (k : Kernel) (arg : Text) : Program Sector (RemoveResult × Kernel) :=
  withStore k .storeUnavailable fun k =>
    match findRegistrySlot k.registry (trim arg) with
    | none => pure (.noPackage, k)
    | some slot =>
      if entryState k.registry slot ≠ stateActive then
        pure (.notActive (entryState k.registry slot), k)
      else remove k slot

/-- Why an update is turned down before anything is written. -/
inductive UpdateRejection where
  | noPackage
  | notActive (state : UInt8)
  | pinned
  | tooLarge
  | malformed (e : DzpError)
  | noName
  | nameMismatch
  | lengthOutOfRange
  | badCaps (reason : String)
  | badPayload (reason : String)
  | alreadyActive
  | reviewRequired (added : ℕ)
  deriving DecidableEq, Repr

/-- An update that has passed all checks. -/
structure Replacement where
  slot : ℕ
  package : Inspected
  rawCrc : ℕ
  deriving DecidableEq, Repr

def updateChecks (reg : Bytes) (target : Text) (allowNewCaps : Bool) (raw : List UInt8) :
    Except UpdateRejection Replacement := do
  match findRegistrySlot reg target with
  | none => .error .noPackage
  | some slot =>
    if entryState reg slot ≠ stateActive then .error (.notActive (entryState reg slot))
    else if entryIsPinned reg slot then .error .pinned
    else if raw.length = 0 ∨ maxRawBytes < raw.length then .error .tooLarge
    else
      let pkg ← (parse raw).mapError .malformed
      match manifestStr pkg.manifest (ascii "name") with
      | none => .error .noName
      | some name =>
        let version := (manifestStr pkg.manifest (ascii "version")).getD defaultVersion
        if name ≠ target then .error .nameMismatch
        else if nameMax < name.length ∨ verMax < version.length then .error .lengthOutOfRange
        else
          let mcaps ← (parseMcaps pkg.manifest).mapError .badCaps
          let _ ← (verifyPayload pkg).mapError .badPayload
          let rawCrc := checksum raw
          let added := (capDelta (entryMcaps reg slot) mcaps).1
          if entryVersion reg slot = version ∧ entryRawCrc reg slot = rawCrc then
            .error .alreadyActive
          else if added ≠ 0 ∧ allowNewCaps = false then .error (.reviewRequired added)
          else .ok ⟨slot, ⟨pkg.kind, name, version, mcaps, pkg.payload⟩, rawCrc⟩

namespace Replacement

def registryWith (u : Replacement) (reg : Bytes) (raw : List UInt8) (state : UInt8) : Bytes :=
  encodePreviousMetadata
    (encodeRegistryEntry reg u.slot state u.package.name u.package.version u.package.kind
      u.package.mcaps raw.length u.rawCrc)
    u.slot (entryVersion reg u.slot) (entryKind reg u.slot) (entryMcaps reg u.slot)
    (entryRawLen reg u.slot) (entryRawCrc reg u.slot)

def started (u : Replacement) (reg : Bytes) (raw : List UInt8) : JournalRecord :=
  journalRecord opReplace phaseStarted u.slot stateActive stateActive u.package.name
    u.package.version u.package.mcaps raw.length u.rawCrc (registryCrc reg) 0

def blobWritten (u : Replacement) (reg : Bytes) (raw : List UInt8) : JournalRecord :=
  { u.started reg raw with phase := phaseBlobWritten }

def registryPending (u : Replacement) (reg : Bytes) (raw : List UInt8) : JournalRecord :=
  { u.blobWritten reg raw with
    phase := phaseRegistryPending
    registryAfterCrc := registryCrc (u.registryWith reg raw statePendingInstall) }

end Replacement

inductive UpdateResult where
  | usage | storeUnavailable
  | rejected (why : UpdateRejection)
  | journalFailed | stageFailed | verifyFailed | preserveFailed | pendingFailed | promoteFailed
  | commitFailed | updated
  deriving DecidableEq, Repr

def update (k : Kernel) (u : Replacement) (raw : List UInt8) :
    Program Sector (UpdateResult × Kernel) := do
  let reg := k.registry
  if ← writeJournal (u.started reg raw) then
    if ← writeBlobAt (stageBlobSector u.slot) raw then
      if ← writeJournal (u.blobWritten reg raw) then
        if ← verifyStageBlob (u.blobWritten reg raw) then
          if ← copyBlobArea (slotBlobSector u.slot) (previousBlobSector u.slot)
              (entryRawLen reg u.slot) then
            let k := { k with registry := u.registryWith reg raw statePendingInstall }
            if ← writeJournal (u.registryPending reg raw) then
              if ← writeRegistry k then
                if ← copyBlobArea (stageBlobSector u.slot) (slotBlobSector u.slot) raw.length then
                  let k := { k with registry := setEntryState k.registry u.slot stateActive }
                  if ← commitStore k then pure (.updated, Kernel.invalidateLoaded k)
                  else pure (.commitFailed, k)
                else pure (.promoteFailed, k)
              else pure (.pendingFailed, k)
            else pure (.pendingFailed, k)
          else pure (.preserveFailed, k)
        else pure (.verifyFailed, k)
      else pure (.verifyFailed, k)
    else pure (.stageFailed, k)
  else pure (.journalFailed, k)

def allowNewCaps : Text := ascii "--allow-new-caps"

def pkgUpdate (k : Kernel) (arg : Text) (raw : List UInt8) :
    Program Sector (UpdateResult × Kernel) :=
  match splitWhitespace arg with
  | [] => pure (.usage, k)
  | target :: options =>
    withStore k .storeUnavailable fun k =>
      match updateChecks k.registry target (options.contains allowNewCaps) raw with
      | .error why => pure (.rejected why, k)
      | .ok u => update k u raw

inductive RollbackResult where
  | usage | storeUnavailable | noPackage | noPrevious | pinned | previousInvalid
  | journalFailed | pendingFailed | restoreFailed | commitFailed | restored
  deriving DecidableEq, Repr

def restoredRegistry (reg : Bytes) (slot : ℕ) (name : Text) (state : UInt8) : Bytes :=
  let new := encodeRegistryEntry reg slot state name (previousVersion reg slot)
    (previousKind reg slot) (previousMcaps reg slot) (previousRawLen reg slot)
    (previousRawCrc reg slot)
  if entryIsPinned reg slot then setEntryFlags new slot flagPinned else new

def restoration (reg : Bytes) (slot : ℕ) (name : Text) : JournalRecord :=
  journalRecord opRollback phaseRegistryPending slot stateActive stateActive name
    (previousVersion reg slot) (previousMcaps reg slot) (previousRawLen reg slot)
    (previousRawCrc reg slot) (registryCrc reg) 0

def restore (k : Kernel) (slot : ℕ) (name : Text) (raw : List UInt8) :
    Program Sector (RollbackResult × Kernel) := do
  let reg := k.registry
  if ← writeJournal (restoration reg slot name) then
    let k := { k with registry := restoredRegistry reg slot name statePendingInstall }
    if ← writeRegistry k then
      if ← writeBlobAt (slotBlobSector slot) raw then
        let k := { k with registry := setEntryState k.registry slot stateActive }
        if ← commitStore k then pure (.restored, Kernel.invalidateLoaded k)
        else pure (.commitFailed, k)
      else pure (.restoreFailed, k)
    else pure (.pendingFailed, k)
  else pure (.journalFailed, k)

def force : Text := ascii "--force"

def rollback (k : Kernel) (name : Text) (forced : Bool) :
    Program Sector (RollbackResult × Kernel) :=
  match findRegistrySlot k.registry name with
  | none => pure (.noPackage, k)
  | some slot =>
    if entryState k.registry slot ≠ stateActive ∨ entryPreviousValid k.registry slot = false then
      pure (.noPrevious, k)
    else if entryIsPinned k.registry slot ∧ forced = false then pure (.pinned, k)
    else do
      match ← readBlobArea (previousBlobSector slot) (previousRawLen k.registry slot) with
      | none => pure (.previousInvalid, k)
      | some raw =>
        if checksum raw ≠ previousRawCrc k.registry slot then pure (.previousInvalid, k)
        else restore k slot name raw

def pkgRollback (k : Kernel) (arg : Text) : Program Sector (RollbackResult × Kernel) :=
  match splitWhitespace arg with
  | [] => pure (.usage, k)
  | name :: options =>
    withStore k .storeUnavailable fun k => rollback k name (options.contains force)

inductive PinResult where
  | storeUnavailable | noPackage | failed | done
  deriving DecidableEq, Repr

def pinnedFlags (flags : ℕ) (pinned : Bool) : ℕ :=
  if pinned then flags ||| flagPinned else flags &&& notU32 flagPinned

def pkgPin (k : Kernel) (arg : Text) (pinned : Bool) : Program Sector (PinResult × Kernel) :=
  withStore k .storeUnavailable fun k =>
    match findRegistrySlot k.registry (trim arg) with
    | none => pure (.noPackage, k)
    | some slot => do
      let flags := pinnedFlags (entryFlags k.registry slot) pinned
      let k := { k with registry := setEntryFlags k.registry slot flags }
      if ← writeRegistry k then
        if ← initStoreMarker then pure (.done, Kernel.invalidateLoaded k)
        else pure (.failed, k)
      else pure (.failed, k)

inductive GcResult where
  | usage | storeUnavailable | journalUnreadable | journalActive | journalCorrupt (fault : JournalFault)
  | planned (slots : List ℕ) | nothing | wipeFailed (slot : ℕ) | commitFailed | wiped (slots : ℕ)
  deriving DecidableEq, Repr

def removedSlots (reg : Bytes) : List ℕ :=
  (List.range maxPkgs).filter fun slot => entryState reg slot == stateRemoved

def zeroBlobArea (base : ℕ) : Program Sector Bool :=
  writeSectors .blob base (fun _ => 0) slotSectors 0

def wipeSlot (slot : ℕ) : Program Sector Bool := do
  if ← zeroBlobArea (slotBlobSector slot) then
    if ← zeroBlobArea (previousBlobSector slot) then zeroBlobArea (stageBlobSector slot)
    else pure false
  else pure false

def wipeSlots (k : Kernel) : List ℕ → Program Sector (Option ℕ × Kernel)
  | [] => pure (none, k)
  | slot :: rest => do
    if ← wipeSlot slot then
      wipeSlots { k with registry := clearRegistrySlot k.registry slot } rest
    else pure (some slot, k)

def collect (k : Kernel) : Program Sector (GcResult × Kernel) := do
  let slots := removedSlots k.registry
  if slots = [] then pure (.nothing, k)
  else
    let (failed, k) ← wipeSlots k slots
    match failed with
    | some slot => pure (.wipeFailed slot, k)
    | none =>
      if ← writeRegistry k then
        if ← initStoreMarker then pure (.wiped slots.length, Kernel.invalidateLoaded k)
        else pure (.commitFailed, k)
      else pure (.commitFailed, k)

def gcMode (arg : Text) : Option Bool :=
  if trim arg = [] ∨ trim arg = ascii "plan" then some false
  else if trim arg = ascii "run" then some true
  else none

def pkgGc (k : Kernel) (arg : Text) : Program Sector (GcResult × Kernel) :=
  match gcMode arg with
  | none => pure (.usage, k)
  | some run =>
    withStore k .storeUnavailable fun k => do
      match ← readJournalRaw with
      | none => pure (.journalUnreadable, k)
      | some raw =>
        match decodeJournal raw with
        | .valid _ => pure (.journalActive, k)
        | .corrupt fault => pure (.journalCorrupt fault, k)
        | .empty =>
          if run then collect k else pure (.planned (removedSlots k.registry), k)

inductive RunResult where
  | storeUnavailable | notInstalled | notRunnable (state : UInt8)
  | launched (entry : PkgEntry) (mcaps : ℕ)

def findRuntimePkg (k : Kernel) (name : Text) : Option PkgEntry :=
  (List.range maxPkgs).findSome? fun i => (k.pkgs i).filter fun e => e.name == name

def pkgRun (k : Kernel) (arg : Text) : Program Sector (RunResult × Kernel) :=
  withStore k .storeUnavailable fun k =>
    match findRuntimePkg k (trim arg) with
    | some e => pure (.launched e e.mcaps, k)
    | none =>
      match findRegistrySlot k.registry (trim arg) with
      | some slot => pure (.notRunnable (entryState k.registry slot), k)
      | none => pure (.notInstalled, k)

def recoverStore (k : Kernel) (manual : Bool) : Program Sector (Bool × Kernel) := do
  let (ok, k) ← readRegistry k
  if ok then recoverFromJournal k manual else pure (false, k)

def pkgRecover (k : Kernel) : Program Sector (Bool × Kernel) := recoverStore k true

def pkgStore (k : Kernel) : Program Sector (Option (Bool × Option Bytes) × Kernel) := do
  let (ok, k) ← readRegistry k
  if ok then
    let (recovered, k) ← recoverFromJournal k false
    let (_, k) ← readRegistry k
    let journal ← readJournalRaw
    pure (some (recovered, journal), k)
  else pure (none, k)

inductive VerifyResult where
  | storeUnavailable | noPackage | notActive (state : UInt8)
  | unreadable | crcMismatch | invalidPackage | rejected | verified
  deriving DecidableEq, Repr

def pkgVerify (k : Kernel) (arg : Text) : Program Sector (VerifyResult × Kernel) :=
  withStore k .storeUnavailable fun k =>
    match findRegistrySlot k.registry (trim arg) with
    | none => pure (.noPackage, k)
    | some slot =>
      if entryState k.registry slot ≠ stateActive then
        pure (.notActive (entryState k.registry slot), k)
      else do
        match ← readBlobArea (slotBlobSector slot) (entryRawLen k.registry slot) with
        | none => pure (.unreadable, k)
        | some raw =>
          if checksum raw ≠ entryRawCrc k.registry slot then pure (.crcMismatch, k)
          else
            match parse raw with
            | .error _ => pure (.invalidPackage, k)
            | .ok pkg =>
              match verifyPayload pkg, parseMcaps pkg.manifest with
              | .ok _, .ok _ => pure (.verified, k)
              | _, _ => pure (.rejected, k)

def pkgQuery (k : Kernel) : Program Sector (Bool × Kernel) := ensureLoaded k

def faultName : Text := ascii "faultpkg"
def faultVersion : Text := ascii "0.0.1"
def faultCrc : ℕ := 0xFEEDB10B

def faultSlot (reg : Bytes) : ℕ := (registrySlotFor reg faultName).getD (maxPkgs - 1)

inductive Injection where
  | installAfterBlob | installPendingRegistry | removePending | corruptJournal
  deriving DecidableEq, Repr

def Injection.ofName (s : Text) : Option Injection :=
  if s = ascii "install-after-blob" then some .installAfterBlob
  else if s = ascii "install-pending-registry" then some .installPendingRegistry
  else if s = ascii "remove-pending" then some .removePending
  else if s = ascii "corrupt-journal" then some .corruptJournal
  else none

def brokenJournal : Bytes :=
  copy (copy (fun _ => 0) 0 (ofList (ascii "BROK")) 4) 64 (ofList faultName) faultName.length

def injectPending (k : Kernel) (rec : JournalRecord) : Program Sector Kernel := do
  if ← writeRegistry k then
    if ← writeJournal rec then pure (Kernel.invalidateLoaded k) else pure k
  else pure k

def inject (k : Kernel) : Injection → Program Sector Kernel
  | .installAfterBlob => do
    let reg := k.registry
    let slot := faultSlot reg
    let record := journalRecord opInstall phaseBlobWritten slot (entryState reg slot) stateActive
      faultName faultVersion 1 128 faultCrc (registryCrc reg) 0
    if ← writeJournal record then pure (Kernel.invalidateLoaded k) else pure k
  | .installPendingRegistry =>
    let slot := faultSlot k.registry
    let new := encodeRegistryEntry k.registry slot statePendingInstall faultName faultVersion
      kindDezhIr 1 128 faultCrc
    injectPending { k with registry := new }
      (journalRecord opInstall phaseRegistryPending slot (entryState k.registry slot) stateActive
        faultName faultVersion 1 128 faultCrc 0 (registryCrc new))
  | .removePending =>
    match findRegistrySlot k.registry (ascii "hello") with
    | none => pure k
    | some slot =>
      injectPending
        { k with registry := setEntryState k.registry slot statePendingRemove }
        (removal k.registry slot)
  | .corruptJournal => do
    if ← writeJournalRaw brokenJournal then pure (Kernel.invalidateLoaded k) else pure k

def pkgFault (k : Kernel) (arg : Text) : Program Sector Kernel := do
  let (ok, k) ← readRegistry k
  if ok then
    match Injection.ofName (trim arg) with
    | some fault => inject k fault
    | none => pure k
  else pure k

/-- The package commands of the console. -/
inductive Command where
  | recv (raw : List UInt8)
  | update (arg : Text) (raw : List UInt8)
  | rollback (arg : Text)
  | remove (arg : Text)
  | pin (arg : Text) (pinned : Bool)
  | gc (arg : Text)
  | run (arg : Text)
  | recover
  | store
  | verify (arg : Text)
  | query
  | fault (arg : Text)

def Command.program (k : Kernel) : Command → Program Sector Kernel
  | .recv raw => do let (_, k) ← pkgRecv k raw; pure k
  | .update arg raw => do let (_, k) ← pkgUpdate k arg raw; pure k
  | .rollback arg => do let (_, k) ← pkgRollback k arg; pure k
  | .remove arg => do let (_, k) ← pkgRemove k arg; pure k
  | .pin arg pinned => do let (_, k) ← pkgPin k arg pinned; pure k
  | .gc arg => do let (_, k) ← pkgGc k arg; pure k
  | .run arg => do let (_, k) ← pkgRun k arg; pure k
  | .recover => do let (_, k) ← pkgRecover k; pure k
  | .store => do let (_, k) ← pkgStore k; pure k
  | .verify arg => do let (_, k) ← pkgVerify k arg; pure k
  | .query => do let (_, k) ← pkgQuery k; pure k
  | .fault arg => pkgFault k arg

end Dezh.PackageCommands

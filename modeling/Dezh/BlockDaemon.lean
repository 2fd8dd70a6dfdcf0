import Dezh.SfarService

/-!
# The request loop of the storage daemon

A request is one 64-bit word, the kernel-attested sender with its capability
mask, and the bytes the sender left in the input window. One service step decodes
the word, runs the operation it names against the disk through the data window,
and answers with a status word. The data window outlives the step and is what the
sender reads next to the status.
-/
namespace Dezh.BlockDaemon
open BlockProgram ByteLayout CairnFormat CairnService SfarService

/-- The applications with a built-in registry record. -/
inductive App where
  | note | lab | calc | vault
  deriving DecidableEq, Repr

/-- The package areas of the disk that can be read and written by sector. -/
inductive PkgArea where
  | registry | blob | journal
  deriving DecidableEq, Repr

inductive Op where
  | probe | bwrite | bread | pset | pget | prollback | stop
  | installCheck | installInit | rootStatus
  | appAvailable | appInstalled | appInfo
  | appInstall (app : App) | appRequire (app : App) | appRemove (app : App)
  | appSet (app : App) | appGet (app : App)
  | faultDemo
  | pkgStoreInit | pkgRead (area : PkgArea) | pkgWrite (area : PkgArea)
  | cairnInit | cairnCommit | cairnGet | cairnLog | cairnRollback | cairnVerify | cairnStatus
  | sandLog | sandInfo | sfarPlan | sfarRollback | tbar
  | nsRevoke | nsGrant
  deriving DecidableEq, Repr

def Op.ofCode : ℕ → Option Op
  | 1 => some .probe
  | 2 => some .bwrite
  | 3 => some .bread
  | 4 => some .pset
  | 5 => some .pget
  | 6 => some .prollback
  | 7 => some .stop
  | 8 => some .installCheck
  | 9 => some .installInit
  | 10 => some .rootStatus
  | 11 => some .appAvailable
  | 12 => some .appInstalled
  | 13 => some .appInfo
  | 14 => some (.appInstall .note)
  | 15 => some (.appRequire .note)
  | 16 => some (.appRemove .note)
  | 17 => some (.appSet .note)
  | 18 => some (.appGet .note)
  | 19 => some (.appInstall .lab)
  | 20 => some (.appRequire .lab)
  | 21 => some (.appRemove .lab)
  | 22 => some (.appSet .lab)
  | 23 => some (.appGet .lab)
  | 24 => some .faultDemo
  | 25 => some (.appInstall .calc)
  | 26 => some (.appRequire .calc)
  | 27 => some (.appRemove .calc)
  | 28 => some (.appSet .calc)
  | 29 => some (.appGet .calc)
  | 30 => some (.appInstall .vault)
  | 31 => some (.appRequire .vault)
  | 32 => some (.appRemove .vault)
  | 33 => some (.appSet .vault)
  | 34 => some (.appGet .vault)
  | 35 => some .pkgStoreInit
  | 36 => some (.pkgRead .registry)
  | 37 => some (.pkgWrite .registry)
  | 38 => some (.pkgRead .blob)
  | 39 => some (.pkgWrite .blob)
  | 40 => some (.pkgRead .journal)
  | 41 => some (.pkgWrite .journal)
  | 42 => some .cairnInit
  | 43 => some .cairnCommit
  | 44 => some .cairnGet
  | 45 => some .cairnLog
  | 46 => some .cairnRollback
  | 47 => some .cairnVerify
  | 48 => some .cairnStatus
  | 49 => some .sandLog
  | 50 => some .sandInfo
  | 51 => some .sfarPlan
  | 52 => some .sfarRollback
  | 53 => some .tbar
  | 54 => some .nsRevoke
  | 55 => some .nsGrant
  | _ => none

def ipcProtoV1 : ℕ := 0xd1
def ipcServiceVirtioBlock : ℕ := 1

def typedWord (op id status arg : ℕ) : ℕ :=
  ipcProtoV1 <<< 56 ||| (ipcServiceVirtioBlock &&& 0xff) <<< 48 ||| (op &&& 0xff) <<< 40 |||
    (id &&& 0xffff) <<< 24 ||| (status &&& 0xff) <<< 16 ||| (arg &&& 0xffff)

def requestProto (word : ℕ) : ℕ := (word >>> 56) &&& 0xff
def requestService (word : ℕ) : ℕ := (word >>> 48) &&& 0xff
def requestOp (word : ℕ) : ℕ := (word >>> 40) &&& 0xff
def requestId (word : ℕ) : ℕ := (word >>> 24) &&& 0xffff
def requestArg (word : ℕ) : ℕ := word &&& 0xffff

def replyWord (word : ℕ) (status : Status) : ℕ :=
  typedWord (requestOp word) (requestId word) status.code 0

structure Request where
  word : ℕ
  sender : ℕ
  caps : ℕ
  input : Bytes

namespace Request

def wellFormed (r : Request) : Bool :=
  requestProto r.word == ipcProtoV1 && requestService r.word == ipcServiceVirtioBlock

def op (r : Request) : Option Op := Op.ofCode (requestOp r.word)

def sector (r : Request) : ℕ := requestArg r.word

def cairnNs (r : Request) : ℕ := (requestArg r.word >>> 12) &&& 0xf

def cairnAux (r : Request) : ℕ := requestArg r.word &&& 0xfff

def sandIntent (r : Request) : UInt32 := UInt32.ofNat (requestId r.word)

def statusByte (r : Request) : ℕ := (r.word >>> 16) &&& 0xff

def sandDerived (r : Request) : UInt32 := UInt32.ofNat (r.statusByte &&& 0x1f)

def sandRevclass (r : Request) : UInt8 := UInt8.ofNat ((r.statusByte >>> 5) &&& 0x3)

end Request

def cairnCurrentSector : ℕ := 2
def cairnPreviousSector : ℕ := 3
def installMarkerSector : ℕ := 0
def rootMetadataSector : ℕ := 4
def appRegistryPreviousSector : ℕ := 6
def pkgStoreMarkerSector : ℕ := 24

def copyInput (w input : Bytes) (len : ℕ) : Bytes :=
  copy (zeroFill w sectorSize) 0 input (min len sectorSize)

def dataContains (w : Bytes) (needle : List UInt8) : Bool :=
  let hayLen := ((toList w 0 sectorSize).takeWhile (· != 0)).length
  !needle.isEmpty && decide (needle.length ≤ hayLen) &&
    (List.range (hayLen - needle.length + 1)).any fun start => matchesAt w start needle

namespace App

def name : App → String
  | .note => "note"
  | .lab => "lab"
  | .calc => "calc"
  | .vault => "vault"

def registrySector : App → ℕ
  | .note => 5
  | .lab => 7
  | .calc => 9
  | .vault => 10

def rootSector : App → ℕ
  | .note => 16
  | .lab => 17
  | .calc => 18
  | .vault => 19

def magic : App → String
  | .note => "DEZHAPPREG"
  | .lab => "DEZHLABREG"
  | .calc => "DEZHCALCREG"
  | .vault => "DEZHVAULTREG"

end App

inductive AppState where
  | pending | active | removed
  deriving DecidableEq, Repr

def AppState.text : AppState → String
  | .pending => "state=Pending"
  | .active => "state=Active"
  | .removed => "state=Removed"

def registryText (app : App) (state : AppState) : List UInt8 :=
  ascii (app.magic ++ " v0 app=" ++ app.name ++ " version=0.1.0 " ++ state.text ++
    " caps=PRINT,IPC code_hash=" ++ app.name ++ "-elf-v0 manifest_hash=" ++ app.name ++
    "-manifest-v0 private_root=" ++ toString app.rootSector ++ " previous_registry_sector=6")

def setRegistry (app : App) (state : AppState) (w : Bytes) : Bytes :=
  setData w (registryText app state)

def registryIs (app : App) (state : AppState) (w : Bytes) : Program Sector (Answer Bool) := do
  let r ← rw w app.registrySector false
  pure ⟨r.value && startsWith r.window (ascii app.magic) &&
    dataContains r.window (ascii state.text), r.window⟩

def access (w : Bytes) (sector : ℕ) (write : Bool) : Program Sector (Answer Status) := do
  let r ← rw w sector write
  pure ⟨statusFromIo r.value, r.window⟩

def pset (input w : Bytes) (len : ℕ) : Program Sector (Answer Status) := do
  let r ← rw w cairnCurrentSector false
  let s ← rw r.window cairnPreviousSector true
  access (copyInput s.window input len) cairnCurrentSector true

def prollback (w : Bytes) : Program Sector (Answer Status) := do
  let r ← rw w cairnPreviousSector false
  access r.window cairnCurrentSector true

def installCheck (w : Bytes) : Program Sector (Answer Status) := do
  let r ← rw w installMarkerSector false
  pure ⟨if r.value && startsWith r.window (ascii "DEZHINST") then .ok else .unavailable, r.window⟩

def installInit (w : Bytes) : Program Sector (Answer Status) := do
  let r ← rw (setData w (ascii "DEZHINST v0 target=riscv64 root=cairn block=virtio-block"))
    installMarkerSector true
  let s ← rw (setData r.window
    (ascii "DEZHROOT v0 cairn_current=2 cairn_previous=3 metadata_sector=4")) rootMetadataSector true
  pure ⟨statusFromIo (r.value && s.value), s.window⟩

def registryShown (app : App) (w : Bytes) : Program Sector (Answer Bool) := do
  let a ← registryIs app .active w
  if a.value then pure ⟨true, a.window⟩ else registryIs app .removed a.window

def appInstalled (w : Bytes) : Program Sector (Answer Status) := do
  let a ← registryShown .note w
  let b ← registryShown .lab a.window
  let c ← registryShown .calc b.window
  let e ← registryShown .vault c.window
  pure ⟨if a.value || b.value || c.value || e.value then .ok else .unavailable, e.window⟩

def appInfo (w : Bytes) : Program Sector (Answer Status) := do
  let a ← registryShown .note w
  let b ← registryShown .lab a.window
  let c ← registryShown .calc b.window
  let e ← registryShown .vault c.window
  pure ⟨.ok, e.window⟩

def appInstall (app : App) (w : Bytes) : Program Sector (Answer Status) := do
  let a ← registryIs app .active w
  if a.value then pure ⟨.ok, a.window⟩
  else
    let r ← rw a.window app.registrySector false
    let p ← rw r.window appRegistryPreviousSector true
    let s ← rw (setRegistry app .pending p.window) app.registrySector true
    let t ← rw (setRegistry app .active s.window) app.registrySector true
    let v ← registryIs app .active t.window
    pure ⟨if s.value && t.value && v.value then .ok else .ioFailure, v.window⟩

def appRequire (app : App) (w : Bytes) : Program Sector (Answer Status) := do
  let a ← registryIs app .active w
  if a.value then pure ⟨.ok, a.window⟩
  else
    let b ← registryIs app .removed a.window
    pure ⟨if b.value then .faulted else .unavailable, b.window⟩

def appRemove (app : App) (w : Bytes) : Program Sector (Answer Status) := do
  let a ← registryShown app w
  if a.value then
    let r ← rw a.window app.registrySector false
    let p ← rw r.window appRegistryPreviousSector true
    access (setRegistry app .removed p.window) app.registrySector true
  else pure ⟨.unavailable, a.window⟩

def appSet (app : App) (input w : Bytes) (len : ℕ) : Program Sector (Answer Status) := do
  let a ← registryIs app .active w
  if a.value then access (copyInput a.window input len) app.rootSector true
  else pure ⟨.unavailable, a.window⟩

def appGet (app : App) (w : Bytes) : Program Sector (Answer Status) := do
  let a ← registryIs app .active w
  if a.value then access a.window app.rootSector false else pure ⟨.unavailable, a.window⟩

namespace PkgArea

def first : PkgArea → ℕ
  | .registry => 25
  | .journal => 32
  | .blob => 64

def last : PkgArea → ℕ
  | .registry => 31
  | .journal => 39
  | .blob => 1599

end PkgArea

def pkgRead (area : PkgArea) (w : Bytes) (sector : ℕ) : Program Sector (Answer Status) :=
  if sector < area.first ∨ area.last < sector then pure ⟨.denied, w⟩ else access w sector false

def pkgWrite (area : PkgArea) (input w : Bytes) (sector : ℕ) : Program Sector (Answer Status) :=
  if sector < area.first ∨ area.last < sector then pure ⟨.denied, w⟩
  else access (copyInput w input sectorSize) sector true

def pkgStoreMarker : List UInt8 :=
  ascii "DEZHPKGS v0 slots=8 registry=25..31 blob=64..575 slot_sectors=64"

def pkgStoreInit (w : Bytes) : Program Sector (Answer Status) :=
  access (setData w pkgStoreMarker) pkgStoreMarkerSector true

def cairnInit (w : Bytes) : Program Sector (Answer Status) := do
  let r ← cairnLoadSuper w
  pure ⟨statusFromIo r.value, r.window⟩

/-- An operation on one namespace: the persisted revoked flag is read first, then
the sender's capability is checked. -/
def gated (ns caps : ℕ) (w : Bytes) (k : Bytes → Program Sector (Answer Status)) :
    Program Sector (Answer Status) := do
  let f ← cairnNsRevoked w ns
  if f.value then pure ⟨.denied, f.window⟩
  else if cairnNsAllowed ns caps then k f.window else pure ⟨.denied, f.window⟩

def setRevoked (ns caps : ℕ) (w : Bytes) (revoked : Bool) : Program Sector (Answer Status) :=
  if cairnNsAllowed ns caps then cairnNsSetRevoked w ns revoked else pure ⟨.denied, w⟩

def statusOnly {A : Type} (status : A → Status) (p : Program Sector (Answer A)) :
    Program Sector (Answer Status) := do
  let a ← p
  pure ⟨status a.value, a.window⟩

def answered (p : Program Sector (Answer Status)) : Program Sector (Option (Answer Status)) := do
  let a ← p
  pure (some a)

/-- The answer of a `cairn_get`, with the value copied out of the record. -/
def delivered (p : Program Sector (Answer Status)) : Program Sector (Option (Answer Status)) := do
  let a ← p
  pure (copyValue a)

def dispatch (fuel : ℕ) (op : Op) (r : Request) (w : Bytes) :
    Program Sector (Option (Answer Status)) :=
  match op with
  | .probe | .stop | .appAvailable | .faultDemo => answered (pure ⟨.ok, w⟩)
  | .bwrite => answered (access (setData w (ascii "DEZH-DAEMON-BLOCK-OK")) r.sector true)
  | .bread => answered (access (setData w []) r.sector false)
  | .pset => answered (pset r.input w r.sector)
  | .pget => answered (access w cairnCurrentSector false)
  | .prollback => answered (prollback w)
  | .installCheck => answered (installCheck w)
  | .installInit => answered (installInit w)
  | .rootStatus => answered (access w rootMetadataSector false)
  | .appInstalled => answered (appInstalled w)
  | .appInfo => answered (appInfo w)
  | .appInstall app => answered (appInstall app w)
  | .appRequire app => answered (appRequire app w)
  | .appRemove app => answered (appRemove app w)
  | .appSet app => answered (appSet app r.input w r.sector)
  | .appGet app => answered (appGet app w)
  | .pkgStoreInit => answered (pkgStoreInit w)
  | .pkgRead area => answered (pkgRead area w r.sector)
  | .pkgWrite area => answered (pkgWrite area r.input w r.sector)
  | .cairnInit => answered (cairnInit w)
  | .cairnStatus => answered (statusOnly (·.1) (cairnStatus w))
  | .cairnCommit => answered (gated r.cairnNs r.caps w fun w =>
    cairnCommit r.input w r.cairnNs r.cairnAux r.sender r.sandIntent r.sandDerived
      r.sandRevclass)
  | .cairnGet => delivered (gated r.cairnNs r.caps w fun w => cairnGet w r.cairnNs)
  | .cairnLog =>
    answered (gated r.cairnNs r.caps w fun w => statusOnly (·.1) (cairnLog w r.cairnNs))
  | .cairnRollback =>
    answered (gated r.cairnNs r.caps w fun w => cairnRollback w r.cairnNs (max r.cairnAux 1))
  | .cairnVerify => answered (gated r.cairnNs r.caps w fun w => cairnVerify w r.cairnNs)
  | .sandLog =>
    answered (gated r.cairnNs r.caps w fun w => statusOnly (·.1) (sandLog w r.cairnNs))
  | .sandInfo =>
    answered (gated r.cairnNs r.caps w fun w => statusOnly (·.1) (sandInfo w r.cairnNs))
  | .nsRevoke => answered (setRevoked r.cairnNs r.caps w true)
  | .nsGrant => answered (setRevoked r.cairnNs r.caps w false)
  | .sfarPlan => answered (statusOnly (·.status) (sfarPlan r.sandIntent r.caps w))
  | .tbar => answered (statusOnly (·.status) (tbar r.sandIntent r.caps w))
  | .sfarRollback => do
    let a ← sfarRollback fuel r.sandIntent r.caps r.sender w
    pure (a.map fun a => ⟨a.value.status, a.window⟩)

/-- What the sender receives: a reply word and the data window. -/
structure Reply where
  word : ℕ
  window : Bytes

def Op.exitCode : Op → Option ℕ
  | .stop => some 0
  | .faultDemo => some 99
  | _ => none

def serve (fuel : ℕ) (r : Request) (w : Bytes) : Program Sector (Option Reply) :=
  if r.wellFormed then
    match r.op with
    | none => pure (some ⟨replyWord r.word .badRequest, w⟩)
    | some op => do
      let a ← dispatch fuel op r w
      pure (a.map fun a => ⟨replyWord r.word a.value, a.window⟩)
  else pure (some ⟨typedWord 0 0 Status.badRequest.code 0, w⟩)

end Dezh.BlockDaemon

import Dezh.ByteLayout

/-!
# On-disk layout of the Cairn v1 store

Sector 1600 is the superblock: a magic, the next free commit slot, and one
32-byte entry per namespace with its name, head slot, chain length and revoked
flag. Sectors 1601 to 1855 are the commit slots. A commit record is one sector,
a 64-byte header followed by the inline value.
-/
namespace Dezh.CairnFormat
open ByteLayout

def sectorSize : ℕ := 512

abbrev Sector := Fin sectorSize → UInt8

def superSector : ℕ := 1600
def commitFirstSector : ℕ := 1601
def commitSlots : ℕ := 255
def nsMax : ℕ := 8
def noSlot : ℕ := 0xffffffff
def valueOff : ℕ := 64
def valueMax : ℕ := sectorSize - valueOff

def superMagic : List UInt8 := ascii "DZCAIRN1"
def commitMagic : List UInt8 := ascii "DZC1"

def offSlot : ℕ := 4
def offParent : ℕ := 8
def offNs : ℕ := 12
def offHash : ℕ := 16
def offActor : ℕ := 24
def offFlags : ℕ := 28
def offLen : ℕ := 32
def offIntent : ℕ := 36
def offDerived : ℕ := 40
def offRevclass : ℕ := 44
def offStatus : ℕ := 45
def offGen : ℕ := 46

/-- Reversibility classes as recorded on an effect. Every byte outside the
vocabulary reads as unknown. -/
inductive RevClass where
  | reversible | compensatable | irreversible | unknown
  deriving DecidableEq, Repr

def RevClass.code : RevClass → UInt8
  | .reversible => 0
  | .compensatable => 1
  | .irreversible => 2
  | .unknown => 3

def RevClass.ofByte (b : UInt8) : RevClass :=
  if b = 0 then .reversible
  else if b = 1 then .compensatable
  else if b = 2 then .irreversible
  else .unknown

def statusCommitted : UInt8 := 0
def statusCompensation : UInt8 := 2

def compSep : UInt8 := 0x1f

structure CommitHeader where
  slot : ℕ
  parent : ℕ
  ns : ℕ
  hash : ℕ
  actor : ℕ
  flags : ℕ
  len : ℕ
  intent : ℕ
  derived : ℕ
  revClass : UInt8
  status : UInt8
  generation : ℕ
  deriving DecidableEq, Repr

def CommitHeader.encode (h : CommitHeader) (b : Bytes) : Bytes :=
  let b := copy b 0 (ofList commitMagic) commitMagic.length
  let b := putU32 b offSlot h.slot
  let b := putU32 b offParent h.parent
  let b := putU32 b offNs h.ns
  let b := putU32 b offHash h.hash
  let b := putU32 b (offHash + 4) (h.hash >>> 32)
  let b := putU32 b offActor h.actor
  let b := putU32 b offFlags h.flags
  let b := putU32 b offLen h.len
  let b := putU32 b offIntent h.intent
  let b := putU32 b offDerived h.derived
  let b := putU8 b offRevclass h.revClass
  let b := putU8 b offStatus h.status
  let b := putU8 b offGen (UInt8.ofNat h.generation)
  putU8 b (offGen + 1) (UInt8.ofNat (h.generation >>> 8))

def header (b : Bytes) : CommitHeader where
  slot := u32At b offSlot
  parent := u32At b offParent
  ns := u32At b offNs
  hash := u64At b offHash
  actor := u32At b offActor
  flags := u32At b offFlags
  len := u32At b offLen
  intent := u32At b offIntent
  derived := u32At b offDerived
  revClass := b offRevclass
  status := b offStatus
  generation := u16At b offGen

def isCommit (b : Bytes) : Bool := startsWith b commitMagic

def CommitHeader.decode (b : Bytes) : Option CommitHeader :=
  if isCommit b then some (header b) else none

def CommitHeader.cls (h : CommitHeader) : RevClass := RevClass.ofByte h.revClass

def slotAvailable (next : ℕ) : Bool := next < commitSlots

def fnv64 (b : Bytes) (off len : ℕ) : UInt64 :=
  (List.range len).foldl
    (fun h i => (h ^^^ (b (off + i)).toUInt64) * 0x100000001b3) 0xcbf29ce484222325

def setData (w : Bytes) (s : List UInt8) : Bytes :=
  copy (zeroFill w sectorSize) 0 (ofList s) (min s.length (sectorSize - 1))

def nsNames : List (List UInt8) :=
  [ascii "note", ascii "lab", ascii "calc", ascii "vault", ascii "agent"]

def nsEntryOff (ns : ℕ) : ℕ := 16 + ns * 32

def offNext : ℕ := 8
def nsOffHead : ℕ := 16
def nsOffCount : ℕ := 20
def nsOffRevoked : ℕ := 24

def formatEntry (w : Bytes) (ns : ℕ) : Bytes :=
  let e := nsEntryOff ns
  let name := nsNames.getD ns []
  let w := copy w e (ofList name) (min name.length 16)
  let w := putU32 w (e + nsOffHead) noSlot
  putU32 w (e + nsOffCount) 0

def formatSuper (w : Bytes) : Bytes :=
  let w := setData (zeroFill w sectorSize) superMagic
  let w := putU32 w offNext 0
  (List.range nsMax).foldl formatEntry w

def freshSuper : Sector := take sectorSize (formatSuper fun _ => 0)

theorem length_superMagic : superMagic.length = 8 := by decide

theorem length_commitMagic : commitMagic.length = 4 := by decide

section
variable (h : CommitHeader) (b : Bytes)

theorem encode_congr {c : Bytes} {n : ℕ} (hb : ∀ i < n, b i = c i) :
    ∀ i < n, h.encode b i = h.encode c i := by
  intro i hi
  simp only [CommitHeader.encode, putU8, putU32, putLe, copy, hb i hi]

theorem isCommit_encode : isCommit (h.encode b) = true := by
  have key : ∀ i < 4, h.encode b i = ofList commitMagic i := by
    intro i hi
    simp only [CommitHeader.encode, putU8, putU32, putLe, copy, offSlot, offParent, offNs, offHash,
      offActor, offFlags, offLen, offIntent, offDerived, offRevclass, offStatus, offGen,
      length_commitMagic]
    iterate 14 rw [if_neg (by omega)]
    rw [if_pos (by omega), Nat.sub_zero]
  have hs : isCommit (h.encode b) = isCommit (ofList commitMagic) :=
    startsWith_congr fun i hi => key i hi
  rw [hs]
  decide

theorem header_encode : header (h.encode b) =
    { slot := h.slot % 2 ^ 32, parent := h.parent % 2 ^ 32, ns := h.ns % 2 ^ 32,
      hash := h.hash % 2 ^ 64, actor := h.actor % 2 ^ 32, flags := h.flags % 2 ^ 32,
      len := h.len % 2 ^ 32, intent := h.intent % 2 ^ 32, derived := h.derived % 2 ^ 32,
      revClass := h.revClass, status := h.status, generation := h.generation % 2 ^ 16 } := by
  simp (disch := omega) only [header, CommitHeader.encode, u64At, u16At, offSlot, offParent, offNs,
    offHash, offActor, offFlags, offLen, offIntent, offDerived, offRevclass, offStatus, offGen,
    u32At_putU8_of_disjoint, u32At_putU32_of_disjoint, u32At_putU32_self, putU8_of_ne, putU8_self,
    UInt8.toNat_ofNat', Nat.shiftRight_eq_div_pow]
  congr 1 <;> omega

end

section
variable {b c w : Bytes} {s : Sector}

theorem header_congr (h : ∀ i < offGen + 2, b i = c i) : header b = header c := by
  have h' : ∀ i < 48, b i = c i := h
  simp only [header, offSlot, offParent, offNs, offHash, offActor, offFlags, offLen, offIntent,
    offDerived, offRevclass, offStatus, offGen, CommitHeader.mk.injEq]
  refine ⟨?_, ?_, ?_, ?_, ?_, ?_, ?_, ?_, ?_, h' _ (by omega), h' _ (by omega), ?_⟩
  case refine_4 => exact u64At_congr fun i _ hi => h' i (by omega)
  case refine_10 => exact u16At_congr fun i _ hi => h' i (by omega)
  all_goals exact u32At_congr fun i _ hi => h' i (by omega)

theorem isCommit_congr (h : ∀ i < 4, b i = c i) : isCommit b = isCommit c :=
  startsWith_congr fun i hi => h i (length_commitMagic ▸ hi)

theorem header_load : header (load w s) = header (bytes s) :=
  header_congr fun _ hi => load_of_lt (Nat.lt_of_lt_of_le hi (by decide))

theorem isCommit_load : isCommit (load w s) = isCommit (bytes s) :=
  isCommit_congr fun _ hi => load_of_lt (Nat.lt_of_lt_of_le hi (by decide))

end

end Dezh.CairnFormat

import Mathlib.Data.List.Basic
import Mathlib.Logic.Function.Iterate
import Dezh.ByteLayout
import Dezh.IrMachine

/-!
# Packages

A package is a fixed header, a manifest and a payload. The parser checks the
lengths, the checksum over manifest and payload, and that the manifest is UTF-8
text. A text is the list of its bytes; the separators of the manifest are one-byte
characters, and only trimming has to know the encodings of all white space.
-/
namespace Dezh.PackageFormat
open ByteLayout

abbrev Text := List UInt8

def crcBit (crc : UInt32) : UInt32 := (crc >>> 1) ^^^ (0xEDB88320 &&& (0 - (crc &&& 1)))

def crcByte (crc : UInt32) (byte : UInt8) : UInt32 := crcBit^[8] (crc ^^^ byte.toUInt32)

def crc32 (parts : List (List UInt8)) : UInt32 :=
  ~~~ parts.foldl (fun crc part => part.foldl crcByte crc) 0xFFFFFFFF

def checksum (buf : List UInt8) : ℕ := (crc32 [buf]).toNat

def continuation (b : UInt8) : Bool := 0x80 ≤ b && b ≤ 0xBF

/-- Is the second byte admissible after the first byte of a longer character?
Overlong forms, surrogates and values beyond the last code point are not. -/
def secondByte (first second : UInt8) : Bool :=
  if first = 0xE0 then 0xA0 ≤ second && second ≤ 0xBF
  else if first = 0xED then 0x80 ≤ second && second ≤ 0x9F
  else if first = 0xF0 then 0x90 ≤ second && second ≤ 0xBF
  else if first = 0xF4 then 0x80 ≤ second && second ≤ 0x8F
  else continuation second

def tailLength (first : UInt8) : Option ℕ :=
  if first ≤ 0x7F then some 0
  else if 0xC2 ≤ first && first ≤ 0xDF then some 1
  else if 0xE0 ≤ first && first ≤ 0xEF then some 2
  else if 0xF0 ≤ first && first ≤ 0xF4 then some 3
  else none

def utf8From : ℕ → Text → Bool
  | pending, [] => pending == 0
  | 0, first :: rest =>
    match tailLength first with
    | none => false
    | some 0 => utf8From 0 rest
    | some (n + 1) => rest.head?.any (secondByte first) && utf8From (n + 1) rest
  | pending + 1, b :: rest => continuation b && utf8From pending rest

def isUtf8 (s : Text) : Bool := utf8From 0 s

def magic : Text := ascii "DZP1"
def formatVersion : ℕ := 1
def headerLen : ℕ := 20
def kindDezhIr : ℕ := 1
def kindElfRiscv64 : ℕ := 2

inductive DzpError where
  | tooShort | badMagic | badVersion | badKind | truncated | badCrc | manifestNotUtf8
  deriving DecidableEq, Repr

structure Package where
  kind : ℕ
  manifest : Text
  payload : List UInt8
  deriving DecidableEq, Repr

def parse (raw : List UInt8) : Except DzpError Package :=
  let b := ofList raw
  let kind := u16At b 6
  let mlen := u32At b 8
  let plen := u32At b 12
  let manifest := (raw.drop headerLen).take mlen
  let payload := raw.drop (headerLen + mlen)
  if raw.length < headerLen then .error .tooShort
  else if raw.take 4 ≠ magic then .error .badMagic
  else if u16At b 4 ≠ formatVersion then .error .badVersion
  else if kind ≠ kindDezhIr ∧ kind ≠ kindElfRiscv64 then .error .badKind
  else if raw.length ≠ headerLen + mlen + plen then .error .truncated
  else if u32At b 16 ≠ (crc32 [manifest, payload]).toNat then .error .badCrc
  else if isUtf8 manifest then .ok ⟨kind, manifest, payload⟩
  else .error .manifestNotUtf8

def leBytes (n v : ℕ) : List UInt8 := (List.range n).map fun i => UInt8.ofNat (v >>> (8 * i))

def header (kind : ℕ) (manifest : Text) (payload : List UInt8) : List UInt8 :=
  magic ++ leBytes 2 formatVersion ++ leBytes 2 kind ++ leBytes 4 manifest.length ++
    leBytes 4 payload.length ++ leBytes 4 (crc32 [manifest, payload]).toNat

def pack (kind : ℕ) (manifest : Text) (payload : List UInt8) : List UInt8 :=
  header kind manifest payload ++ manifest ++ payload

def whitespace : List Text :=
  [[0x09], [0x0A], [0x0B], [0x0C], [0x0D], [0x20], [0xC2, 0x85], [0xC2, 0xA0], [0xE1, 0x9A, 0x80]] ++
    (List.range 11).map (fun i => [0xE2, 0x80, 0x80 + UInt8.ofNat i]) ++
    [[0xE2, 0x80, 0xA8], [0xE2, 0x80, 0xA9], [0xE2, 0x80, 0xAF], [0xE2, 0x81, 0x9F],
      [0xE3, 0x80, 0x80]]

def trimStartFor : ℕ → Text → Text
  | 0, s => s
  | n + 1, s =>
    match whitespace.find? fun c => c.isPrefixOf s with
    | some c => trimStartFor n (s.drop c.length)
    | none => s

def trimEndFor : ℕ → Text → Text
  | 0, s => s
  | n + 1, s =>
    match whitespace.find? fun c => c.isSuffixOf s with
    | some c => trimEndFor n (s.take (s.length - c.length))
    | none => s

def trim (s : Text) : Text := trimEndFor s.length (trimStartFor s.length s)

def splitOnce (c : UInt8) (s : Text) : Option (Text × Text) :=
  match s.span (· != c) with
  | (before, _ :: after) => some (before, after)
  | (_, []) => none

/-- The value of a line that sets the key. Comments and lines without an equals
sign set nothing. -/
def setting (key line : Text) : Option Text :=
  let line := trim line
  if line.head? = some 0x23 then none
  else
    match splitOnce 0x3D line with
    | some (k, v) => if trim k = key then some (trim v) else none
    | none => none

def settings (manifest key : Text) : List Text := (manifest.splitOn 0x0A).filterMap (setting key)

def manifestStr (manifest key : Text) : Option Text :=
  match settings manifest key with
  | (0x22 :: inner) :: _ => (splitOnce 0x22 inner).map (·.1)
  | _ => none

def bracketed : Text → Option Text
  | 0x5B :: inner => if inner.getLast? = some 0x5D then some inner.dropLast else none
  | _ => none

def itemsFor : ℕ → Text → List Text
  | 0, _ => []
  | n + 1, s =>
    match splitOnce 0x22 s with
    | some (_, after) =>
      match splitOnce 0x22 after with
      | some (item, rest) => item :: itemsFor n rest
      | none => []
    | none => []

def manifestList (manifest key : Text) : List Text :=
  match (settings manifest key).findSome? bracketed with
  | some inner => itemsFor inner.length inner
  | none => []

def mcapTable : List (Text × ℕ) :=
  [(ascii "print", 1 <<< 0), (ascii "ipc", 1 <<< 1), (ascii "uptime", 1 <<< 2),
    (ascii "cairn-read", 1 <<< 3), (ascii "cairn-write", 1 <<< 4)]

def addMcap (set : ℕ) (cap : Text) : Except String ℕ :=
  match mcapTable.lookup cap with
  | some bit => .ok (set ||| bit)
  | none => .error "unknown capability in manifest"

def parseMcaps (manifest : Text) : Except String ℕ :=
  (manifestList manifest (ascii "caps")).foldlM addMcap 0

def elfMagic : List UInt8 := [0x7F, 0x45, 0x4C, 0x46]

def verifyPayload (pkg : Package) : Except String Unit :=
  if pkg.kind = kindDezhIr then (IrMachine.verify pkg.payload).mapError IrMachine.Fault.msg
  else if pkg.kind = kindElfRiscv64 then
    if 20 < pkg.payload.length ∧ pkg.payload.take 4 = elfMagic ∧ u16At (ofList pkg.payload) 18 = 243
    then .ok ()
    else .error "payload is not a riscv64 ELF"
  else .error "unknown payload kind"

end Dezh.PackageFormat

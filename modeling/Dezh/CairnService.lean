import Dezh.BlockProgram
import Dezh.CairnFormat

/-!
# The Cairn operations of the storage daemon

Every operation is a program over the disk that carries the daemon's data
window along: a read fills the first 512 bytes of the window, a write persists
them, and the fields of a record are read out of the window at fixed offsets.
A failed read leaves these bytes as they were. Each access leaves the status of
the device in the byte behind them. The window outlives the request; its content
after the last access is what the client sees next to the status word.
-/
namespace Dezh.CairnService
open BlockProgram ByteLayout CairnFormat

inductive Status where
  | ok | denied | unavailable | timeout | badRequest | ioFailure | faulted
  deriving DecidableEq, Repr

def Status.code : Status → ℕ
  | .ok => 0
  | .denied => 1
  | .unavailable => 2
  | .timeout => 3
  | .badRequest => 4
  | .ioFailure => 5
  | .faulted => 6

/-- A result together with the data window at that point. -/
structure Answer (A : Type) where
  value : A
  window : Bytes

/-- The status byte that the device leaves behind the data. -/
def reported (w : Bytes) (ok : Bool) : Bytes := putU8 w sectorSize (if ok then 0 else 1)

/-- One sector access through the window. The answer is whether the device
reported status zero; `load` has that zero behind the data. -/
def rw (w : Bytes) (sector : ℕ) (write : Bool) : Program Sector (Answer Bool) :=
  if write then .write sector (take sectorSize w) fun ok => .done ⟨ok, reported w ok⟩
  else .read sector fun
    | some s => .done ⟨true, load w s⟩
    | none => .done ⟨false, reported w false⟩

theorem reported_of_ne {w : Bytes} {ok : Bool} {i : ℕ} (h : i ≠ sectorSize) :
    reported w ok i = w i := putU8_of_ne h

@[simp] theorem load_reported (w : Bytes) (ok : Bool) (s : Sector) :
    load (reported w ok) s = load w s :=
  load_congr fun _ hi => reported_of_ne (Nat.ne_of_gt hi)

@[simp] theorem take_reported (w : Bytes) (ok : Bool) :
    take sectorSize (reported w ok) = take sectorSize w :=
  take_congr fun _ hi => reported_of_ne (Nat.ne_of_lt hi)

def statusFromIo (ok : Bool) : Status := if ok then .ok else .ioFailure

/-- Read the superblock into the window and format it fresh if the magic is
missing. -/
def cairnLoadSuper (w : Bytes) : Program Sector (Answer Bool) := do
  let r ← rw w superSector false
  if r.value then
    if startsWith r.window superMagic then pure ⟨true, r.window⟩
    else
      let s ← rw (formatSuper r.window) superSector true
      if s.value then rw s.window superSector false else pure ⟨false, s.window⟩
  else pure ⟨false, r.window⟩

def cairnNsRevoked (w : Bytes) (ns : ℕ) : Program Sector (Answer Bool) := do
  let r ← cairnLoadSuper w
  pure ⟨r.value && decide (ns < nsMax) &&
    u32At r.window (nsEntryOff ns + nsOffRevoked) != 0, r.window⟩

def cairnNsSetRevoked (w : Bytes) (ns : ℕ) (revoked : Bool) : Program Sector (Answer Status) :=
  if nsMax ≤ ns then pure ⟨.badRequest, w⟩
  else do
    let r ← cairnLoadSuper w
    if r.value then
      let w := putU32 r.window (nsEntryOff ns + nsOffRevoked) (if revoked then 1 else 0)
      let s ← rw w superSector true
      pure ⟨statusFromIo s.value, s.window⟩
    else pure ⟨.ioFailure, r.window⟩

def taskCairnNsBase : ℕ := 8

def holdsNs (caps ns : ℕ) : Bool := caps &&& (1 <<< (taskCairnNsBase + ns)) != 0

def cairnNsAllowed (ns caps : ℕ) : Bool := decide (ns < nsMax) && holdsNs caps ns

def buildCommit (w : Bytes) (h : CommitHeader) (value : Bytes) (len : ℕ) : Bytes :=
  copy (h.encode (zeroFill w sectorSize)) valueOff value len

def commitHeader (next head ns count len sender : ℕ) (intent derived : UInt32)
    (revClass : UInt8) (input : Bytes) : CommitHeader where
  slot := next
  parent := head
  ns := ns
  hash := (fnv64 input 0 len).toNat
  actor := sender
  flags := 1
  len := len
  intent := intent.toNat
  derived := derived.toNat
  revClass := revClass
  status := statusCommitted
  generation := count + 1

def advanceSuper (w : Bytes) (ns next count : ℕ) : Bytes :=
  let e := nsEntryOff ns
  let w := putU32 w offNext (next + 1)
  let w := putU32 w (e + nsOffHead) next
  putU32 w (e + nsOffCount) (count + 1)

def cairnCommit (input w : Bytes) (ns len sender : ℕ) (intent derived : UInt32)
    (revClass : UInt8) : Program Sector (Answer Status) := do
  let r ← cairnLoadSuper w
  if r.value then
    let next := u32At r.window offNext
    if slotAvailable next then
      let e := nsEntryOff ns
      let head := u32At r.window (e + nsOffHead)
      let count := u32At r.window (e + nsOffCount)
      let len := min len (valueMax - 1)
      let h := commitHeader next head ns count len sender intent derived revClass input
      let s ← rw (buildCommit r.window h input len) (commitFirstSector + next) true
      if s.value then
        let t ← cairnLoadSuper s.window
        if t.value then
          let u ← rw (advanceSuper t.window ns next count) superSector true
          pure ⟨statusFromIo u.value, u.window⟩
        else pure ⟨.ioFailure, t.window⟩
      else pure ⟨.ioFailure, s.window⟩
    else pure ⟨.ioFailure, r.window⟩
  else pure ⟨.ioFailure, r.window⟩

/-- The newest-first ledger view shared by the commit log and the effect ledger:
at most eight records, and a failure at the first unreadable one. -/
def ledgerWalk : ℕ → ℕ → Bytes → Program Sector (Answer (Status × List (ℕ × CommitHeader)))
  | 0, _, w => pure ⟨(.ok, []), w⟩
  | limit + 1, cur, w =>
    if cur = noSlot then pure ⟨(.ok, []), w⟩
    else do
      let r ← rw w (commitFirstSector + cur) false
      if r.value && isCommit r.window then
        let t ← ledgerWalk limit (u32At r.window offParent) r.window
        pure ⟨(t.value.1, (cur, header r.window) :: t.value.2), t.window⟩
      else pure ⟨(.ioFailure, []), r.window⟩

def ledgerView (w : Bytes) (ns : ℕ) :
    Program Sector (Answer (Status × List (ℕ × CommitHeader))) := do
  let r ← cairnLoadSuper w
  if r.value then ledgerWalk 8 (u32At r.window (nsEntryOff ns + nsOffHead)) r.window
  else pure ⟨(.ioFailure, []), r.window⟩

def sandLog (w : Bytes) (ns : ℕ) : Program Sector (Answer (Status × List (ℕ × CommitHeader))) :=
  ledgerView w ns

def cairnLog (w : Bytes) (ns : ℕ) : Program Sector (Answer (Status × List (ℕ × CommitHeader))) :=
  ledgerView w ns

def cairnLoadHead (w : Bytes) (ns : ℕ) : Program Sector (Answer (Option ℕ)) := do
  let r ← cairnLoadSuper w
  if r.value then
    let head := u32At r.window (nsEntryOff ns + nsOffHead)
    if head = noSlot then pure ⟨some noSlot, r.window⟩
    else
      let s ← rw r.window (commitFirstSector + head) false
      if s.value && isCommit s.window then pure ⟨some head, s.window⟩
      else pure ⟨none, s.window⟩
  else pure ⟨none, r.window⟩

def withHead {A : Type} (w : Bytes) (ns : ℕ) (failed : Status → A)
    (k : ℕ → Bytes → Answer A) : Program Sector (Answer A) := do
  let r ← cairnLoadHead w ns
  match r.value with
  | none => pure ⟨failed .ioFailure, r.window⟩
  | some head =>
    if head = noSlot then pure ⟨failed .unavailable, r.window⟩
    else pure (k head r.window)

def sandInfo (w : Bytes) (ns : ℕ) :
    Program Sector (Answer (Status × Option (ℕ × CommitHeader))) :=
  withHead w ns (fun st => (st, none)) fun head w => ⟨(.ok, some (head, header w)), w⟩

/-- `cairn_get` up to its copy: the head record is in the window. -/
def cairnGet (w : Bytes) (ns : ℕ) : Program Sector (Answer Status) :=
  withHead w ns id fun _ w => ⟨.ok, w⟩

def moveValue (w : Bytes) (len : ℕ) : Bytes := fun i =>
  if i < len then w (valueOff + i) else if i < sectorSize then 0 else w i

/-- The bytes that are mapped from the window on, up to the end of the device memory. -/
def mappedBytes : ℕ := 4 * 4096 - (8192 + 16)

/-- The copy of `cairn_get`: the value is moved to the front of the window, as long as the
record says it is. A byte that is not mapped kills the daemon, and there is no answer. -/
def copyValue (a : Answer Status) : Option (Answer Status) :=
  if a.value = .ok then
    let len := u32At a.window offLen
    if valueOff + len ≤ mappedBytes then some ⟨.ok, moveValue a.window len⟩ else none
  else some a

def cairnVerify (w : Bytes) (ns : ℕ) : Program Sector (Answer Status) :=
  withHead w ns id fun _ w =>
    let stored := u64At w offHash
    let actual := (fnv64 w valueOff (min (u32At w offLen) valueMax)).toNat
    ⟨if stored = actual then .ok else .ioFailure, w⟩

def rollbackWalk : ℕ → ℕ → ℕ → Bytes → Program Sector (Answer (Option (ℕ × ℕ)))
  | 0, cur, walked, w => pure ⟨some (cur, walked), w⟩
  | steps + 1, cur, walked, w =>
    if cur = noSlot then pure ⟨some (cur, walked), w⟩
    else do
      let r ← rw w (commitFirstSector + cur) false
      if r.value && isCommit r.window then
        rollbackWalk steps (u32At r.window offParent) (walked + 1) r.window
      else pure ⟨none, r.window⟩

def retreatSuper (w : Bytes) (ns cur count walked : ℕ) : Bytes :=
  let e := nsEntryOff ns
  putU32 (putU32 w (e + nsOffHead) cur) (e + nsOffCount) (count - walked)

def cairnRollback (w : Bytes) (ns steps : ℕ) : Program Sector (Answer Status) := do
  let r ← cairnLoadSuper w
  if r.value then
    let e := nsEntryOff ns
    let head := u32At r.window (e + nsOffHead)
    let count := u32At r.window (e + nsOffCount)
    if head = noSlot then pure ⟨.unavailable, r.window⟩
    else
      let s ← rollbackWalk steps head 0 r.window
      match s.value with
      | none => pure ⟨.ioFailure, s.window⟩
      | some (cur, walked) =>
        let t ← cairnLoadSuper s.window
        if t.value then
          let u ← rw (retreatSuper t.window ns cur count walked) superSector true
          pure ⟨statusFromIo u.value, u.window⟩
        else pure ⟨.ioFailure, t.window⟩
  else pure ⟨.ioFailure, r.window⟩

def cairnStatus (w : Bytes) : Program Sector (Answer (Status × ℕ × List (ℕ × ℕ))) := do
  let r ← cairnLoadSuper w
  if r.value then
    let entries := (List.range nsNames.length).map fun ns =>
      (u32At r.window (nsEntryOff ns + nsOffHead), u32At r.window (nsEntryOff ns + nsOffCount))
    pure ⟨(.ok, u32At r.window offNext, entries), r.window⟩
  else pure ⟨(.ioFailure, 0, []), r.window⟩

end Dezh.CairnService

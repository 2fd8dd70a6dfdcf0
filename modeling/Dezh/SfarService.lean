import Dezh.CairnService

/-!
# Mission forecast, mission rollback and provenance

A mission is the set of effects recorded under one intent. The authority check,
the forecast and the provenance graph walk every live chain under a bound of 255
records. The rollback walks each chain from its head without a bound, retracts
the run of the mission's reversible effects, and appends one compensation on top
of the first compensatable one; all ref moves are published by a single
superblock write.
-/
namespace Dezh.SfarService
open Function BlockProgram ByteLayout CairnFormat CairnService

/-- The registered compensation of the record in the window: what follows the
first separator of its value, up to a zero byte, at most `cap` bytes. -/
def extractCompensation (w : Bytes) (cap : ℕ) : Option (List UInt8) :=
  let vlen := min (u32At w offLen) valueMax
  match (toList w valueOff vlen).dropWhile (· != compSep) with
  | [] => none
  | _ :: rest =>
    let out := (rest.takeWhile (· != 0)).take cap
    if out.isEmpty then none else some out

def rawCommit (w : Bytes) (slot parent ns : ℕ) (value : List UInt8)
    (actor intent derived : ℕ) (status : UInt8) (generation : ℕ) : Bytes :=
  let len := min value.length (valueMax - 1)
  let hash := (fnv64 (ofList value) 0 len).toNat
  let w := setData (zeroFill w sectorSize) commitMagic
  let w := putU32 w 4 slot
  let w := putU32 w 8 parent
  let w := putU32 w 12 ns
  let w := putU64 w 16 hash
  let w := putU32 w 24 actor
  let w := putU32 w 28 1
  let w := putU32 w 32 len
  let w := putU32 w offIntent intent
  let w := putU32 w offDerived derived
  let w := putU8 w offRevclass RevClass.reversible.code
  let w := putU8 w offStatus status
  let w := putU8 w offGen (UInt8.ofNat generation)
  let w := putU8 w (offGen + 1) (UInt8.ofNat (generation >>> 8))
  copy w valueOff (ofList value) len

def appendCommitRaw (w : Bytes) (slot parent ns : ℕ) (value : List UInt8)
    (actor intent derived : ℕ) (status : UInt8) (generation : ℕ) :
    Program Sector (Answer Bool) :=
  rw (rawCommit w slot parent ns value actor intent derived status generation)
    (commitFirstSector + slot) true

/-- The bounded walk over one live chain shared by the authority check, the
forecast and the provenance graph. The accumulator takes note of each commit
record; the walk ends silently at the first unreadable one. -/
def scanChain {A : Type} (note : ℕ → Bytes → A → A) :
    ℕ → ℕ → A → Bytes → Program Sector (Answer A)
  | 0, _, acc, w => pure ⟨acc, w⟩
  | guard + 1, cur, acc, w =>
    if cur = noSlot then pure ⟨acc, w⟩
    else do
      let r ← rw w (commitFirstSector + cur) false
      if r.value && isCommit r.window then
        scanChain note guard (u32At r.window offParent) (note cur r.window acc) r.window
      else pure ⟨acc, r.window⟩

def scanFrom {A : Type} (note : ℕ → ℕ → Bytes → A → A) (head : ℕ → ℕ) :
    ℕ → ℕ → A → Bytes → Program Sector (Answer A)
  | 0, _, acc, w => pure ⟨acc, w⟩
  | n + 1, ns, acc, w => do
    let r ← scanChain (note ns) commitSlots (head ns) acc w
    scanFrom note head n (ns + 1) r.value r.window

def ofMission (ahd : UInt32) (w : Bytes) : Bool := u32At w offIntent == ahd.toNat

def noteTouched (ahd : UInt32) (ns _slot : ℕ) (w : Bytes) (touched : ℕ) : ℕ :=
  if ofMission ahd w then touched ||| 1 <<< ns else touched

def sfarTouchedNs (ahd : UInt32) (head : ℕ → ℕ) (w : Bytes) : Program Sector (Answer ℕ) :=
  scanFrom (noteTouched ahd) head nsMax 0 0 w

/-- The touched namespaces whose capability the caller lacks; the denial names
each of them. -/
def sfarMissing (touched caps : ℕ) : List ℕ :=
  (List.range nsMax).filter fun ns => touched &&& (1 <<< ns) != 0 && !holdsNs caps ns

def sfarAuthorized (touched caps : ℕ) : Bool := (sfarMissing touched caps).isEmpty

def heads (w : Bytes) (ns : ℕ) : ℕ := u32At w (nsEntryOff ns + nsOffHead)

def counts (w : Bytes) (ns : ℕ) : ℕ := u32At w (nsEntryOff ns + nsOffCount)

/-- One line of a forecast: a live effect of the mission and, for a compensatable
one, the compensation that is named for it. -/
structure PlanLine where
  ns : ℕ
  slot : ℕ
  record : CommitHeader
  compensation : Option (List UInt8)

structure Forecast where
  reversible : ℕ := 0
  compensatable : ℕ := 0
  irreversible : ℕ := 0
  unknown : ℕ := 0
  lines : List PlanLine := []

namespace Forecast

def total (p : Forecast) : ℕ := p.reversible + p.compensatable + p.irreversible + p.unknown

def note (p : Forecast) (ns slot : ℕ) (w : Bytes) : Forecast :=
  let cls := RevClass.ofByte (w offRevclass)
  let comp := if cls = .compensatable then extractCompensation w 128 else none
  let p := { p with lines := p.lines ++ [PlanLine.mk ns slot (header w) comp] }
  match cls with
  | .reversible => { p with reversible := p.reversible + 1 }
  | .compensatable => { p with compensatable := p.compensatable + 1 }
  | .irreversible => { p with irreversible := p.irreversible + 1 }
  | .unknown => { p with unknown := p.unknown + 1 }

end Forecast

inductive Confidence where
  | full | fullWithCompensation | partly
  deriving DecidableEq, Repr

def Forecast.confidence (p : Forecast) : Confidence :=
  if p.irreversible = 0 ∧ p.unknown = 0 ∧ p.compensatable = 0 then .full
  else if p.irreversible = 0 ∧ p.unknown = 0 then .fullWithCompensation
  else .partly

def notePlan (ahd : UInt32) (ns slot : ℕ) (w : Bytes) (p : Forecast) : Forecast :=
  if ofMission ahd w then p.note ns slot w else p

/-- What a forecast answers and prints: the confidence only accompanies a
forecast with at least one effect. -/
structure PlanReply where
  status : Status
  forecast : Forecast := {}
  confidence : Option Confidence := none
  missing : List ℕ := []

def sfarPlan (ahd : UInt32) (caps : ℕ) (w : Bytes) : Program Sector (Answer PlanReply) :=
  if ahd = 0 then pure ⟨{ status := .badRequest }, w⟩
  else do
    let r ← cairnLoadSuper w
    if r.value then
      let head := heads r.window
      let t ← sfarTouchedNs ahd head r.window
      if t.value != 0 && !sfarAuthorized t.value caps then
        pure ⟨{ status := .denied, missing := sfarMissing t.value caps }, t.window⟩
      else
        let p ← scanFrom (notePlan ahd) head nsMax 0 {} t.window
        if p.value.total = 0 then pure ⟨{ status := .unavailable }, p.window⟩
        else pure ⟨{ status := .ok, forecast := p.value,
                     confidence := some p.value.confidence }, p.window⟩
    else pure ⟨{ status := .ioFailure }, r.window⟩

/-- Console lines of a rollback. -/
inductive RollbackLine where
  | compensated (ns slot : ℕ) (action : List UInt8) (recorded : ℕ)
  | logFull
  | unregistered (ns slot : ℕ)
  | refused (ns slot : ℕ) (cls : RevClass)

/-- The in-memory state of a rollback before it is published. -/
structure Staging where
  newHead : ℕ → ℕ
  count : ℕ → ℕ
  undone : ℕ → ℕ := fun _ => 0
  appended : ℕ → ℕ := fun _ => 0
  nextFree : ℕ
  refusedIrrev : ℕ := 0
  refusedComp : ℕ := 0
  compensated : ℕ := 0
  lines : List RollbackLine := []

namespace Staging

def retract (s : Staging) (ns parent : ℕ) : Staging :=
  { s with
    newHead := update s.newHead ns parent
    undone := update s.undone ns (s.undone ns + 1) }

def compensate (s : Staging) (ns cur : ℕ) (action : List UInt8) : Staging :=
  { s with
    nextFree := s.nextFree + 1
    newHead := update s.newHead ns s.nextFree
    appended := update s.appended ns (s.appended ns + 1)
    compensated := s.compensated + 1
    lines := s.lines ++ [.compensated ns cur action s.nextFree] }

def refuseComp (s : Staging) (line : RollbackLine) : Staging :=
  { s with refusedComp := s.refusedComp + 1, lines := s.lines ++ [line] }

def refuseIrrev (s : Staging) (line : RollbackLine) : Staging :=
  { s with refusedIrrev := s.refusedIrrev + 1, lines := s.lines ++ [line] }

def generation (s : Staging) (ns : ℕ) : ℕ := s.count ns - s.undone ns + 1

end Staging

/-- How the walk over one chain, or over all of them, ends. -/
inductive Walk where
  | finished (s : Staging) (window : Bytes)
  | aborted (window : Bytes)
  | running

def compensationMark : List UInt8 := ascii "[compensation] "

def compensationValue (action : List UInt8) : List UInt8 := (compensationMark ++ action).take 128

/-- The compensatable effect `cur` is in the window: record its registered
compensation on top of it, or refuse. -/
def compensateAt (ahd : UInt32) (sender ns cur : ℕ) (s : Staging) (w : Bytes) :
    Program Sector Walk :=
  match extractCompensation w 96 with
  | some action =>
    if slotAvailable s.nextFree then do
      let a ← appendCommitRaw w s.nextFree cur ns (compensationValue action) sender
        ahd.toNat (u32At w offDerived) statusCompensation (s.generation ns)
      if a.value then pure (.finished (s.compensate ns cur action) a.window)
      else pure (.aborted a.window)
    else pure (.finished (s.refuseComp .logFull) w)
  | none => pure (.finished (s.refuseComp (.unregistered ns cur)) w)

def rollbackChain (ahd : UInt32) (sender ns : ℕ) :
    ℕ → ℕ → Staging → Bytes → Program Sector Walk
  | 0, _, _, _ => pure .running
  | fuel + 1, cur, s, w =>
    if cur = noSlot then pure (.finished s w)
    else do
      let r ← rw w (commitFirstSector + cur) false
      if r.value && isCommit r.window then
        let parent := u32At r.window offParent
        if ofMission ahd r.window then
          match RevClass.ofByte (r.window offRevclass) with
          | .compensatable => compensateAt ahd sender ns cur s r.window
          | .reversible => rollbackChain ahd sender ns fuel parent (s.retract ns parent) r.window
          | cls => pure (.finished (s.refuseIrrev (.refused ns cur cls)) r.window)
        else pure (.finished s r.window)
      else pure (.finished s r.window)

def rollbackFrom (fuel : ℕ) (ahd : UInt32) (sender : ℕ) :
    ℕ → ℕ → Staging → Bytes → Program Sector Walk
  | 0, _, s, w => pure (.finished s w)
  | n + 1, ns, s, w => do
    match ← rollbackChain ahd sender ns fuel (s.newHead ns) s w with
    | .finished s w => rollbackFrom fuel ahd sender n (ns + 1) s w
    | .aborted w => pure (.aborted w)
    | .running => pure .running

def publishEntry (s : Staging) (w : Bytes) (ns : ℕ) : Bytes :=
  if 0 < s.undone ns ∨ 0 < s.appended ns then
    let e := nsEntryOff ns
    putU32 (putU32 w (e + nsOffHead) (s.newHead ns)) (e + nsOffCount)
      (s.count ns - s.undone ns + s.appended ns)
  else w

def publishSuper (s : Staging) (w : Bytes) : Bytes :=
  putU32 ((List.range nsMax).foldl (publishEntry s) w) offNext s.nextFree

structure RollbackReply where
  status : Status
  report : Option Staging := none
  missing : List ℕ := []

def sfarRollback (fuel : ℕ) (ahd : UInt32) (caps sender : ℕ) (w : Bytes) :
    Program Sector (Option (Answer RollbackReply)) :=
  if ahd = 0 then pure (some ⟨{ status := .badRequest }, w⟩)
  else do
    let r ← cairnLoadSuper w
    if r.value then
      let s : Staging :=
        { newHead := heads r.window, count := counts r.window, nextFree := u32At r.window offNext }
      let t ← sfarTouchedNs ahd s.newHead r.window
      if t.value != 0 && !sfarAuthorized t.value caps then
        pure (some ⟨{ status := .denied, missing := sfarMissing t.value caps }, t.window⟩)
      else
        match ← rollbackFrom fuel ahd sender nsMax 0 s t.window with
        | .running => pure none
        | .aborted w => pure (some ⟨{ status := .ioFailure }, w⟩)
        | .finished s w =>
          let u ← cairnLoadSuper w
          if u.value then
            let v ← rw (publishSuper s u.window) superSector true
            if v.value then pure (some ⟨{ status := .ok, report := some s }, v.window⟩)
            else pure (some ⟨{ status := .ioFailure }, v.window⟩)
          else pure (some ⟨{ status := .ioFailure }, u.window⟩)
    else pure (some ⟨{ status := .ioFailure }, r.window⟩)

def noteTbar (ahd : UInt32) (ns slot : ℕ) (w : Bytes) (l : List (ℕ × ℕ × CommitHeader)) :
    List (ℕ × ℕ × CommitHeader) :=
  if ofMission ahd w then l ++ [(ns, slot, header w)] else l

structure TbarReply where
  status : Status
  effects : List (ℕ × ℕ × CommitHeader) := []
  missing : List ℕ := []

def tbar (ahd : UInt32) (caps : ℕ) (w : Bytes) : Program Sector (Answer TbarReply) :=
  if ahd = 0 then pure ⟨{ status := .badRequest }, w⟩
  else do
    let r ← cairnLoadSuper w
    if r.value then
      let head := heads r.window
      let t ← sfarTouchedNs ahd head r.window
      if t.value = 0 then pure ⟨{ status := .unavailable }, t.window⟩
      else if sfarAuthorized t.value caps then
        let l ← scanFrom (noteTbar ahd) head nsMax 0 [] t.window
        pure ⟨{ status := .ok, effects := l.value }, l.window⟩
      else pure ⟨{ status := .denied, missing := sfarMissing t.value caps }, t.window⟩
    else pure ⟨{ status := .ioFailure }, r.window⟩

end Dezh.SfarService

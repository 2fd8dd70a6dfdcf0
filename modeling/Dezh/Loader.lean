import Dezh.PackageTasks
import Dezh.PageTables

/-!
# The loader

`build_address_space`: the page table of a process and the frames behind it. The memory
is given by pages, and an address of a frame by its page number. Address arithmetic wraps
at 64 bits. A read outside the image stops the kernel; on a lack of frames or of a device
the frames taken so far are returned.
-/
namespace Dezh.Loader
open ByteLayout PageTables PackageTasks

/-- The kernel's tables and the devices: the page of the shared level-1 table, the pages of
the block device and of the network device if they are there, and the first pages of the
two windows for device memory. Page numbers fit an entry. -/
structure Machine where
  l1 : ℕ
  blk : Option ℕ
  nic : Option ℕ
  marzDma : ℕ
  virtioDma : ℕ
  l1_small : l1 < 2 ^ 52
  blk_small : ∀ page ∈ blk, page < 2 ^ 52
  nic_small : ∀ page ∈ nic, page < 2 ^ 52
  marz_small : marzDma + 4 < 2 ^ 52
  virtio_small : virtioDma + 4 < 2 ^ 52

structure ProcessSpec where
  elf : List UInt8
  caps : ℕ
  mapUart : Bool
  mapVirtioBlk : Bool
  mapVirtioNet : Bool
  mapVirtioDma : Bool

/-- A loadable segment of the image. -/
structure Segment where
  flags : ℕ
  offset : ℕ
  vaddr : ℕ
  filesz : ℕ
  memsz : ℕ
  deriving DecidableEq, Repr

/-- The memory, the list of free frames, and the frames of the process so far. -/
structure Loading where
  mem : Memory
  free : List ℕ
  frames : List ℕ

inductive Outcome where
  | panicked
  | failed
  | built (root entry : ℕ) (frames : List ℕ)
  deriving DecidableEq, Repr

def frameSize : ℕ := 4096

def maxTaskOwnedFrames : ℕ := 384

def pte (page flags : ℕ) : ℕ := entry page (pteV ||| pteA ||| pteD ||| flags)

def vpn2 (va : ℕ) : ℕ := va >>> 30 &&& 0x1ff

def vpn1 (va : ℕ) : ℕ := va >>> 21 &&& 0x1ff

def vpn0 (va : ℕ) : ℕ := va >>> 12 &&& 0x1ff

namespace Loading

def frameFree (st : Loading) (f : ℕ) : Loading :=
  { st with mem := setWord st.mem f 0 (st.free.headD 0 * frameSize), free := f :: st.free }

def allocFrame (st : Loading) : Option ℕ × Loading :=
  match st.free with
  | [] => (none, st)
  | f :: free =>
    let st : Loading := { st with mem := zeroPage st.mem f, free }
    if st.frames.length < maxTaskOwnedFrames then
      (some f, { st with frames := st.frames ++ [f] })
    else (none, st.frameFree f)

def reclaimResources (st : Loading) : Loading :=
  { st.frames.foldl frameFree st with frames := [] }

def setWord (st : Loading) (page idx value : ℕ) : Loading :=
  { st with mem := PageTables.setWord st.mem page idx value }

def walkAlloc (st : Loading) (table idx : ℕ) : Option ℕ × Loading :=
  if Valid (st.mem table idx) then (some (pageOf (st.mem table idx)), st)
  else
    match st.allocFrame with
    | (none, st) => (none, st)
    | (some f, st) => (some f, st.setWord table idx (entry f pteV))

def mapPage (st : Loading) (root va page flags : ℕ) : Bool × Loading :=
  match st.walkAlloc root (vpn2 va) with
  | (none, st) => (false, st)
  | (some upper, st) =>
    match st.walkAlloc upper (vpn1 va) with
    | (none, st) => (false, st)
    | (some lower, st) => (true, st.setWord lower (vpn0 va) (pte page flags))

def translate (st : Loading) (root va : ℕ) : ℕ :=
  pageOf (st.mem (pageOf (st.mem (pageOf (st.mem root (vpn2 va))) (vpn1 va))) (vpn0 va))

def mapFresh (root : ℕ) (flags : ℕ → ℕ) : ℕ → ℕ → Loading → Bool × Loading
  | 0, _, st => (true, st)
  | n + 1, va, st =>
    match st.allocFrame with
    | (none, st) => (false, st)
    | (some f, st) =>
      match st.mapPage root va f (flags va) with
      | (false, st) => (false, st)
      | (true, st) => mapFresh root flags n (va + frameSize) st

def mapFixed (root : ℕ) : List (Option (ℕ × ℕ)) → Loading → Bool × Loading
  | [], st => (true, st)
  | none :: _, st => (false, st)
  | some (va, page) :: rest, st =>
    match st.mapPage root va page (pteU ||| pteR ||| pteW) with
    | (false, st) => (false, st)
    | (true, st) => mapFixed root rest st

def setByte (word i : ℕ) (b : UInt8) : ℕ :=
  word - (word >>> (8 * i) % 256) <<< (8 * i) + b.toNat <<< (8 * i)

def storeByte (st : Loading) (page off : ℕ) (b : UInt8) : Loading :=
  st.setWord page (off / 8) (setByte (st.mem page (off / 8)) (off % 8) b)

/-- Copy the bytes of a segment from number `k` on; a byte outside the image stops the
kernel. -/
def copyBytes (root : ℕ) (img : List UInt8) (seg : Segment) : ℕ → ℕ → Loading → Bool × Loading
  | 0, _, st => (true, st)
  | n + 1, k, st =>
    let dva := (seg.vaddr + k) % 2 ^ 64
    match img[(seg.offset + k) % 2 ^ 64]? with
    | none => (false, st)
    | some b =>
      copyBytes root img seg n (k + 1)
        (st.storeByte (st.translate root (dva / frameSize * frameSize)) (dva % frameSize) b)

def copySegments (root : ℕ) (img : List UInt8) : List Segment → Loading → Bool × Loading
  | [], st => (true, st)
  | seg :: segs, st =>
    match copyBytes root img seg seg.filesz 0 st with
    | (false, st) => (false, st)
    | (true, st) => copySegments root img segs st

end Loading

def field (img : List UInt8) (width : ℕ) (read : Bytes → ℕ → ℕ) (off : ℕ) : Option ℕ :=
  if off + width ≤ img.length then some (read (ofList img) off) else none

def segmentAt (img : List UInt8) (ph : ℕ) : Option (Option Segment) := do
  let kind ← field img 4 u32At ph
  if kind ≠ 1 then some none
  else
    let vaddr ← field img 8 u64At (ph + 16)
    let memsz ← field img 8 u64At (ph + 40)
    let flags ← field img 4 u32At (ph + 4)
    let offset ← field img 8 u64At (ph + 8)
    let filesz ← field img 8 u64At (ph + 32)
    some (some ⟨flags, offset, vaddr, filesz, memsz⟩)

def segments (img : List UInt8) : Option (ℕ × List Segment) := do
  let start ← field img 8 u64At 24
  let phoff ← field img 8 u64At 32
  let phentsize ← field img 2 u16At 54
  let phnum ← field img 2 u16At 56
  let segs ← (List.range phnum).mapM fun i => segmentAt img ((phoff + i * phentsize) % 2 ^ 64)
  some (start, segs.filterMap id)

def Segment.first (s : Segment) : ℕ := s.vaddr / frameSize * frameSize

def Segment.past (s : Segment) : ℕ :=
  (s.vaddr + s.memsz + 0xfff) % 2 ^ 64 / frameSize * frameSize

def spanLo (segs : List Segment) : ℕ := segs.foldl (fun lo s => min lo s.first) (2 ^ 64 - 1)

def spanHi (segs : List Segment) : ℕ := segs.foldl (fun hi s => max hi s.past) 0

def spanPages (segs : List Segment) : ℕ := (spanHi segs - spanLo segs + 0xfff) / frameSize

def pageFlags (segs : List Segment) (va : ℕ) : ℕ :=
  segs.foldl (fun fl s =>
    if s.first ≤ va ∧ va < s.past then
      fl ||| (if s.flags &&& 1 ≠ 0 then pteX else 0) ||| (if s.flags &&& 2 ≠ 0 then pteW else 0)
    else fl) (pteU ||| pteR)

def userStackTop : ℕ := 0x40700000

def userStackBottom : ℕ := 0x406F0000

def devUartVa : ℕ := 0x50000000

def devVirtioBlkVa : ℕ := 0x50000000

def devVirtioNetVa : ℕ := 0x50020000

def marzDmaVa : ℕ := 0x52000000

def virtioDmaVa : ℕ := 0x51000000

def uartPage : ℕ := 0x10000

def taskDeviceVirtioBlk : ℕ := 1 <<< 3

def taskDeviceVirtioNet : ℕ := 1 <<< 6

def window (va page : ℕ) : List (Option (ℕ × ℕ)) :=
  (List.range 4).map fun i => some (va + i * frameSize, page + i)

def grants (m : Machine) (spec : ProcessSpec) : List (Option (ℕ × ℕ)) :=
  (if spec.mapUart then [some (devUartVa, uartPage)] else []) ++
  (if spec.mapVirtioBlk ∧ spec.caps &&& taskDeviceVirtioBlk ≠ 0 then
    [m.blk.map fun page => (devVirtioBlkVa, page)] else []) ++
  (if spec.mapVirtioNet ∧ spec.caps &&& taskDeviceVirtioNet ≠ 0 then
    (m.nic.map fun page => (devVirtioNetVa, page)) :: window marzDmaVa m.marzDma else []) ++
  if spec.mapVirtioDma ∧
      spec.caps &&& (taskBlockRead ||| taskBlockWrite ||| taskDeviceVirtioNet) ≠ 0 then
    window virtioDmaVa m.virtioDma else []

/-- The mappings of the kernel in every process: the devices as a gigapage, and its own
level-1 table. -/
def Loading.kernelEntries (st : Loading) (m : Machine) (root : ℕ) : Loading :=
  (st.setWord root 0 (pte 0 (pteR ||| pteW ||| pteX))).setWord root 2 (entry m.l1 pteV)

def buildAddressSpace (m : Machine) (spec : ProcessSpec) (st : Loading) : Outcome × Loading :=
  match { st with frames := [] }.allocFrame with
  | (none, st) => (.failed, st)
  | (some root, st) =>
    let st := st.kernelEntries m root
    match segments spec.elf with
    | none => (.panicked, st)
    | some (start, segs) =>
      match st.mapFresh root (pageFlags segs) (spanPages segs) (spanLo segs) with
      | (false, st) => (.failed, st.reclaimResources)
      | (true, st) =>
        match st.copySegments root spec.elf segs with
        | (false, st) => (.panicked, st)
        | (true, st) =>
          match st.mapFresh root (fun _ => pteU ||| pteR ||| pteW)
            ((userStackTop - userStackBottom) / frameSize) userStackBottom with
          | (false, st) => (.failed, st.reclaimResources)
          | (true, st) =>
            match st.mapFixed root (grants m spec) with
            | (false, st) => (.failed, st.reclaimResources)
            | (true, st) => (.built root start st.frames, st)

end Dezh.Loader

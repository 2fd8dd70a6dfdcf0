import Mathlib.Algebra.Group.Nat.Defs
import Mathlib.Algebra.Group.Int.Defs
import Dezh.StepRun

/-!
# The IR interpreter

The bytecode machine the kernel runs agents on: an operand stack of 64 words, a
call stack of 16 return addresses and 256 bytes of memory, all of fixed size and
indexed by counters. Every use of an index or a range is written as an access that
can abort the kernel, so that the absence of such an abort is a statement about
the machine and not a convention of the model. Address arithmetic follows the
build profile: it aborts on overflow in a development build and wraps in a release
build. Signed division aborts on the one quotient that does not fit in both.
-/
namespace Dezh.IrMachine
open StepRun

abbrev I64 := BitVec 64

inductive Trap where
  | stackOverflow | stackUnderflow | callOverflow | callUnderflow | badOpcode | memOob | divZero
  | badTarget | truncated | tooLong | missingCapability | noDisk
  deriving DecidableEq, Repr

def Trap.msg : Trap → String
  | .stackOverflow => "operand stack overflow"
  | .stackUnderflow => "operand stack underflow"
  | .callOverflow => "call stack overflow"
  | .callUnderflow => "ret with empty call stack"
  | .badOpcode => "unknown opcode"
  | .memOob => "memory access out of bounds"
  | .divZero => "division by zero"
  | .badTarget => "branch/call target is not an instruction boundary"
  | .truncated => "truncated instruction"
  | .tooLong => "program too long"
  | .missingCapability => "missing required capability for this host call"
  | .noDisk => "no disk for the Cairn host call"

/-- An iteration fails with an error value, or by aborting the kernel. -/
inductive Fault where
  | trap (t : Trap)
  | panic
  deriving DecidableEq, Repr

/-- The message of a trap. An abort has none. -/
def Fault.msg : Fault → String
  | .trap t => t.msg
  | .panic => ""

inductive Profile where
  | dev | release
  deriving DecidableEq, Repr

inductive Arith where
  | add | sub | mul | div | mod
  deriving DecidableEq, Repr

inductive Compare where
  | lt | gt | eq
  deriving DecidableEq, Repr

/-- The instructions that only touch the operand stack and the memory. -/
inductive DataOp where
  | pop | dup | swap
  | arith (k : Arith)
  | compare (k : Compare)
  | load8 | store8 | load64 | store64
  deriving DecidableEq, Repr

inductive Opcode where
  | halt | push
  | data (d : DataOp)
  | jmp | jz | jnz | call | ret
  | hostcall
  deriving DecidableEq, Repr

def Opcode.ofByte (b : UInt8) : Option Opcode :=
  match b.toNat with
  | 0x00 => some .halt
  | 0x01 => some .push
  | 0x02 => some (.data .pop)
  | 0x03 => some (.data .dup)
  | 0x04 => some (.data .swap)
  | 0x10 => some (.data (.arith .add))
  | 0x11 => some (.data (.arith .sub))
  | 0x12 => some (.data (.arith .mul))
  | 0x13 => some (.data (.arith .div))
  | 0x14 => some (.data (.arith .mod))
  | 0x18 => some (.data (.compare .lt))
  | 0x19 => some (.data (.compare .gt))
  | 0x1a => some (.data (.compare .eq))
  | 0x20 => some (.data .load8)
  | 0x21 => some (.data .store8)
  | 0x22 => some (.data .load64)
  | 0x23 => some (.data .store64)
  | 0x30 => some .jmp
  | 0x31 => some .jz
  | 0x32 => some .jnz
  | 0x40 => some .call
  | 0x41 => some .ret
  | 0x50 => some .hostcall
  | _ => none

def Opcode.size : Opcode → ℕ
  | .push => 9
  | .jmp | .jz | .jnz | .call => 3
  | .hostcall => 2
  | .halt | .data _ | .ret => 1

theorem Opcode.size_pos (op : Opcode) : 0 < op.size := by
  cases op <;> exact Nat.succ_pos _

inductive HostFn where
  | printNum | printStr | cairnPut | cairnGet
  deriving DecidableEq, Repr

def HostFn.ofByte (b : UInt8) : Option HostFn :=
  match b.toNat with
  | 0 => some .printNum
  | 1 => some .printStr
  | 2 => some .cairnPut
  | 3 => some .cairnGet
  | _ => none

def capPrint : ℕ := 1
def capWrite : ℕ := 2
def capRead : ℕ := 4

def HostFn.cap : HostFn → ℕ
  | .printNum | .printStr => capPrint
  | .cairnPut => capWrite
  | .cairnGet => capRead

def memSize : ℕ := 256
def stackSize : ℕ := 64
def callSize : ℕ := 16
def maxProg : ℕ := 4096

/-! ### Accesses that can abort -/

section
variable {α : Type} {n : ℕ}

def getAt (xs : Vector α n) (i : ℕ) : Except Fault α :=
  if h : i < n then .ok xs[i] else .error .panic

def setAt (xs : Vector α n) (i : ℕ) (v : α) : Except Fault (Vector α n) :=
  if h : i < n then .ok (xs.set i v) else .error .panic

def slice (xs : Vector α n) (a e : ℕ) : Except Fault (List α) :=
  if a ≤ e ∧ e ≤ n then .ok ((xs.toList.drop a).take (e - a)) else .error .panic

def fill (xs : Vector α n) (a e : ℕ) (src : List α) : Except Fault (Vector α n) :=
  if a ≤ e ∧ e ≤ n ∧ src.length = e - a then
    .ok (Vector.ofFn fun i => if a ≤ i.val ∧ i.val < e then src.getD (i.val - a) xs[i] else xs[i])
  else .error .panic

end

def byteAt (code : List UInt8) (i : ℕ) : Except Fault UInt8 :=
  match code[i]? with
  | some b => .ok b
  | none => .error .panic

def addUsize : Profile → ℕ → ℕ → Except Fault ℕ
  | .dev, a, b => if a + b < 2 ^ 64 then .ok (a + b) else .error .panic
  | .release, a, b => .ok ((a + b) % 2 ^ 64)

def minI64 : I64 := BitVec.ofInt 64 (-2 ^ 63)

def signed (op : I64 → I64 → I64) (a b : I64) : Except Fault I64 :=
  if a = minI64 ∧ b = -1 then .error .panic else .ok (op a b)

def leValue : List UInt8 → ℕ
  | [] => 0
  | b :: bs => b.toNat + 256 * leValue bs

def fromLeBytes (bs : List UInt8) : I64 := BitVec.ofNat 64 (leValue bs)

def toLeBytes (v : I64) : List UInt8 :=
  (List.range 8).map fun i => UInt8.ofNat (v.toNat / 256 ^ i)

/-! ### The machine -/

structure Vm where
  stack : Vector I64 stackSize
  sp : ℕ
  calls : Vector ℕ callSize
  csp : ℕ
  mem : Vector UInt8 memSize

namespace Vm

def init : Vm := ⟨Vector.replicate _ 0, 0, Vector.replicate _ 0, 0, Vector.replicate _ 0⟩

def push (vm : Vm) (v : I64) : Except Fault Vm :=
  if stackSize ≤ vm.sp then .error (.trap .stackOverflow)
  else do
    let stack ← setAt vm.stack vm.sp v
    pure { vm with stack := stack, sp := vm.sp + 1 }

def pop (vm : Vm) : Except Fault (I64 × Vm) :=
  if vm.sp = 0 then .error (.trap .stackUnderflow)
  else do
    let v ← getAt vm.stack (vm.sp - 1)
    pure (v, { vm with sp := vm.sp - 1 })

def pop2 (vm : Vm) : Except Fault (I64 × I64 × Vm) := do
  let (b, vm) ← vm.pop
  let (a, vm) ← vm.pop
  pure (b, a, vm)

end Vm

def range (p : Profile) (addr : I64) (len : ℕ) : Except Fault (ℕ × ℕ) :=
  if addr.toInt < 0 then .error (.trap .memOob)
  else do
    let e ← addUsize p addr.toNat len
    if memSize < e then .error (.trap .memOob) else pure (addr.toNat, e)

def Arith.eval (k : Arith) (a b : I64) : Except Fault I64 :=
  match k with
  | .add => .ok (a + b)
  | .sub => .ok (a - b)
  | .mul => .ok (a * b)
  | .div => if b = 0 then .error (.trap .divZero) else signed BitVec.sdiv a b
  | .mod => if b = 0 then .error (.trap .divZero) else signed BitVec.srem a b

def Compare.eval (k : Compare) (a b : I64) : Bool :=
  match k with
  | .lt => a.toInt < b.toInt
  | .gt => a.toInt > b.toInt
  | .eq => a == b

def DataOp.run (p : Profile) (d : DataOp) (vm : Vm) : Except Fault Vm :=
  match d with
  | .pop => do
    let (_, vm) ← vm.pop
    pure vm
  | .dup => do
    let (v, vm) ← vm.pop
    let vm ← vm.push v
    vm.push v
  | .swap => do
    let (a, b, vm) ← vm.pop2
    let vm ← vm.push a
    vm.push b
  | .arith k => do
    let (b, a, vm) ← vm.pop2
    let r ← k.eval a b
    vm.push r
  | .compare k => do
    let (b, a, vm) ← vm.pop2
    vm.push (if k.eval a b then 1 else 0)
  | .load8 => do
    let (addr, vm) ← vm.pop
    let (a, _) ← range p addr 1
    let b ← getAt vm.mem a
    vm.push (BitVec.ofNat 64 b.toNat)
  | .store8 => do
    let (val, addr, vm) ← vm.pop2
    let (a, _) ← range p addr 1
    let mem ← setAt vm.mem a (UInt8.ofNat val.toNat)
    pure { vm with mem := mem }
  | .load64 => do
    let (addr, vm) ← vm.pop
    let (a, e) ← range p addr 8
    let bs ← slice vm.mem a e
    vm.push (fromLeBytes bs)
  | .store64 => do
    let (val, addr, vm) ← vm.pop2
    let (a, e) ← range p addr 8
    let mem ← fill vm.mem a e (toLeBytes val)
    pure { vm with mem := mem }

def target (code : List UInt8) (pc : ℕ) : Except Fault ℕ :=
  if code.length < pc + 2 then .error (.trap .truncated)
  else do
    let lo ← byteAt code pc
    let hi ← byteAt code (pc + 1)
    pure (lo.toNat + 256 * hi.toNat)

def immediate (code : List UInt8) (pc : ℕ) : Except Fault I64 :=
  if code.length < pc + 8 then .error (.trap .truncated)
  else .ok (fromLeBytes ((code.drop pc).take 8))

def hostNumber (code : List UInt8) (pc : ℕ) : Except Fault UInt8 :=
  if code.length ≤ pc then .error (.trap .truncated) else byteAt code pc

def Vm.call (vm : Vm) (pc : ℕ) : Except Fault Vm :=
  if callSize ≤ vm.csp then .error (.trap .callOverflow)
  else do
    let calls ← setAt vm.calls vm.csp pc
    pure { vm with calls := calls, csp := vm.csp + 1 }

def Vm.ret (vm : Vm) : Except Fault (ℕ × Vm) :=
  if vm.csp = 0 then .error (.trap .callUnderflow)
  else do
    let pc ← getAt vm.calls (vm.csp - 1)
    pure (pc, { vm with csp := vm.csp - 1 })

def hostRange (p : Profile) (vm : Vm) : Except Fault (ℕ × ℕ × Vm) := do
  let (len, addr, vm) ← vm.pop2
  let (a, e) ← range p addr len.toNat
  pure (a, e, vm)

def hostBytes (p : Profile) (vm : Vm) : Except Fault (ℕ × ℕ × List UInt8 × Vm) := do
  let (a, e, vm) ← hostRange p vm
  let bs ← slice vm.mem a e
  pure (a, e, bs, vm)

/-! ### The host -/

/-- The kernel's side of the boundary. A read fills the buffer it is handed. -/
structure Host (S : Type) where
  can : S → ℕ → Bool
  printNum : S → I64 → S
  printStr : S → List UInt8 → S
  cairnPut : S → List UInt8 → Bool × S
  cairnGet : S → (buf : List UInt8) → Option ℕ × { out : List UInt8 // out.length = buf.length } × S

/-- What a machine asks of its host. -/
inductive Effect where
  | printNum (v : I64)
  | printStr (s : List UInt8)
  | cairnPut (data : List UInt8)
  | cairnGet (buf : List UInt8)
  deriving DecidableEq, Repr

def Effect.cap : Effect → ℕ
  | .printNum _ => HostFn.printNum.cap
  | .printStr _ => HostFn.printStr.cap
  | .cairnPut _ => HostFn.cairnPut.cap
  | .cairnGet _ => HostFn.cairnGet.cap

/-- The counter, the memory and the host. -/
structure Machine (S : Type) where
  pc : ℕ
  vm : Vm
  host : S
  log : List (S × Effect)

/-- How a run ended and what the host has seen by then. -/
structure Ending (S : Type) where
  result : Except Fault Unit
  host : S
  log : List (S × Effect)

abbrev Step (S : Type) := Outcome (Machine S) (Ending S)

section
variable {S : Type}

namespace Machine

def init (s : S) : Machine S := ⟨0, Vm.init, s, []⟩

def finish (m : Machine S) : Step S := .stop ⟨.ok (), m.host, m.log⟩

def fail (m : Machine S) (f : Fault) : Step S := .stop ⟨.error f, m.host, m.log⟩

def orFail {A : Type} (m : Machine S) (x : Except Fault A) (k : A → Step S) : Step S :=
  match x with
  | .ok a => k a
  | .error f => m.fail f

def emit (m : Machine S) (e : Effect) (host : S) : Machine S :=
  { m with host := host, log := m.log ++ [(m.host, e)] }

def setVm (m : Machine S) (vm : Vm) : Machine S := { m with vm := vm }

def setPc (m : Machine S) (pc : ℕ) : Machine S := { m with pc := pc }

end Machine

variable (p : Profile) (h : Host S)

def perform (fn : HostFn) (m : Machine S) : Step S :=
  match fn with
  | .printNum =>
    m.orFail m.vm.pop fun (v, vm) =>
      .next ((m.setVm vm).emit (.printNum v) (h.printNum m.host v))
  | .printStr =>
    m.orFail (hostBytes p m.vm) fun (_, _, s, vm) =>
      .next ((m.setVm vm).emit (.printStr s) (h.printStr m.host s))
  | .cairnPut =>
    m.orFail (hostBytes p m.vm) fun (_, _, data, vm) =>
      let r := h.cairnPut m.host data
      let m := (m.setVm vm).emit (.cairnPut data) r.2
      if r.1 then .next m else m.fail (.trap .noDisk)
  | .cairnGet =>
    m.orFail (hostBytes p m.vm) fun (a, e, buf, vm) =>
      let r := h.cairnGet m.host buf
      let m := (m.setVm vm).emit (.cairnGet buf) r.2.2
      m.orFail (fill vm.mem a e r.2.1.val) fun mem =>
        match r.1 with
        | none => m.fail (.trap .noDisk)
        | some n =>
          m.orFail (Vm.push { vm with mem := mem } (BitVec.ofNat 64 n)) fun vm =>
            .next (m.setVm vm)

def hostcall (f : UInt8) (m : Machine S) : Step S :=
  match HostFn.ofByte f with
  | none => m.fail (.trap .badOpcode)
  | some fn =>
    if h.can m.host fn.cap then perform p h fn m else m.fail (.trap .missingCapability)

def execute (code : List UInt8) (op : Opcode) (m : Machine S) : Step S :=
  match op with
  | .halt => m.finish
  | .push =>
    m.orFail (immediate code m.pc) fun v =>
      m.orFail (m.vm.push v) fun vm => .next ((m.setVm vm).setPc (m.pc + 8))
  | .data d => m.orFail (d.run p m.vm) fun vm => .next (m.setVm vm)
  | .jmp => m.orFail (target code m.pc) fun t => .next (m.setPc t)
  | .jz =>
    m.orFail (target code m.pc) fun t =>
      m.orFail m.vm.pop fun (v, vm) =>
        .next ((m.setVm vm).setPc (if v = 0 then t else m.pc + 2))
  | .jnz =>
    m.orFail (target code m.pc) fun t =>
      m.orFail m.vm.pop fun (v, vm) =>
        .next ((m.setVm vm).setPc (if v ≠ 0 then t else m.pc + 2))
  | .call =>
    m.orFail (target code m.pc) fun t =>
      m.orFail (m.vm.call (m.pc + 2)) fun vm => .next ((m.setVm vm).setPc t)
  | .ret => m.orFail m.vm.ret fun (pc, vm) => .next ((m.setVm vm).setPc pc)
  | .hostcall =>
    m.orFail (hostNumber code m.pc) fun f => hostcall p h f (m.setPc (m.pc + 1))

def step (code : List UInt8) (m : Machine S) : Step S :=
  if m.pc < code.length then
    m.orFail (byteAt code m.pc) fun b =>
      match Opcode.ofByte b with
      | none => m.fail (.trap .badOpcode)
      | some op => execute p h code op (m.setPc (m.pc + 1))
  else m.finish

def run (code : List UInt8) (n : ℕ) (s : S) : Step S := runFor (step p h code) n (Machine.init s)

end

/-! ### The verifier -/

def instructionStarts (code : List UInt8) (pc : ℕ) : Except Fault (List ℕ) :=
  if pc < code.length then do
    let b ← byteAt code pc
    match Opcode.ofByte b with
    | none => .error (.trap .badOpcode)
    | some op =>
      if code.length < pc + op.size then .error (.trap .truncated)
      else do
        let rest ← instructionStarts code (pc + op.size)
        pure (pc :: rest)
  else pure []
termination_by code.length - pc
decreasing_by
  have := op.size_pos
  omega

def Opcode.hasTarget : Opcode → Bool
  | .jmp | .jz | .jnz | .call => true
  | _ => false

def checkTargets (code : List UInt8) (starts : List ℕ) (pc : ℕ) : Except Fault Unit :=
  if pc < code.length then do
    let b ← byteAt code pc
    match Opcode.ofByte b with
    | none => .error .panic
    | some op => do
      if op.hasTarget then
        let lo ← byteAt code (pc + 1)
        let hi ← byteAt code (pc + 2)
        let t := lo.toNat + 256 * hi.toNat
        if code.length ≤ t ∨ t ∉ starts then throw (.trap .badTarget)
      checkTargets code starts (pc + op.size)
  else pure ()
termination_by code.length - pc
decreasing_by
  have := op.size_pos
  omega

def verify (code : List UInt8) : Except Fault Unit :=
  if maxProg < code.length then .error (.trap .tooLong)
  else do
    let starts ← instructionStarts code 0
    checkTargets code starts 0

end Dezh.IrMachine

import Dezh.IrMachine

/-!
# What can abort the interpreter

The counters of a reached machine stay within their arrays, so every stack access
and every instruction fetch succeeds. What remains are the two computations whose
operands the program chooses freely: signed division, and the end of the memory
range named by a host call. `Hazard` says on which machines one of them aborts the
kernel, in terms of the instruction at the counter and the operands on the stack.
-/
namespace Dezh.IrMachine
open StepRun Outcome

variable {i e : ℕ} {E : Fault → Prop}

namespace Vm

/-- The counters stay within their arrays. -/
structure WellFormed (vm : Vm) : Prop where
  sp_le : vm.sp ≤ stackSize
  csp_le : vm.csp ≤ callSize

theorem init_wellFormed : init.WellFormed := ⟨Nat.zero_le _, Nat.zero_le _⟩

/-- The call stack of `vm` is that of `vm'`. -/
def SameCalls (vm vm' : Vm) : Prop := vm'.calls = vm.calls ∧ vm'.csp = vm.csp

theorem SameCalls.trans {a b c : Vm} (h : SameCalls a b) (h' : SameCalls b c) : SameCalls a c :=
  ⟨h'.1.trans h.1, h'.2.trans h.2⟩

/-- Well formed, and the call stack is untouched. -/
def Follows (vm vm' : Vm) : Prop := vm'.WellFormed ∧ SameCalls vm vm'

theorem Follows.trans {a b c : Vm} (h : Follows a b) (h' : Follows b c) : Follows a c :=
  ⟨h'.1, h.2.trans h'.2⟩

def operand (vm : Vm) (i : ℕ) : Option I64 :=
  if i < vm.sp then vm.stack.toList[vm.sp - 1 - i]? else none

end Vm

/-- The traps of the operand stack, the call stack, the memory and the division. -/
def Fault.Ordinary (f : Fault) : Prop :=
  f ∈ [trap .stackOverflow, trap .stackUnderflow, trap .callOverflow, trap .callUnderflow,
    trap .memOob, trap .divZero]

instance : DecidablePred Fault.Ordinary := fun f => by
  unfold Fault.Ordinary
  infer_instance

section
variable {α : Type} {n : ℕ}

theorem getAt_of_lt {xs : Vector α n} (h : i < n) : getAt xs i = .ok xs[i] := dif_pos h

theorem setAt_of_lt {xs : Vector α n} {v : α} (h : i < n) :
    setAt xs i v = .ok (xs.set i v) := dif_pos h

theorem slice_ends {xs : Vector α n} {a : ℕ} (ha : a ≤ e) (he : e ≤ n) :
    Ends (fun s : List α => s.length = e - a) E (slice xs a e) := by
  rw [slice, if_pos ⟨ha, he⟩, ends_ok, List.length_take, List.length_drop, Vector.length_toList]
  omega

theorem slice_of_lt {xs : Vector α n} {a : ℕ} (h : e < a) : slice xs a e = .error .panic :=
  if_neg fun hs => absurd hs.1 (Nat.not_le_of_lt h)

theorem fill_ends {xs : Vector α n} {a : ℕ} {src : List α} (ha : a ≤ e)
    (he : e ≤ n) (hs : src.length = e - a) : Ends (fun _ => True) E (fill xs a e src) := by
  rw [fill, if_pos ⟨ha, he, hs⟩, ends_ok]
  trivial

end

theorem byteAt_eq {code : List UInt8} {b : UInt8} (h : code[i]? = some b) :
    byteAt code i = .ok b := by
  rw [byteAt, h]

namespace Vm

variable {vm : Vm}

section
variable (hw : vm.WellFormed)
include hw

theorem push_ends (v : I64) : Ends vm.Follows Fault.Ordinary (vm.push v) := by
  unfold push
  split_ifs with h
  · rw [ends_error]
    decide
  · have h := Nat.lt_of_not_le h
    rw [setAt_of_lt h]
    exact ⟨⟨h, hw.csp_le⟩, rfl, rfl⟩

theorem pop_ends :
    Ends (fun r => vm.operand 0 = some r.1 ∧ r.2 = { vm with sp := vm.sp - 1 } ∧ 0 < vm.sp)
      Fault.Ordinary vm.pop := by
  unfold pop
  split_ifs with h
  · rw [ends_error]
    decide
  · have h := Nat.pos_of_ne_zero h
    have hi : vm.sp - 1 < stackSize := by have := hw.sp_le; omega
    rw [getAt_of_lt hi]
    refine ⟨?_, rfl, h⟩
    simp [operand, h, hi]

theorem WellFormed.shrink (k : ℕ) : ({ vm with sp := vm.sp - k } : Vm).WellFormed :=
  ⟨Nat.le_trans (Nat.sub_le _ _) hw.sp_le, hw.csp_le⟩

theorem follows_shrink (k : ℕ) : vm.Follows { vm with sp := vm.sp - k } :=
  ⟨hw.shrink k, rfl, rfl⟩

end

theorem operand_shrink (h : 0 < vm.sp) :
    ({ vm with sp := vm.sp - 1 } : Vm).operand 0 = vm.operand 1 := by
  simp only [operand, Nat.sub_zero]
  by_cases h2 : 1 < vm.sp
  · rw [if_pos (by omega), if_pos h2]
  · rw [if_neg (by omega), if_neg h2]

section
variable (hw : vm.WellFormed)
include hw

theorem pop2_ends :
    Ends (fun r => vm.operand 0 = some r.1 ∧ vm.operand 1 = some r.2.1 ∧
      r.2.2 = { vm with sp := vm.sp - 2 }) Fault.Ordinary vm.pop2 := by
  unfold pop2
  apply (pop_ends hw).bind
  intro ⟨b, vm1⟩ ⟨h0, hr, hpos⟩
  cases hr
  apply (pop_ends (hw.shrink 1)).bind
  intro ⟨a, vm2⟩ ⟨h1, hs, _⟩
  rw [operand_shrink hpos] at h1
  exact ⟨h0, h1, hs⟩

theorem pop_follows : Ends (fun r => vm.Follows r.2) Fault.Ordinary vm.pop := by
  apply (pop_ends hw).mono
  · intro r hr
    rw [hr.2.1]
    exact follows_shrink hw 1
  · exact fun _ hf => hf

theorem pop2_follows :
    Ends (fun r => (vm.operand 0 = some r.1 ∧ vm.operand 1 = some r.2.1) ∧ vm.Follows r.2.2)
      Fault.Ordinary vm.pop2 := by
  apply (pop2_ends hw).mono
  · intro r hr
    refine ⟨⟨hr.1, hr.2.1⟩, ?_⟩
    rw [hr.2.2]
    exact follows_shrink hw 2
  · exact fun _ hf => hf

theorem pop2_eq {a b : I64} (h0 : vm.operand 0 = some b)
    (h1 : vm.operand 1 = some a) : vm.pop2 = .ok (b, a, { vm with sp := vm.sp - 2 }) := by
  have hends := pop2_ends hw
  cases hp : vm.pop2 with
  | ok r =>
    rw [hp] at hends
    obtain ⟨hb, ha, hr⟩ := hends
    rw [h0] at hb
    rw [h1] at ha
    cases hb
    cases ha
    rw [← hr]
  | error f =>
    have hsp : 1 < vm.sp := by
      by_contra hle
      rw [operand, if_neg hle] at h1
      cases h1
    have hle := hw.sp_le
    have hp1 : vm.sp - 1 < stackSize := by omega
    have hp2 : vm.sp - 1 - 1 < stackSize := by omega
    have hz : ¬ vm.sp = 0 := by omega
    have hz' : ¬ vm.sp - 1 = 0 := by omega
    have hfst : vm.pop = .ok (vm.stack[vm.sp - 1], { vm with sp := vm.sp - 1 }) := by
      rw [pop, if_neg hz, getAt_of_lt hp1]
      rfl
    have hsnd : pop { vm with sp := vm.sp - 1 } =
        .ok (vm.stack[vm.sp - 1 - 1], { vm with sp := vm.sp - 1 - 1 }) := by
      rw [pop, if_neg hz', getAt_of_lt hp2]
      rfl
    rw [pop2, hfst] at hp
    change (pop { vm with sp := vm.sp - 1 } >>= _) = _ at hp
    rw [hsnd] at hp
    cases hp

theorem call_ends (pc : ℕ) :
    Ends (fun vm' => vm'.WellFormed ∧ ∃ h : vm.csp < callSize,
      vm'.calls = vm.calls.set vm.csp pc ∧ vm'.csp = vm.csp + 1) Fault.Ordinary (vm.call pc) := by
  unfold call
  split_ifs with h
  · rw [ends_error]
    decide
  · have h := Nat.lt_of_not_le h
    rw [setAt_of_lt h]
    exact ⟨⟨hw.sp_le, h⟩, h, rfl, rfl⟩

theorem ret_ends : Ends (fun r => r.2 = { vm with csp := vm.csp - 1 } ∧ 0 < vm.csp ∧
      vm.calls.toList[vm.csp - 1]? = some r.1) Fault.Ordinary vm.ret := by
  unfold ret
  split_ifs with h
  · rw [ends_error]
    decide
  · have h := Nat.pos_of_ne_zero h
    have hi : vm.csp - 1 < callSize := by have := hw.csp_le; omega
    rw [getAt_of_lt hi]
    refine ⟨rfl, h, ?_⟩
    simp [hi]

end

end Vm

/-! ### Ranges -/

/-- A length that is negative as a signed word carries the end of a range around
the address space, back below its start. A release build lets it pass when the
wrapped end lies in memory; a development build aborts on the sum. -/
def Overruns (p : Profile) (addr len : I64) : Prop :=
  0 ≤ addr.toInt ∧ len.toInt < 0 ∧ 0 ≤ addr.toInt + len.toInt ∧
    (p = .release → addr.toInt + len.toInt ≤ memSize)

instance (p : Profile) (addr len : I64) : Decidable (Overruns p addr len) := by
  unfold Overruns
  infer_instance

theorem toInt_cases (x : I64) :
    (0 ≤ x.toInt ∧ x.toInt = x.toNat ∧ x.toNat < 2 ^ 63) ∨
      (x.toInt < 0 ∧ x.toInt = (x.toNat : ℤ) - 2 ^ 64 ∧ 2 ^ 63 ≤ x.toNat ∧ x.toNat < 2 ^ 64) := by
  have := BitVec.toInt_eq_toNat_cond x
  have := x.isLt
  split at * <;> omega

theorem addUsize_of_lt {p : Profile} {a b : ℕ} (h : a + b < 2 ^ 64) :
    addUsize p a b = .ok (a + b) := by
  cases p with
  | dev => exact if_pos h
  | release => rw [addUsize, Nat.mod_eq_of_lt h]

theorem range_of_end {p : Profile} {addr : I64} {len : ℕ} (h : ¬ addr.toInt < 0)
    (he : addUsize p addr.toNat len = .ok e) (hm : ¬ memSize < e) :
    range p addr len = .ok (addr.toNat, e) := by
  rw [range, if_neg h, he]
  exact if_neg hm

theorem range_ends (p : Profile) (addr : I64) {len : ℕ} (hlen : len ≤ 8) :
    Ends (fun r => r.2 = r.1 + len ∧ r.2 ≤ memSize) Fault.Ordinary (range p addr len) := by
  unfold range
  split_ifs with h
  · rw [ends_error]
    decide
  · have hlt : addr.toNat + len < 2 ^ 64 := by
      have := toInt_cases addr
      omega
    rw [addUsize_of_lt hlt]
    change Ends _ _ (if memSize < addr.toNat + len then _ else _)
    split_ifs with hm
    · rw [ends_error]
      decide
    · exact ⟨rfl, Nat.le_of_not_lt hm⟩

theorem range_ends_or (p : Profile) (addr len : I64) :
    Ends (fun r => (r.1 ≤ r.2 ∨ Overruns p addr len) ∧ r.2 ≤ memSize)
      (fun f => f.Ordinary ∨ f = .panic ∧ Overruns p addr len) (range p addr len.toNat) := by
  unfold range
  have ha := toInt_cases addr
  have hl := toInt_cases len
  split_ifs with h
  · exact Or.inl (by decide)
  · by_cases hlt : addr.toNat + len.toNat < 2 ^ 64
    · rw [addUsize_of_lt hlt]
      change Ends _ _ (if memSize < addr.toNat + len.toNat then _ else _)
      split_ifs with hm
      · exact Or.inl (by decide)
      · exact ⟨Or.inl (Nat.le_add_right _ _), Nat.le_of_not_lt hm⟩
    · cases p with
      | dev =>
        rw [addUsize, if_neg hlt]
        refine Or.inr ⟨rfl, ?_⟩
        refine ⟨by omega, by omega, by omega, ?_⟩
        intro hp
        cases hp
      | release =>
        rw [addUsize]
        change Ends _ _ (if memSize < (addr.toNat + len.toNat) % 2 ^ 64 then _ else _)
        split_ifs with hm
        · exact Or.inl (by decide)
        · refine ⟨Or.inr ?_, Nat.le_of_not_lt hm⟩
          have hm := Nat.le_of_not_lt hm
          refine ⟨by omega, by omega, by omega, ?_⟩
          intro _
          have : (memSize : ℤ) = 256 := rfl
          have : memSize = 256 := rfl
          omega

theorem range_slice_overrun {p : Profile} {addr len : I64} (h : Overruns p addr len)
    (mem : Vector UInt8 memSize) :
    (range p addr len.toNat >>= fun r => slice mem r.1 r.2) = .error .panic := by
  obtain ⟨h0, hneg, hsum, hrel⟩ := h
  have ha := toInt_cases addr
  have hl := toInt_cases len
  have hge : ¬ addr.toNat + len.toNat < 2 ^ 64 := by omega
  have h0' : ¬ addr.toInt < 0 := by omega
  cases p with
  | dev =>
    simp only [range, addUsize, if_neg h0', if_neg hge]
    rfl
  | release =>
    have hwrap : (addr.toNat + len.toNat) % 2 ^ 64 = addr.toNat + len.toNat - 2 ^ 64 := by
      omega
    have hin : ¬ memSize < addr.toNat + len.toNat - 2 ^ 64 := by
      have := hrel rfl
      have : (memSize : ℤ) = 256 := rfl
      have : memSize = 256 := rfl
      omega
    have hback : addr.toNat + len.toNat - 2 ^ 64 < addr.toNat := by omega
    have hend : addUsize .release addr.toNat len.toNat =
        .ok (addr.toNat + len.toNat - 2 ^ 64) := by
      rw [addUsize, hwrap]
    rw [range_of_end h0' hend hin]
    exact slice_of_lt hback

/-! ### Data instructions -/

/-- The quotient of the least word by minus one does not fit. -/
def DivHazard (vm : Vm) : Prop := vm.operand 0 = some (-1) ∧ vm.operand 1 = some minI64

def DataOp.Hazard (d : DataOp) (vm : Vm) : Prop :=
  (d = .arith .div ∨ d = .arith .mod) ∧ DivHazard vm

theorem Arith.eval_ends (k : Arith) (a b : I64) :
    Ends (fun _ => True) (fun f => f.Ordinary ∨ f = .panic ∧ (k = .div ∨ k = .mod) ∧
      a = minI64 ∧ b = -1) (k.eval a b) := by
  have division : ∀ op, (k = .div ∨ k = .mod) →
      Ends (fun _ => True) (fun f => f.Ordinary ∨ f = .panic ∧ (k = .div ∨ k = .mod) ∧
        a = minI64 ∧ b = -1) (if b = 0 then .error (.trap .divZero) else signed op a b) := by
    intro op hk
    split_ifs with hb
    · exact Or.inl (by decide)
    · unfold signed
      split_ifs with h
      · exact Or.inr ⟨rfl, hk, h⟩
      · trivial
  cases k with
  | add | sub | mul => trivial
  | div => exact division _ (Or.inl rfl)
  | mod => exact division _ (Or.inr rfl)

theorem DataOp.run_hazard (p : Profile) {d : DataOp} {vm : Vm} (hw : vm.WellFormed)
    (h : d.Hazard vm) : d.run p vm = .error .panic := by
  obtain ⟨hd, h0, h1⟩ := h
  have hpop := Vm.pop2_eq hw h0 h1
  cases hd with
  | inl hd | inr hd =>
    simp only [hd, DataOp.run, hpop]
    rfl

theorem DataOp.run_ends (p : Profile) (d : DataOp) {vm : Vm} (hw : vm.WellFormed) :
    Ends vm.Follows (fun f => f.Ordinary ∨ f = .panic ∧ d.Hazard vm) (d.run p vm) := by
  have weaken : ∀ {A : Type} {Q : A → Prop} {x : Except Fault A}, Ends Q Fault.Ordinary x →
      Ends Q (fun f => f.Ordinary ∨ f = .panic ∧ d.Hazard vm) x :=
    fun h => h.mono (fun _ hq => hq) fun _ => Or.inl
  have h1 := weaken (Vm.pop_follows hw)
  have h2 := weaken (Vm.pop2_follows hw)
  have push : ∀ {vm' : Vm} (v : I64), vm.Follows vm' →
      Ends vm.Follows (fun f => f.Ordinary ∨ f = .panic ∧ d.Hazard vm) (vm'.push v) := by
    intro vm' v hf
    exact weaken ((Vm.push_ends hf.1 v).mono (fun _ => hf.trans) fun _ hf => hf)
  cases d with
  | pop =>
    apply h1.bind
    intro ⟨v, vm1⟩ hf
    exact hf
  | dup =>
    apply h1.bind
    intro ⟨v, vm1⟩ hf
    apply (push v hf).bind
    intro vm' hf'
    exact push v hf'
  | swap =>
    apply h2.bind
    intro ⟨b, a, vm1⟩ ⟨hops, hf⟩
    apply (push b hf).bind
    intro vm' hf'
    exact push a hf'
  | arith k =>
    apply h2.bind
    intro ⟨b, a, vm1⟩ ⟨hops, hf⟩
    have heval : Ends (fun _ => True)
        (fun f => f.Ordinary ∨ f = .panic ∧ DataOp.Hazard (.arith k) vm) (k.eval a b) := by
      apply (k.eval_ends a b).mono
      · exact fun _ h => h
      · intro f hf
        apply hf.imp id
        intro ⟨hp, hk, ha, hb⟩
        refine ⟨hp, hk.imp (congrArg _) (congrArg _), ?_, ?_⟩
        · rw [← hb]
          exact hops.1
        · rw [← ha]
          exact hops.2
    apply heval.bind
    intro v _
    exact push v hf
  | compare k =>
    apply h2.bind
    intro ⟨b, a, vm1⟩ ⟨_, hf⟩
    exact push _ hf
  | load8 =>
    apply h1.bind
    intro ⟨v, vm1⟩ hf
    apply (weaken (range_ends p v (by decide))).bind
    intro ⟨i, e⟩ hs
    have hlt : i < memSize := by have := hs.1; have := hs.2; omega
    change Ends _ _ (getAt vm1.mem i >>= _)
    rw [getAt_of_lt hlt]
    exact push _ hf
  | store8 =>
    apply h2.bind
    intro ⟨b, a, vm1⟩ ⟨hops, hf⟩
    apply (weaken (range_ends p a (by decide))).bind
    intro ⟨i, e⟩ hs
    have hlt : i < memSize := by have := hs.1; have := hs.2; omega
    change Ends _ _ (setAt vm1.mem i _ >>= _)
    rw [setAt_of_lt hlt]
    exact ⟨⟨hf.1.sp_le, hf.1.csp_le⟩, hf.2⟩
  | load64 =>
    apply h1.bind
    intro ⟨v, vm1⟩ hf
    apply (weaken (range_ends p v (by decide))).bind
    intro ⟨i, e⟩ hs
    apply (slice_ends (by have := hs.1; omega) hs.2).bind
    intro bs _
    exact push _ hf
  | store64 =>
    apply h2.bind
    intro ⟨b, a, vm1⟩ ⟨hops, hf⟩
    apply (weaken (range_ends p a (by decide))).bind
    intro ⟨i, e⟩ hs
    have hlen : (toLeBytes b).length = e - i := by
      rw [toLeBytes, List.length_map, List.length_range]
      have := hs.1
      omega
    apply (fill_ends (by have := hs.1; omega) hs.2 hlen).bind
    intro mem _
    exact ⟨⟨hf.1.sp_le, hf.1.csp_le⟩, hf.2⟩

/-! ### Host calls -/

/-- The operands of a host call overrun. -/
def RangeHazard (p : Profile) (vm : Vm) : Prop :=
  ∃ len addr, vm.operand 0 = some len ∧ vm.operand 1 = some addr ∧ Overruns p addr len

theorem hostBytes_ends (p : Profile) {vm : Vm} (hw : vm.WellFormed) :
    Ends (fun r => r.1 ≤ r.2.1 ∧ r.2.1 ≤ memSize ∧ r.2.2.1.length = r.2.1 - r.1 ∧
        vm.Follows r.2.2.2)
      (fun f => f.Ordinary ∨ f = .panic ∧ RangeHazard p vm) (hostBytes p vm) := by
  unfold hostBytes hostRange
  rw [bind_assoc]
  apply ((Vm.pop2_follows hw).mono (fun _ h => h) fun _ => Or.inl).bind
  intro ⟨len, addr, vm1⟩ ⟨⟨h0, h1⟩, hf⟩
  have hazard : ∀ f : Fault, f.Ordinary ∨ f = .panic ∧ Overruns p addr len →
      f.Ordinary ∨ f = .panic ∧ RangeHazard p vm := fun f hf =>
    hf.imp id fun hp => ⟨hp.1, len, addr, h0, h1, hp.2⟩
  rw [bind_assoc]
  apply ((range_ends_or p addr len).mono (fun _ h => h) hazard).bind
  intro ⟨a, e⟩ ⟨horder, he⟩
  change Ends _ _ (slice vm1.mem a e >>= _)
  by_cases ha : a ≤ e
  · apply (slice_ends ha he).bind
    intro bs hbs
    exact ⟨ha, he, hbs, hf⟩
  · rw [slice_of_lt (Nat.lt_of_not_le ha)]
    exact hazard _ (Or.inr ⟨rfl, horder.resolve_left ha⟩)

theorem hostBytes_hazard {p : Profile} {vm : Vm} (hw : vm.WellFormed) (h : RangeHazard p vm) :
    hostBytes p vm = .error .panic := by
  obtain ⟨len, addr, h0, h1, hover⟩ := h
  have hpanic := range_slice_overrun hover vm.mem
  rw [hostBytes, hostRange, Vm.pop2_eq hw h0 h1]
  change ((range p addr len.toNat >>= fun r => pure (r.1, r.2, { vm with sp := vm.sp - 2 })) >>=
    fun q => slice q.2.2.mem q.1 q.2.1 >>= fun bs => pure (q.1, q.2.1, bs, q.2.2)) = _
  cases hr : range p addr len.toNat with
  | error f =>
    rw [hr] at hpanic
    cases hpanic
    rfl
  | ok r =>
    rw [hr] at hpanic
    change slice vm.mem r.1 r.2 = _ at hpanic
    change (slice vm.mem r.1 r.2 >>= _) = _
    rw [hpanic]
    rfl

section
variable {S : Type} {p : Profile} {h : Host S} {code : List UInt8} {m : Machine S}

/-- An ending in failure satisfies `E`. -/
def Fails (E : Fault → Prop) (e : Ending S) : Prop := ∀ f, e.result = .error f → E f

theorem Machine.fail_post {Q : Machine S → Prop} {f : Fault} (hf : E f) :
    (m.fail f).Post Q (Fails E) := by
  intro g hg
  cases hg
  exact hf

theorem Machine.orFail_post {A : Type} {R : A → Prop} {Q : Machine S → Prop}
    {x : Except Fault A} {k : A → Step S} (hx : Ends R E x)
    (hk : ∀ a, R a → (k a).Post Q (Fails E)) : (m.orFail x k).Post Q (Fails E) := by
  cases x with
  | error f => exact m.fail_post hx
  | ok a => exact hk a hx

/-- A host call past its capability check aborts on its range only. -/
def CallHazard (p : Profile) (fn : HostFn) (vm : Vm) : Prop := fn ≠ .printNum ∧ RangeHazard p vm

theorem perform_post (fn : HostFn) (hw : m.vm.WellFormed) :
    (perform p h fn m).Post (fun m' => m.vm.Follows m'.vm ∧ m'.pc = m.pc)
      (Fails fun f => f.Ordinary ∨ f = .trap .noDisk ∨ f = .panic ∧ CallHazard p fn m.vm) := by
  have hbytes : fn ≠ .printNum → Ends _
      (fun f => f.Ordinary ∨ f = .trap .noDisk ∨ f = .panic ∧ CallHazard p fn m.vm)
      (hostBytes p m.vm) := fun hfn =>
    (hostBytes_ends p hw).mono (fun _ h => h) fun f hf =>
      hf.imp id fun hp => Or.inr ⟨hp.1, hfn, hp.2⟩
  cases fn with
  | printNum =>
    apply Machine.orFail_post ((Vm.pop_follows hw).mono (fun _ h => h) fun _ => Or.inl)
    intro r hr
    exact ⟨hr, rfl⟩
  | printStr =>
    apply Machine.orFail_post (hbytes (by decide))
    intro r hr
    exact ⟨hr.2.2.2, rfl⟩
  | cairnPut =>
    apply Machine.orFail_post (hbytes (by decide))
    intro r hr
    dsimp only
    split_ifs
    · exact ⟨hr.2.2.2, rfl⟩
    · exact Machine.fail_post (Or.inr (Or.inl rfl))
  | cairnGet =>
    apply Machine.orFail_post (hbytes (by decide))
    intro ⟨a, e, buf, vm⟩ ⟨ha, he, hlen, hf⟩
    dsimp only
    have hout := (h.cairnGet m.host buf).2.1.property.trans hlen
    apply Machine.orFail_post (fill_ends ha he hout)
    intro mem _
    cases (h.cairnGet m.host buf).1 with
    | none => exact Machine.fail_post (Or.inr (Or.inl rfl))
    | some n =>
      have hw' : Vm.WellFormed { vm with mem := mem } := ⟨hf.1.sp_le, hf.1.csp_le⟩
      apply Machine.orFail_post ((Vm.push_ends hw' _).mono (fun _ h => h) fun _ => Or.inl)
      intro vm' hf'
      exact ⟨⟨hf'.1, hf.2.trans hf'.2⟩, rfl⟩

theorem perform_hazard {fn : HostFn} (hw : m.vm.WellFormed) (hz : CallHazard p fn m.vm) :
    perform p h fn m = m.fail .panic := by
  obtain ⟨hfn, hr⟩ := hz
  have hb := hostBytes_hazard hw hr
  cases fn with
  | printNum => exact absurd rfl hfn
  | printStr | cairnPut | cairnGet => simp only [perform, hb, Machine.orFail]

/-! ### Instructions -/

variable (p h code) in
/-- The instruction `op` aborts; the counter is past its first byte. -/
def Opcode.Hazard (op : Opcode) (m : Machine S) : Prop :=
  match op with
  | .data d => d.Hazard m.vm
  | .hostcall => ∃ b fn, code[m.pc]? = some b ∧ HostFn.ofByte b = some fn ∧
      h.can m.host fn.cap = true ∧ CallHazard p fn m.vm
  | _ => False

variable (p h code) in
/-- How the instruction `op` can fail. -/
inductive Opcode.MayFail (op : Opcode) (m : Machine S) : Fault → Prop
  | ordinary {f : Fault} (hf : f.Ordinary) : op.MayFail m f
  | noDisk : op.MayFail m (.trap .noDisk)
  | missingCapability : op.MayFail m (.trap .missingCapability)
  | truncated (hlen : code.length + 1 < m.pc + op.size) : op.MayFail m (.trap .truncated)
  | unknownCall {b : UInt8} (hop : op = .hostcall) (hb : code[m.pc]? = some b)
      (hfn : HostFn.ofByte b = none) : op.MayFail m (.trap .badOpcode)
  | hazard (hz : op.Hazard p h code m) : op.MayFail m .panic

variable (code) in
/-- Where the instruction `op` goes, and what it does to the call stack. -/
def Opcode.Moves (op : Opcode) (m m' : Machine S) : Prop :=
  match op with
  | .halt => False
  | .push | .data _ | .hostcall => m.vm.SameCalls m'.vm ∧ m'.pc + 1 = m.pc + op.size
  | .jmp => m.vm.SameCalls m'.vm ∧ target code m.pc = .ok m'.pc
  | .jz | .jnz => m.vm.SameCalls m'.vm ∧
      (target code m.pc = .ok m'.pc ∨ m'.pc + 1 = m.pc + op.size)
  | .call => target code m.pc = .ok m'.pc ∧ ∃ hc : m.vm.csp < callSize,
      m'.vm.calls = m.vm.calls.set m.vm.csp (m.pc + 2) ∧ m'.vm.csp = m.vm.csp + 1
  | .ret => m'.vm.calls = m.vm.calls ∧ m'.vm.csp = m.vm.csp - 1 ∧ 0 < m.vm.csp ∧
      m.vm.calls.toList[m.vm.csp - 1]? = some m'.pc

theorem target_ends (pc : ℕ) :
    Ends (fun t => target code pc = .ok t)
      (fun f => f = .trap .truncated ∧ code.length < pc + 2) (target code pc) := by
  by_cases hlen : code.length < pc + 2
  · rw [target, if_pos hlen]
    exact ⟨rfl, hlen⟩
  · have h0 : pc < code.length := by omega
    have h1 : pc + 1 < code.length := by omega
    have ht : target code pc = .ok (code[pc].toNat + 256 * code[pc + 1].toNat) := by
      rw [target, if_neg hlen, byteAt_eq (List.getElem?_eq_getElem h0),
        byteAt_eq (List.getElem?_eq_getElem h1)]
      rfl
    rw [ht]
    rfl

theorem execute_post (op : Opcode) (hw : m.vm.WellFormed) :
    (execute p h code op m).Post (fun m' => m'.vm.WellFormed ∧ op.Moves code m m')
      (Fails (op.MayFail p h code m)) := by
  have ordinary : ∀ {A : Type} {Q : A → Prop} {x : Except Fault A}, Ends Q Fault.Ordinary x →
      Ends Q (op.MayFail p h code m) x := fun hx => hx.mono (fun _ hq => hq) fun _ => .ordinary
  have jump : op.size = 3 → Ends (fun t => target code m.pc = .ok t) (op.MayFail p h code m)
      (target code m.pc) := fun hs =>
    (target_ends m.pc).mono (fun _ ht => ht) fun f hf => by
      rw [hf.1]
      exact .truncated (by have := hf.2; omega)
  cases op with
  | halt =>
    intro f hf
    cases hf
  | push =>
    unfold execute immediate
    split_ifs with hlen
    · exact Machine.fail_post (.truncated (by rw [Opcode.size]; omega))
    · apply Machine.orFail_post (ordinary (Vm.push_ends hw _))
      intro vm hf
      exact ⟨hf.1, hf.2, rfl⟩
  | data d =>
    have hd : Ends m.vm.Follows (Opcode.MayFail p h code (.data d) m) (d.run p m.vm) := by
      apply (d.run_ends p hw).mono
      · exact fun _ hf => hf
      · intro f hf
        cases hf with
        | inl hf => exact .ordinary hf
        | inr hf =>
          rw [hf.1]
          exact .hazard hf.2
    apply Machine.orFail_post hd
    intro vm hf
    exact ⟨hf.1, hf.2, rfl⟩
  | jmp =>
    apply Machine.orFail_post (jump rfl)
    intro t ht
    exact ⟨hw, ⟨rfl, rfl⟩, ht⟩
  | jz | jnz =>
    apply Machine.orFail_post (jump rfl)
    intro t ht
    apply Machine.orFail_post (ordinary (Vm.pop_follows hw))
    intro ⟨v, vm⟩ hf
    refine ⟨hf.1, hf.2, ?_⟩
    dsimp only [Machine.setPc]
    split_ifs
    · exact .inl ht
    · exact .inr rfl
  | call =>
    apply Machine.orFail_post (jump rfl)
    intro t ht
    apply Machine.orFail_post (ordinary (Vm.call_ends hw _))
    intro vm hf
    exact ⟨hf.1, ht, hf.2⟩
  | ret =>
    apply Machine.orFail_post (ordinary (Vm.ret_ends hw))
    intro ⟨pc, vm⟩ ⟨hr, hpos, hpc⟩
    cases hr
    exact ⟨⟨hw.sp_le, Nat.le_trans (Nat.sub_le _ _) hw.csp_le⟩, rfl, rfl, hpos, hpc⟩
  | hostcall =>
    unfold execute hostNumber
    split_ifs with hlen
    · exact Machine.fail_post (.truncated (by rw [Opcode.size]; omega))
    · have hget : ∃ b, code[m.pc]? = some b :=
        ⟨_, List.getElem?_eq_getElem (Nat.lt_of_not_le hlen)⟩
      obtain ⟨b, hb⟩ := hget
      rw [byteAt_eq hb]
      change (hostcall p h _ (m.setPc (m.pc + 1))).Post _ _
      unfold hostcall
      cases hfn : HostFn.ofByte b with
      | none => exact Machine.fail_post (.unknownCall rfl hb hfn)
      | some fn =>
        dsimp only
        split_ifs with hcan
        · apply (perform_post fn (m := m.setPc (m.pc + 1)) hw).mono
          · intro m' hf
            exact ⟨hf.1.1, hf.1.2, congrArg (· + 1) hf.2⟩
          · intro e he f hf
            cases he f hf with
            | inl ho => exact .ordinary ho
            | inr hr =>
              cases hr with
              | inl hd =>
                rw [hd]
                exact .noDisk
              | inr hz =>
                rw [hz.1]
                exact .hazard ⟨_, fn, hb, hfn, hcan, hz.2⟩
        · exact Machine.fail_post .missingCapability

theorem execute_hazard {op : Opcode} (hw : m.vm.WellFormed) (hz : op.Hazard p h code m) :
    ∃ e, execute p h code op m = .stop e ∧ e.result = .error .panic := by
  cases op with
  | data d =>
    refine ⟨⟨.error .panic, m.host, m.log⟩, ?_, rfl⟩
    rw [execute, DataOp.run_hazard p hw hz]
    rfl
  | hostcall =>
    obtain ⟨b, fn, hb, hfn, hcan, hcall⟩ := hz
    have hlen : ¬ code.length ≤ m.pc := by
      obtain ⟨hlt, -⟩ := List.getElem?_eq_some_iff.mp hb
      omega
    refine ⟨⟨.error .panic, m.host, m.log⟩, ?_, rfl⟩
    rw [execute, hostNumber, if_neg hlen, byteAt_eq hb]
    change hostcall p h b (m.setPc (m.pc + 1)) = _
    rw [hostcall, hfn]
    change (if h.can m.host fn.cap = true then _ else _) = _
    rw [if_pos hcan]
    exact perform_hazard (m := m.setPc (m.pc + 1)) hw hcall
  | halt | push | jmp | jz | jnz | call | ret => exact hz.elim

/-! ### Turns of the loop -/

variable (code) in
def fetch (pc : ℕ) : Option Opcode := code[pc]? >>= Opcode.ofByte

variable (p h code) in
/-- The next turn aborts: the instruction at the counter and the operands on the
stack are those of an overflowing division or of an overrunning host call. -/
def Hazard (m : Machine S) : Prop :=
  ∃ op, fetch code m.pc = some op ∧ op.Hazard p h code (m.setPc (m.pc + 1))

theorem step_of_fetch {op : Opcode} (hop : fetch code m.pc = some op) :
    step p h code m = execute p h code op (m.setPc (m.pc + 1)) := by
  obtain ⟨b, hb, hbo⟩ := Option.bind_eq_some_iff.mp hop
  obtain ⟨hlt, -⟩ := List.getElem?_eq_some_iff.mp hb
  rw [step, if_pos hlt, byteAt_eq hb]
  simp only [Machine.orFail, hbo]

theorem step_cases (p : Profile) (h : Host S) (code : List UInt8) (m : Machine S) :
    (∃ op, fetch code m.pc = some op ∧
      step p h code m = execute p h code op (m.setPc (m.pc + 1))) ∨
    (code.length ≤ m.pc ∧ step p h code m = m.finish) ∨
    (m.pc < code.length ∧ fetch code m.pc = none ∧
      step p h code m = m.fail (.trap .badOpcode)) := by
  by_cases hlt : m.pc < code.length
  · have hb := List.getElem?_eq_getElem hlt
    cases hop : Opcode.ofByte code[m.pc] with
    | some op =>
      have hf : fetch code m.pc = some op := by rw [fetch, hb]; exact hop
      exact Or.inl ⟨op, hf, step_of_fetch hf⟩
    | none =>
      have hf : fetch code m.pc = none := by rw [fetch, hb]; exact hop
      refine Or.inr (Or.inr ⟨hlt, hf, ?_⟩)
      rw [step, if_pos hlt, byteAt_eq hb]
      simp only [Machine.orFail, hop]
  · refine Or.inr (Or.inl ⟨Nat.le_of_not_lt hlt, ?_⟩)
    rw [step, if_neg hlt]

theorem step_wellFormed {m' : Machine S} (hw : m.vm.WellFormed)
    (hs : step p h code m = .next m') : m'.vm.WellFormed := by
  rcases step_cases p h code m with ⟨op, -, he⟩ | ⟨-, he⟩ | ⟨-, -, he⟩
  · have hpost := @execute_post S p h code (m.setPc (m.pc + 1)) op hw
    rw [← he, hs] at hpost
    exact hpost.1
  · rw [he] at hs
    cases hs
  · rw [he] at hs
    cases hs

theorem wellFormed_of_reaches {s : S} (hr : Reaches (step p h code) (Machine.init s) m) :
    m.vm.WellFormed :=
  hr.invariant (P := fun m => m.vm.WellFormed) Vm.init_wellFormed fun _ _ => step_wellFormed

theorem step_panic_iff (hw : m.vm.WellFormed) :
    (∃ e, step p h code m = .stop e ∧ e.result = .error .panic) ↔ Hazard p h code m := by
  constructor
  · intro ⟨e, he, hp⟩
    rcases step_cases p h code m with ⟨op, hop, hx⟩ | ⟨-, hx⟩ | ⟨-, -, hx⟩
    · have hpost := @execute_post S p h code (m.setPc (m.pc + 1)) op hw
      rw [← hx, he] at hpost
      have hf : op.MayFail p h code (m.setPc (m.pc + 1)) .panic := hpost _ hp
      cases hf with
      | ordinary hf => exact absurd hf (by decide)
      | hazard hz => exact ⟨op, hop, hz⟩
    · rw [hx] at he
      cases he
      cases hp
    · rw [hx] at he
      cases he
      cases hp
  · intro ⟨op, hop, hz⟩
    rw [step_of_fetch hop]
    exact execute_hazard hw hz

end

/-- On a reached machine the next turn aborts the kernel exactly on a hazard. -/
theorem interpreter_panic_iff {S : Type} (p : Profile) (h : Host S) (code : List UInt8) (s : S)
    (m : Machine S) (hr : Reaches (step p h code) (Machine.init s) m) :
    (∃ e, step p h code m = .stop e ∧ e.result = .error .panic) ↔ Hazard p h code m :=
  step_panic_iff (wellFormed_of_reaches hr)

def openHost : Host Unit where
  can _ _ := true
  printNum s _ := s
  printStr s _ := s
  cairnPut s _ := (false, s)
  cairnGet s buf := (none, ⟨buf, rfl⟩, s)

def Outcome.result? {S : Type} : Step S → Option (Except Fault Unit)
  | .next _ => none
  | .stop e => some e.result

theorem exists_stop_of_result {S : Type} {o : Step S} {r : Except Fault Unit}
    (h : Outcome.result? o = some r) : ∃ e, o = .stop e ∧ e.result = r := by
  cases o with
  | next m => cases h
  | stop e => exact ⟨e, rfl, Option.some.inj h⟩

def overflowingQuotient : List UInt8 :=
  [0x01, 0, 0, 0, 0, 0, 0, 0, 0x80, 0x01, 255, 255, 255, 255, 255, 255, 255, 255, 0x13]

def overrunningPrint : List UInt8 :=
  [0x01, 10, 0, 0, 0, 0, 0, 0, 0, 0x01, 251, 255, 255, 255, 255, 255, 255, 255, 0x50, 1]

/-- Two verified programs that abort the kernel, in either build. -/
theorem verified_program_aborts :
    verify overflowingQuotient = .ok () ∧ verify overrunningPrint = .ok () ∧ ∀ p : Profile,
      (∃ m, Reaches (step p openHost overflowingQuotient) (Machine.init ()) m ∧
        ∃ e, step p openHost overflowingQuotient m = .stop e ∧ e.result = .error .panic) ∧
      ∃ m, Reaches (step p openHost overrunningPrint) (Machine.init ()) m ∧
        ∃ e, step p openHost overrunningPrint m = .stop e ∧ e.result = .error .panic := by
  have aborts : ∀ p code, Outcome.result? (run p openHost code 3 ()) = some (.error .panic) →
      ∃ m, Reaches (step p openHost code) (Machine.init ()) m ∧
        ∃ e, step p openHost code m = .stop e ∧ e.result = .error .panic := by
    intro p code hrun
    obtain ⟨e, he, hp⟩ := exists_stop_of_result hrun
    obtain ⟨m, hr, hs⟩ := exists_last he
    exact ⟨m, hr, e, hs, hp⟩
  refine ⟨by decide +kernel, by decide +kernel, ?_⟩
  intro p
  constructor
  · apply aborts
    cases p <;> decide +kernel
  · apply aborts
    cases p <;> decide +kernel

/-- The initial machine of the quotient program is no hazard, the one before the
division is. -/
theorem interpreter_panic_iff_quotient :
    ¬ Hazard .release openHost overflowingQuotient (Machine.init ()) ∧
      ∃ m, Reaches (step .release openHost overflowingQuotient) (Machine.init ()) m ∧
        Hazard .release openHost overflowingQuotient m := by
  constructor
  · rw [← interpreter_panic_iff _ _ _ () _ (Reaches.refl _)]
    intro ⟨e, he, _⟩
    have hnext : Outcome.result? (step .release openHost overflowingQuotient (Machine.init ())) =
        none := by decide +kernel
    rw [he] at hnext
    cases hnext
  · have hrun : Outcome.result? (run .release openHost overflowingQuotient 3 ()) =
        some (.error .panic) := by decide +kernel
    obtain ⟨e, he, hp⟩ := exists_stop_of_result hrun
    obtain ⟨m, hr, hs⟩ := exists_last he
    exact ⟨m, hr, (interpreter_panic_iff _ _ _ () m hr).mp ⟨e, hs, hp⟩⟩

end Dezh.IrMachine

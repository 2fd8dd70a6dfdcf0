import Dezh.IrVerifier

/-!
# The language of the verifier

A program is a sequence of instructions, each a known opcode byte followed by all of
its immediate, and every branch names the offset of one of these instructions. The
size of an instruction is decided by its first byte, so bytes are divided in at most
one way. The two passes of the verifier follow the division from left to right.
-/
namespace Dezh.IrGrammar
open IrMachine

/-- An opcode byte with a complete immediate. -/
structure Instruction where
  byte : UInt8
  op : Opcode
  imm : List UInt8
  known : Opcode.ofByte byte = some op
  complete : imm.length + 1 = op.size
  deriving DecidableEq

variable {i : Instruction} {is : List Instruction}

namespace Instruction

def bytes (i : Instruction) : List UInt8 := i.byte :: i.imm

def target (i : Instruction) : Option ℕ :=
  if i.op.hasTarget then some ((i.imm.getD 0 0).toNat + 256 * (i.imm.getD 1 0).toNat) else none

theorem length_bytes (i : Instruction) : i.bytes.length = i.op.size := i.complete

def strays (len : ℕ) (starts : List ℕ) (i : Instruction) : Bool :=
  i.target.any fun t => decide (len ≤ t ∨ t ∉ starts)

theorem eq_of_bytes_append {i j : Instruction} {s t : List UInt8}
    (h : i.bytes ++ s = j.bytes ++ t) : i = j ∧ s = t := by
  have hbyte : i.byte = j.byte := (List.cons.inj h).1
  have hop : i.op = j.op := by
    have hknown := i.known
    rw [hbyte, j.known] at hknown
    exact (Option.some.inj hknown).symm
  have hlen : i.bytes.length = j.bytes.length := by rw [length_bytes, length_bytes, hop]
  obtain ⟨hbytes, hrest⟩ := List.append_inj h hlen
  refine ⟨?_, hrest⟩
  cases i
  cases j
  cases hbyte
  cases hop
  cases (List.cons.inj hbytes).2
  rfl

end Instruction

def encode (is : List Instruction) : List UInt8 := is.flatMap Instruction.bytes

def offsets : ℕ → List Instruction → List ℕ
  | _, [] => []
  | pc, i :: is => pc :: offsets (pc + i.bytes.length) is

/-- Every branch and call target is the start of one of the instructions. -/
def Closed (is : List Instruction) : Prop :=
  ∀ i ∈ is, ∀ t, i.target = some t → t ∈ offsets 0 is

section
variable {pc t : ℕ}

theorem encode_cons : encode (i :: is) = i.bytes ++ encode is := rfl

theorem encode_injective : ∀ {is js : List Instruction}, encode is = encode js → is = js
  | [], [], _ => rfl
  | [], j :: js, h => by
    rw [encode_cons, Instruction.bytes] at h
    cases h
  | i :: is, [], h => by
    rw [encode_cons, Instruction.bytes] at h
    cases h
  | i :: is, j :: js, h => by
    obtain ⟨rfl, hrest⟩ := Instruction.eq_of_bytes_append h
    rw [encode_injective hrest]

theorem lt_of_mem_offsets (h : t ∈ offsets pc is) : t < pc + (encode is).length := by
  induction is generalizing pc with
  | nil => exact absurd h List.not_mem_nil
  | cons i is ih =>
    have hpos : 0 < i.bytes.length := Nat.succ_pos _
    rw [encode_cons, List.length_append]
    rcases List.mem_cons.mp h with rfl | hmem
    · omega
    · have hlt := ih hmem
      omega

theorem strays_eq_false {len : ℕ} {starts : List ℕ} :
    i.strays len starts = false ↔ ∀ t, i.target = some t → t < len ∧ t ∈ starts := by
  rw [Instruction.strays]
  cases i.target with
  | none | some u => simp

theorem any_strays_eq_false :
    is.any (Instruction.strays (encode is).length (offsets 0 is)) = false ↔ Closed is := by
  rw [List.any_eq_false]
  constructor
  · intro h i hi t ht
    exact (strays_eq_false.mp (Bool.eq_false_iff.mpr (h i hi)) t ht).2
  · intro h i hi
    refine Bool.eq_false_iff.mp (strays_eq_false.mpr fun t ht => ?_)
    have hmem := h i hi t ht
    have hlt := lt_of_mem_offsets hmem
    exact ⟨by omega, hmem⟩

end

section
variable {pre rest code : List UInt8} {starts : List ℕ}

theorem byteAt_append (pre : List UInt8) (x : UInt8) (s : List UInt8) :
    byteAt (pre ++ x :: s) pre.length = .ok x := by
  rw [byteAt, List.getElem?_append_right (Nat.le_refl _), Nat.sub_self]
  rfl

theorem length_program :
    (pre ++ (i.bytes ++ rest)).length = pre.length + i.op.size + rest.length := by
  rw [List.length_append, List.length_append, i.length_bytes]
  omega

theorem instructionStarts_instruction :
    instructionStarts (pre ++ (i.bytes ++ rest)) pre.length =
      (do
        let starts ← instructionStarts (pre ++ (i.bytes ++ rest)) (pre.length + i.op.size)
        pure (pre.length :: starts)) := by
  have hlen := @length_program i pre rest
  have hpos := i.op.size_pos
  conv =>
    lhs
    rw [instructionStarts, if_pos (by omega)]
  rw [show byteAt (pre ++ (i.bytes ++ rest)) pre.length = .ok i.byte from byteAt_append _ _ _, ok_bind,
    i.known]
  dsimp only
  rw [if_neg (by omega)]

theorem instructionStarts_encode :
    instructionStarts (pre ++ encode is) pre.length = .ok (offsets pre.length is) := by
  induction is generalizing pre with
  | nil =>
    refine instructionStarts_end ?_
    simp [encode]
  | cons i is ih =>
    have hrest := @ih (pre ++ i.bytes)
    rw [List.length_append, List.append_assoc, i.length_bytes] at hrest
    rw [encode_cons, instructionStarts_instruction, hrest, offsets, i.length_bytes]
    rfl

theorem drop_instruction {op : Opcode} {pc : ℕ} (hop : fetch code pc = some op)
    (hlen : pc + op.size ≤ code.length) :
    ∃ i : Instruction, i.op = op ∧ code.drop pc = i.bytes ++ code.drop (pc + op.size) := by
  have hlt := lt_of_fetch hop
  have hpos := op.size_pos
  have hknown : Opcode.ofByte code[pc] = some op := by rw [← (fetch_of_lt hlt).2, hop]
  have hsplit : (code.drop (pc + 1)).take (op.size - 1) ++ code.drop (pc + op.size) =
      code.drop (pc + 1) := by
    have hrest : code.drop (pc + op.size) = (code.drop (pc + 1)).drop (op.size - 1) := by
      rw [List.drop_drop, show pc + 1 + (op.size - 1) = pc + op.size by omega]
    rw [hrest, List.take_append_drop]
  refine ⟨⟨code[pc], op, (code.drop (pc + 1)).take (op.size - 1), hknown, ?_⟩, rfl, ?_⟩
  · rw [List.length_take, List.length_drop]
    omega
  · rw [List.drop_eq_getElem_cons hlt]
    exact congrArg (List.cons code[pc]) hsplit.symm

theorem exists_of_instructionStarts (n : ℕ) : ∀ (pc : ℕ) (l : List ℕ), code.length - pc ≤ n →
    pc ≤ code.length → instructionStarts code pc = .ok l → ∃ is, code.drop pc = encode is := by
  induction n with
  | zero =>
    intro pc l hn hle _
    exact ⟨[], List.drop_eq_nil_of_le (by omega)⟩
  | succ n ih =>
    intro pc l hn hle hl
    by_cases h : pc < code.length
    · obtain ⟨op, rest, hop, hlen, hrest, -⟩ := instructionStarts_ok h hl
      have hpos := op.size_pos
      obtain ⟨i, -, hdrop⟩ := drop_instruction hop hlen
      obtain ⟨is, his⟩ := ih (pc + op.size) rest (by omega) hlen hrest
      exact ⟨i :: is, by rw [hdrop, his, encode_cons]⟩
    · exact ⟨[], List.drop_eq_nil_of_le (by omega)⟩

theorem instructionStarts_ne_panic (code : List UInt8) (n : ℕ) : ∀ pc : ℕ, code.length - pc ≤ n →
    instructionStarts code pc ≠ .error .panic := by
  induction n with
  | zero =>
    intro pc hn
    rw [instructionStarts_end (by omega)]
    exact fun h => by cases h
  | succ n ih =>
    intro pc hn
    by_cases h : pc < code.length
    · rw [instructionStarts, if_pos h, (fetch_of_lt h).1, ok_bind]
      cases Opcode.ofByte code[pc] with
      | none => exact fun h => by cases h
      | some op =>
        have hpos := op.size_pos
        dsimp only
        split_ifs with hlen
        · exact fun h => by cases h
        · have hrest := ih (pc + op.size) (by omega)
          cases hl : instructionStarts code (pc + op.size) with
          | error e =>
            rw [hl] at hrest
            exact hrest
          | ok l => exact fun h => by cases h
    · rw [instructionStarts_end h]
      exact fun h => by cases h

theorem imm_of_hasTarget (h : i.op.hasTarget = true) : ∃ lo hi, i.imm = [lo, hi] := by
  have hsize := i.op.size_of_hasTarget h
  have hlen := i.complete
  match himm : i.imm with
  | [lo, hi] => exact ⟨lo, hi, rfl⟩
  | [] | [_] | _ :: _ :: _ :: _ =>
    rw [himm] at hlen
    simp only [List.length_cons, List.length_nil] at hlen
    omega

theorem checkTargets_instruction :
    checkTargets (pre ++ (i.bytes ++ rest)) starts pre.length =
      if i.strays (pre ++ (i.bytes ++ rest)).length starts then .error (.trap .badTarget)
      else checkTargets (pre ++ (i.bytes ++ rest)) starts (pre.length + i.op.size) := by
  have hlen := @length_program i pre rest
  have hpos := i.op.size_pos
  conv =>
    lhs
    rw [checkTargets, if_pos (by omega)]
  rw [show byteAt (pre ++ (i.bytes ++ rest)) pre.length = .ok i.byte from byteAt_append _ _ _, ok_bind,
    i.known]
  dsimp only
  cases ht : i.op.hasTarget with
  | false =>
    have hstrays : i.strays (pre ++ (i.bytes ++ rest)).length starts = false := by
      rw [Instruction.strays, Instruction.target, ht]
      rfl
    rw [hstrays]
    rfl
  | true =>
    obtain ⟨lo, hi, himm⟩ := imm_of_hasTarget ht
    have hlo : byteAt (pre ++ (i.bytes ++ rest)) (pre.length + 1) = .ok lo := by
      have := byteAt_append (pre ++ [i.byte]) lo (hi :: rest)
      simpa [Instruction.bytes, himm] using this
    have hhi : byteAt (pre ++ (i.bytes ++ rest)) (pre.length + 2) = .ok hi := by
      have := byteAt_append (pre ++ [i.byte, lo]) hi rest
      simpa [Instruction.bytes, himm] using this
    have htarget : i.target = some (lo.toNat + 256 * hi.toNat) := by
      rw [Instruction.target, if_pos ht, himm]
      rfl
    rw [if_pos rfl, hlo, ok_bind, hhi, ok_bind, Instruction.strays, htarget, Option.any_some]
    by_cases hbad : (pre ++ (i.bytes ++ rest)).length ≤ lo.toNat + 256 * hi.toNat ∨
        lo.toNat + 256 * hi.toNat ∉ starts
    · rw [if_pos hbad, if_pos (decide_eq_true hbad)]
      rfl
    · rw [if_neg hbad, if_neg (by simpa using hbad)]

theorem checkTargets_encode (hcode : code = pre ++ encode is) :
    checkTargets code starts pre.length =
      if is.any (Instruction.strays code.length starts) then .error (.trap .badTarget)
      else .ok () := by
  induction is generalizing pre with
  | nil =>
    rw [checkTargets, if_neg (by simp [hcode, encode])]
    rfl
  | cons i is ih =>
    have hrest := @ih (pre ++ i.bytes) (by rw [hcode, encode_cons, List.append_assoc])
    rw [List.length_append, i.length_bytes] at hrest
    rw [encode_cons] at hcode
    subst hcode
    rw [checkTargets_instruction, hrest, List.any_cons]
    cases i.strays (pre ++ (i.bytes ++ encode is)).length starts with
    | true | false => rfl

end

theorem verify_encode (is : List Instruction) :
    verify (encode is) =
      if maxProg < (encode is).length then .error (.trap .tooLong)
      else if is.any (Instruction.strays (encode is).length (offsets 0 is)) then
        .error (.trap .badTarget)
      else .ok () := by
  have hstarts : instructionStarts (encode is) 0 = .ok (offsets 0 is) :=
    @instructionStarts_encode is []
  have hcheck := @checkTargets_encode is [] (encode is) (offsets 0 is) rfl
  rw [verify, hstarts, ok_bind]
  rw [List.length_nil] at hcheck
  rw [hcheck]

theorem verify_encode_ok (is : List Instruction) :
    verify (encode is) = .ok () ↔ (encode is).length ≤ maxProg ∧ Closed is := by
  rw [verify_encode, ← any_strays_eq_false]
  by_cases hlen : maxProg < (encode is).length
  · rw [if_pos hlen]
    refine iff_of_false ?_ fun h => absurd hlen (by omega)
    intro h
    cases h
  · rw [if_neg hlen]
    cases is.any (Instruction.strays (encode is).length (offsets 0 is)) with
    | true => simp
    | false => simpa using hlen

theorem exists_of_verify {code : List UInt8} (h : verify code = .ok ()) :
    ∃ is, code = encode is := by
  unfold verify at h
  split_ifs at h
  obtain ⟨starts, hstarts, -⟩ := bind_eq_ok h
  exact exists_of_instructionStarts code.length 0 starts (Nat.sub_le _ _) (Nat.zero_le _) hstarts

theorem verify_ne_panic (code : List UInt8) : verify code ≠ .error .panic := by
  intro h
  have hfirst := instructionStarts_ne_panic code code.length 0 (Nat.sub_le _ _)
  cases hstarts : instructionStarts code 0 with
  | error e =>
    rw [hstarts] at hfirst
    unfold verify at h
    split_ifs at h
    · cases h
    · rw [hstarts] at h
      exact hfirst (congrArg Except.error (Except.error.inj h))
  | ok l =>
    -- A first pass that succeeds has divided the program, and then the verdict is known.
    obtain ⟨is, his⟩ := exists_of_instructionStarts code.length 0 l (Nat.sub_le _ _)
      (Nat.zero_le _) hstarts
    rw [List.drop_zero] at his
    rw [his, verify_encode] at h
    split_ifs at h <;> cases h

/-- The verifier accepts exactly the programs: at most 4096 bytes that are divided into
instructions whose branch and call targets are starts of these instructions. It never
aborts, and no bytes are divided in two ways. -/
theorem verifier_decides (code : List UInt8) :
    verify code ≠ .error .panic ∧
      (verify code = .ok () ↔ code.length ≤ 4096 ∧ ∃ is, encode is = code ∧ Closed is) ∧
      ∀ is js, encode is = code → encode js = code → is = js := by
  refine ⟨verify_ne_panic code, ⟨?_, ?_⟩, ?_⟩
  · intro h
    obtain ⟨is, rfl⟩ := exists_of_verify h
    obtain ⟨hlen, hclosed⟩ := (verify_encode_ok is).mp h
    exact ⟨hlen, is, rfl, hclosed⟩
  · rintro ⟨hlen, is, rfl, hclosed⟩
    exact (verify_encode_ok is).mpr ⟨hlen, hclosed⟩
  · intro is js his hjs
    exact encode_injective (his.trans hjs.symm)

end Dezh.IrGrammar

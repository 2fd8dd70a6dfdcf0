import Dezh.ByteLayout
import Mathlib.Data.List.DropRight

/-!
# Base64 chunks

The decoder shifts six bits into an accumulator for each character and writes a byte
whenever eight are there. It ends with a check that the bits left over are zero. The
accumulator also keeps bits that were written long ago; they are shifted out on top and
never read again, so what counts is how many low bits are still to be written and their
value.
-/
namespace Dezh.Base64
open ByteLayout

variable {out cs : List UInt8} {c : UInt8} {b r : ℕ}

def val (c : UInt8) : Option UInt32 :=
  if 0x41 ≤ c ∧ c ≤ 0x5A then some (c - 0x41).toUInt32
  else if 0x61 ≤ c ∧ c ≤ 0x7A then some (c - 0x61 + 26).toUInt32
  else if 0x30 ≤ c ∧ c ≤ 0x39 then some (c - 0x30 + 52).toUInt32
  else if c = 0x2B then some 62
  else if c = 0x2F then some 63
  else none

/-- The variables of the loop and the output buffer. -/
structure Scan where
  n : ℕ
  acc : UInt32
  bits : ℕ
  padded : Bool
  out : List UInt8
  deriving DecidableEq, Repr

variable {s s' : Scan}

def pad : UInt8 := 0x3D

def step (s : Scan) (c : UInt8) : Option Scan :=
  if c = pad then some { s with padded := true }
  else if s.padded then none
  else do
    let v ← val c
    let acc := (s.acc <<< 6) ||| v
    let bits := s.bits + 6
    if 8 ≤ bits then
      if s.out.length ≤ s.n then none
      else some { s with
        n := s.n + 1
        acc := acc
        bits := bits - 8
        out := s.out.set s.n (acc >>> UInt32.ofNat (bits - 8)).toUInt8 }
    else some { s with acc := acc, bits := bits }

def decode (input out : List UInt8) : Option (ℕ × List UInt8) := do
  let s ← input.foldlM step ⟨0, 0, 0, false, out⟩
  if 0 < s.bits ∧ s.acc &&& ((1 <<< UInt32.ofNat s.bits) - 1) ≠ 0 then none
  else some (s.n, s.out)

def chr (v : ℕ) : UInt8 :=
  if v < 26 then UInt8.ofNat (0x41 + v)
  else if v < 52 then UInt8.ofNat (0x61 + (v - 26))
  else if v < 62 then UInt8.ofNat (0x30 + (v - 52))
  else if v = 62 then 0x2B
  else 0x2F

def encode : List UInt8 → List UInt8
  | [] => []
  | [a] => [chr (a.toNat / 4), chr (a.toNat % 4 * 16)]
  | [a, b] => [chr (a.toNat / 4), chr (a.toNat % 4 * 16 + b.toNat / 16), chr (b.toNat % 16 * 4)]
  | a :: b :: c :: rest =>
    chr (a.toNat / 4) :: chr (a.toNat % 4 * 16 + b.toNat / 16) ::
      chr (b.toNat % 16 * 4 + c.toNat / 64) :: chr (c.toNat % 64) :: encode rest

def padding (bytes : List UInt8) : List UInt8 :=
  if bytes.length % 3 = 1 then [pad, pad] else if bytes.length % 3 = 2 then [pad] else []

theorem chr_ne_pad : ∀ v < 64, chr v ≠ pad := by decide

theorem val_chr : ∀ v < 64, val (chr v) = some (UInt32.ofNat v) := by decide

theorem chr_of_val {c : UInt8} {v : UInt32} (h : val c = some v) :
    v.toNat < 64 ∧ chr v.toNat = c := by
  have hall : ∀ n < 256, (val (UInt8.ofNat n)).all fun v =>
      decide (v.toNat < 64 ∧ chr v.toNat = UInt8.ofNat n) := by decide +kernel
  have hc := hall c.toNat c.toNat_lt
  rw [UInt8.ofNat_toNat, h] at hc
  exact of_decide_eq_true hc

section

theorem toNat_shift_or (a v : UInt32) (hv : v.toNat < 64) :
    ((a <<< 6) ||| v).toNat = 64 * (a.toNat % 2 ^ 26) + v.toNat := by
  have hshift : (a <<< 6).toNat = 2 ^ 6 * (a.toNat % 2 ^ 26) := by
    rw [UInt32.toNat_shiftLeft, show (6 : UInt32).toNat % 32 = 6 from rfl, Nat.shiftLeft_eq]
    omega
  rw [UInt32.toNat_or, hshift, ← Nat.two_pow_add_eq_or_of_lt hv]

/-- The bits still to be written: their number and their value. -/
structure Holds (out : List UInt8) (s : Scan) (bytes : List UInt8) (bits low : ℕ) : Prop where
  n_eq : s.n = bytes.length
  out_eq : s.out = bytes ++ out.drop bytes.length
  le : bytes.length ≤ out.length
  bits_eq : s.bits = bits
  low_eq : s.acc.toNat % 2 ^ bits = low

variable {bytes : List UInt8} {v : UInt32}

theorem step_first (h : Holds out s bytes 0 r) (hp : s.padded = false) (hc : c ≠ pad)
    (hv : val c = some v) :
    ∃ s', step s c = some s' ∧ s'.padded = false ∧ Holds out s' bytes 6 v.toNat := by
  have hacc := toNat_shift_or s.acc v (chr_of_val hv).1
  have hlt := (chr_of_val hv).1
  refine ⟨{ s with acc := (s.acc <<< 6) ||| v, bits := 6 }, ?_, hp, h.n_eq, h.out_eq, h.le, rfl, ?_⟩
  · rw [step, if_neg hc, if_neg (by simp [hp]), hv]
    simp [h.bits_eq]
  · rw [hacc]
    omega

theorem Holds.length_out (h : Holds out s bytes b r) : s.out.length = out.length := by
  have hle := h.le
  rw [h.out_eq, List.length_append, List.length_drop]
  omega

theorem set_append_drop (x : UInt8) (h : bytes.length < out.length) :
    (bytes ++ out.drop bytes.length).set bytes.length x =
      bytes ++ [x] ++ out.drop (bytes ++ [x]).length := by
  rw [List.set_append_right _ _ (Nat.le_refl _), Nat.sub_self, List.drop_eq_getElem_cons h,
    List.set_cons_zero, List.append_assoc, List.length_append]
  rfl

theorem shift_byte {a : UInt32} (hb : b = 0 ∨ b = 2 ∨ b = 4) (hv : v.toNat < 64)
    (hr : a.toNat % 2 ^ (b + 2) = r) :
    (((a <<< 6) ||| v) >>> UInt32.ofNat b).toUInt8 = UInt8.ofNat ((r * 64 + v.toNat) / 2 ^ b) ∧
      ((a <<< 6) ||| v).toNat % 2 ^ b = (r * 64 + v.toNat) % 2 ^ b := by
  have hacc := toNat_shift_or a v hv
  constructor
  · apply UInt8.toNat.inj
    rw [UInt32.toNat_toUInt8, UInt32.toNat_shiftRight, UInt8.toNat_ofNat', hacc,
      Nat.shiftRight_eq_div_pow]
    rcases hb with rfl | rfl | rfl
    · rw [show (UInt32.ofNat 0).toNat % 32 = 0 from rfl]
      omega
    · rw [show (UInt32.ofNat 2).toNat % 32 = 2 from rfl]
      omega
    · rw [show (UInt32.ofNat 4).toNat % 32 = 4 from rfl]
      omega
  · rw [hacc]
    rcases hb with rfl | rfl | rfl <;> omega

theorem step_byte (h : Holds out s bytes (b + 2) r) (hb : b = 0 ∨ b = 2 ∨ b = 4)
    (hp : s.padded = false) (hc : c ≠ pad) (hv : val c = some v) (hroom : bytes.length < out.length) :
    ∃ s', step s c = some s' ∧ s'.padded = false ∧
      Holds out s' (bytes ++ [UInt8.ofNat ((r * 64 + v.toNat) / 2 ^ b)]) b
        ((r * 64 + v.toNat) % 2 ^ b) := by
  obtain ⟨hbyte, hlow⟩ := shift_byte hb (chr_of_val hv).1 h.low_eq
  refine ⟨⟨s.n + 1, (s.acc <<< 6) ||| v, b, s.padded,
    s.out.set s.n (((s.acc <<< 6) ||| v) >>> UInt32.ofNat b).toUInt8⟩, ?_, hp, ?_, ?_, ?_, rfl, hlow⟩
  · have hlen := h.length_out
    have hn := h.n_eq
    rw [step, if_neg hc, if_neg (by simp [hp]), hv]
    simp only [Option.bind_eq_bind, Option.bind_some, h.bits_eq, show b + 2 + 6 - 8 = b by omega]
    rw [if_pos (by omega), if_neg (by omega)]
  · rw [List.length_append, h.n_eq]
    rfl
  · rw [h.out_eq, h.n_eq, hbyte, set_append_drop _ hroom]
  · rw [List.length_append]
    exact hroom

theorem step_full (h : Holds out s bytes (b + 2) r) (hc : c ≠ pad)
    (hfull : out.length ≤ bytes.length) : step s c = none := by
  have hlen := h.length_out
  have hn := h.n_eq
  rw [step, if_neg hc]
  by_cases hp : s.padded = true
  · rw [if_pos hp]
  · rw [if_neg hp]
    cases hv : val c with
    | none => rfl
    | some v =>
      simp only [Option.bind_eq_bind, Option.bind_some, h.bits_eq]
      rw [if_pos (by omega), if_pos (by omega)]

theorem val_of_step (hc : c ≠ pad) (h : step s c = some s') : ∃ v, val c = some v := by
  rw [step, if_neg hc] at h
  by_cases hp : s.padded = true
  · rw [if_pos hp] at h
    cases h
  · rw [if_neg hp] at h
    obtain ⟨v, hv, -⟩ := Option.bind_eq_some_iff.mp h
    exact ⟨v, hv⟩

end

section
variable {pre : List UInt8} {v low : ℕ}

theorem foldlM_step (h : step s c = some s') : (c :: cs).foldlM step s = cs.foldlM step s' := by
  rw [List.foldlM_cons, h, Option.bind_eq_bind, Option.bind_some]

theorem step_of_foldlM {t : Scan} (h : (c :: cs).foldlM step s = some t) :
    ∃ s', step s c = some s' ∧ cs.foldlM step s' = some t := by
  rw [List.foldlM_cons] at h
  exact Option.bind_eq_some_iff.mp h

theorem chr_first (v : ℕ) (hv : v < 64) (h : Holds out s pre 0 r) (hp : s.padded = false) :
    ∃ s', step s (chr v) = some s' ∧ s'.padded = false ∧ Holds out s' pre 6 v := by
  have hstep := step_first h hp (chr_ne_pad v hv) (val_chr v hv)
  rwa [UInt32.toNat_ofNat_of_lt' (lt_trans hv (by decide))] at hstep

theorem chr_byte (v low : ℕ) (x : UInt8) (hv : v < 64) (h : Holds out s pre (b + 2) r)
    (hb : b = 0 ∨ b = 2 ∨ b = 4) (hp : s.padded = false) (hroom : pre.length < out.length)
    (hx : (r * 64 + v) / 2 ^ b = x.toNat) (hlow : (r * 64 + v) % 2 ^ b = low) :
    ∃ s', step s (chr v) = some s' ∧ s'.padded = false ∧ Holds out s' (pre ++ [x]) b low := by
  have hstep := step_byte h hb hp (chr_ne_pad v hv) (val_chr v hv) hroom
  rwa [UInt32.toNat_ofNat_of_lt' (lt_trans hv (by decide)), hx, hlow, UInt8.ofNat_toNat] at hstep

theorem first_of_run {t : Scan} (h : Holds out s pre 0 r) (hp : s.padded = false)
    (hdata : ∀ x ∈ c :: cs, x ≠ pad) (hrun : (c :: cs).foldlM step s = some t) :
    ∃ v s', v < 64 ∧ c = chr v ∧ s'.padded = false ∧ Holds out s' pre 6 v ∧
      (∀ x ∈ cs, x ≠ pad) ∧ cs.foldlM step s' = some t := by
  obtain ⟨hc, hdata⟩ := List.forall_mem_cons.mp hdata
  obtain ⟨s', hs, hrun⟩ := step_of_foldlM hrun
  obtain ⟨v, hv⟩ := val_of_step hc hs
  obtain ⟨t, ht, hp', hholds⟩ := step_first h hp hc hv
  rw [hs] at ht
  cases ht
  exact ⟨v.toNat, s', (chr_of_val hv).1, (chr_of_val hv).2.symm, hp', hholds, hdata, hrun⟩

theorem byte_of_run {t : Scan} (h : Holds out s pre (b + 2) r) (hb : b = 0 ∨ b = 2 ∨ b = 4)
    (hp : s.padded = false) (hdata : ∀ x ∈ c :: cs, x ≠ pad)
    (hrun : (c :: cs).foldlM step s = some t) :
    ∃ v s', v < 64 ∧ c = chr v ∧ s'.padded = false ∧
      Holds out s' (pre ++ [UInt8.ofNat ((r * 64 + v) / 2 ^ b)]) b ((r * 64 + v) % 2 ^ b) ∧
      (∀ x ∈ cs, x ≠ pad) ∧ cs.foldlM step s' = some t := by
  obtain ⟨hc, hdata⟩ := List.forall_mem_cons.mp hdata
  obtain ⟨s', hs, hrun⟩ := step_of_foldlM hrun
  obtain ⟨v, hv⟩ := val_of_step hc hs
  have hroom : pre.length < out.length := by
    by_contra hfull
    rw [step_full h hc (by omega)] at hs
    cases hs
  obtain ⟨t, ht, hp', hholds⟩ := step_byte h hb hp hc hv hroom
  rw [hs] at ht
  cases ht
  exact ⟨v.toNat, s', (chr_of_val hv).1, (chr_of_val hv).2.symm, hp', hholds, hdata, hrun⟩

end

theorem run_encode : ∀ (bs pre : List UInt8) (s : Scan), Holds out s pre 0 0 → s.padded = false →
    pre.length + bs.length ≤ out.length →
    ∃ s' bits, (encode bs).foldlM step s = some s' ∧ bits ≤ 4 ∧ Holds out s' (pre ++ bs) bits 0
  | [], pre, s, h, _, _ => ⟨s, 0, rfl, by omega, by rwa [List.append_nil]⟩
  | [x], pre, s, h, hp, hlen => by
    have hx := x.toNat_lt
    rw [List.length_singleton] at hlen
    obtain ⟨s1, h1, hp1, hs1⟩ := chr_first (x.toNat / 4) (by omega) h hp
    obtain ⟨s2, h2, -, hs2⟩ := chr_byte (b := 4) (x.toNat % 4 * 16) 0 x (by omega) hs1 (by omega)
      hp1 (by omega) (by omega) (by omega)
    refine ⟨s2, 4, ?_, by omega, hs2⟩
    rw [encode, foldlM_step h1, foldlM_step h2]
    rfl
  | [x, y], pre, s, h, hp, hlen => by
    have hx := x.toNat_lt
    have hy := y.toNat_lt
    rw [List.length_cons, List.length_singleton] at hlen
    obtain ⟨s1, h1, hp1, hs1⟩ := chr_first (x.toNat / 4) (by omega) h hp
    obtain ⟨s2, h2, hp2, hs2⟩ := chr_byte (b := 4) (x.toNat % 4 * 16 + y.toNat / 16)
      (y.toNat / 16) x (by omega) hs1 (by omega) hp1 (by omega) (by omega) (by omega)
    obtain ⟨s3, h3, -, hs3⟩ := chr_byte (b := 2) (y.toNat % 16 * 4) 0 y (by omega) hs2 (by omega)
      hp2 (by rw [List.length_append, List.length_singleton]; omega) (by omega) (by omega)
    refine ⟨s3, 2, ?_, by omega, by rwa [List.append_assoc] at hs3⟩
    rw [encode, foldlM_step h1, foldlM_step h2, foldlM_step h3]
    rfl
  | x :: y :: z :: rest, pre, s, h, hp, hlen => by
    have hx := x.toNat_lt
    have hy := y.toNat_lt
    have hz := z.toNat_lt
    rw [List.length_cons, List.length_cons, List.length_cons] at hlen
    obtain ⟨s1, h1, hp1, hs1⟩ := chr_first (x.toNat / 4) (by omega) h hp
    obtain ⟨s2, h2, hp2, hs2⟩ := chr_byte (b := 4) (x.toNat % 4 * 16 + y.toNat / 16)
      (y.toNat / 16) x (by omega) hs1 (by omega) hp1 (by omega) (by omega) (by omega)
    obtain ⟨s3, h3, hp3, hs3⟩ := chr_byte (b := 2) (y.toNat % 16 * 4 + z.toNat / 64)
      (z.toNat / 64) y (by omega) hs2 (by omega) hp2
      (by rw [List.length_append, List.length_singleton]; omega) (by omega) (by omega)
    obtain ⟨s4, h4, hp4, hs4⟩ := chr_byte (b := 0) (z.toNat % 64) 0 z (by omega) hs3 (by omega)
      hp3 (by simp only [List.length_append, List.length_singleton]; omega) (by omega) (by omega)
    obtain ⟨s', bits, hrun, hbits, hs'⟩ := run_encode rest _ s4 hs4 hp4
      (by simp only [List.length_append, List.length_singleton]; omega)
    have happend : pre ++ [x] ++ [y] ++ [z] ++ rest = pre ++ x :: y :: z :: rest := by simp
    refine ⟨s', bits, ?_, hbits, by rwa [happend] at hs'⟩
    rw [encode, foldlM_step h1, foldlM_step h2, foldlM_step h3, foldlM_step h4, hrun]

theorem toNat_byte {n : ℕ} (h : n < 256) : (UInt8.ofNat n).toNat = n :=
  UInt8.toNat_ofNat_of_lt' h

theorem length_encode_mod : ∀ bs : List UInt8, (encode bs).length % 4 ≠ 1
  | [] => by decide
  | [_] => by simp [encode]
  | [_, _] => by simp [encode]
  | _ :: _ :: _ :: rest => by
    have hrest := length_encode_mod rest
    simp only [encode, List.length_cons]
    omega

theorem run_canonical : ∀ (data pre : List UInt8) (s s' : Scan), Holds out s pre 0 0 →
    s.padded = false → (∀ c ∈ data, c ≠ pad) → data.foldlM step s = some s' →
    ∃ bs bits low, Holds out s' (pre ++ bs) bits low ∧ bits ≤ 6 ∧
      (low = 0 → data.length % 4 ≠ 1 → data = encode bs)
  | [], pre, s, s', h, _, _, hrun => by
    cases hrun
    exact ⟨[], 0, 0, by rwa [List.append_nil], by omega, fun _ _ => rfl⟩
  | [c1], pre, s, s', h, hp, hdata, hrun => by
    obtain ⟨v1, s1, hv1, rfl, -, hs1, -, hrun⟩ := first_of_run h hp hdata hrun
    cases hrun
    exact ⟨[], 6, v1, by rwa [List.append_nil], by omega, fun _ hlen => absurd rfl hlen⟩
  | [c1, c2], pre, s, s', h, hp, hdata, hrun => by
    obtain ⟨v1, s1, hv1, rfl, hp1, hs1, hdata, hrun⟩ := first_of_run h hp hdata hrun
    obtain ⟨v2, s2, hv2, rfl, -, hs2, -, hrun⟩ := byte_of_run hs1 (b := 4) (by omega) hp1 hdata hrun
    cases hrun
    refine ⟨_, 4, _, hs2, by omega, fun hlow _ => ?_⟩
    rw [encode, toNat_byte (by omega), show (v1 * 64 + v2) / 2 ^ 4 / 4 = v1 by omega,
      show (v1 * 64 + v2) / 2 ^ 4 % 4 * 16 = v2 by omega]
  | [c1, c2, c3], pre, s, s', h, hp, hdata, hrun => by
    obtain ⟨v1, s1, hv1, rfl, hp1, hs1, hdata, hrun⟩ := first_of_run h hp hdata hrun
    obtain ⟨v2, s2, hv2, rfl, hp2, hs2, hdata, hrun⟩ :=
      byte_of_run hs1 (b := 4) (by omega) hp1 hdata hrun
    obtain ⟨v3, s3, hv3, rfl, -, hs3, -, hrun⟩ := byte_of_run hs2 (b := 2) (by omega) hp2 hdata hrun
    cases hrun
    rw [List.append_assoc] at hs3
    refine ⟨_, 2, _, hs3, by omega, fun hlow _ => ?_⟩
    generalize hb1 : (v1 * 64 + v2) / 2 ^ 4 = b1 at *
    generalize hb2 : ((v1 * 64 + v2) % 2 ^ 4 * 64 + v3) / 2 ^ 2 = b2 at *
    rw [List.singleton_append, encode, toNat_byte (by omega), toNat_byte (by omega),
      show b1 / 4 = v1 by omega, show b1 % 4 * 16 + b2 / 16 = v2 by omega,
      show b2 % 16 * 4 = v3 by omega]
  | c1 :: c2 :: c3 :: c4 :: rest, pre, s, s', h, hp, hdata, hrun => by
    obtain ⟨v1, s1, hv1, rfl, hp1, hs1, hdata, hrun⟩ := first_of_run h hp hdata hrun
    obtain ⟨v2, s2, hv2, rfl, hp2, hs2, hdata, hrun⟩ :=
      byte_of_run hs1 (b := 4) (by omega) hp1 hdata hrun
    obtain ⟨v3, s3, hv3, rfl, hp3, hs3, hdata, hrun⟩ :=
      byte_of_run hs2 (b := 2) (by omega) hp2 hdata hrun
    obtain ⟨v4, s4, hv4, rfl, hp4, hs4, hdata, hrun⟩ :=
      byte_of_run hs3 (b := 0) (by omega) hp3 hdata hrun
    rw [Nat.pow_zero, Nat.mod_one] at hs4
    obtain ⟨bs, bits, low, hs', hbits, hrest⟩ := run_canonical rest _ s4 s' hs4 hp4
      hdata hrun
    generalize hb1 : (v1 * 64 + v2) / 2 ^ 4 = b1 at *
    generalize hb2 : ((v1 * 64 + v2) % 2 ^ 4 * 64 + v3) / 2 ^ 2 = b2 at *
    generalize hb3 : (((v1 * 64 + v2) % 2 ^ 4 * 64 + v3) % 2 ^ 2 * 64 + v4) / 1 = b3 at *
    refine ⟨UInt8.ofNat b1 :: UInt8.ofNat b2 :: UInt8.ofNat b3 :: bs, bits, low, ?_, hbits, ?_⟩
    · have happend : pre ++ [UInt8.ofNat b1] ++ [UInt8.ofNat b2] ++ [UInt8.ofNat b3] ++ bs =
          pre ++ UInt8.ofNat b1 :: UInt8.ofNat b2 :: UInt8.ofNat b3 :: bs := by simp
      rwa [happend] at hs'
    · intro hlow hlen
      rw [encode, toNat_byte (by omega), toNat_byte (by omega), toNat_byte (by omega),
        show b1 / 4 = v1 by omega, show b1 % 4 * 16 + b2 / 16 = v2 by omega,
        show b2 % 16 * 4 + b3 / 64 = v3 by omega, show b3 % 64 = v4 by omega,
        ← hrest hlow (by simp only [List.length_cons] at hlen; omega)]

theorem run_padded (hp : s.padded = true) (h : cs.foldlM step s = some s') :
    s' = s ∧ ∀ c ∈ cs, c = pad := by
  induction cs generalizing s with
  | nil =>
    cases h
    exact ⟨rfl, fun c hc => absurd hc List.not_mem_nil⟩
  | cons c cs ih =>
    obtain ⟨t, ht, h⟩ := step_of_foldlM h
    have hc : c = pad := by
      by_contra hne
      rw [step, if_neg hne, if_pos hp] at ht
      cases ht
    rw [step, if_pos hc] at ht
    cases ht
    obtain ⟨heq, hall⟩ := ih rfl h
    refine ⟨?_, List.forall_mem_cons.mpr ⟨hc, hall⟩⟩
    rw [heq, ← hp]

theorem run_pads (h : ∀ c ∈ cs, c = pad) : ∃ p, cs.foldlM step s = some { s with padded := p } := by
  induction cs generalizing s with
  | nil => exact ⟨s.padded, rfl⟩
  | cons c cs ih =>
    obtain ⟨hc, hall⟩ := List.forall_mem_cons.mp h
    have hstep : step s c = some { s with padded := true } := by rw [step, if_pos hc]
    rw [foldlM_step hstep]
    exact ih hall

def unpadded (input : List UInt8) : List UInt8 := input.rdropWhile (· == pad)

section
variable {data pads input : List UInt8}

theorem unpadded_append (hdata : ∀ c ∈ data, c ≠ pad) (hpads : ∀ c ∈ pads, c = pad) :
    unpadded (data ++ pads) = data := by
  induction pads using List.reverseRecOn with
  | nil =>
    rw [List.append_nil, unpadded, List.rdropWhile_eq_self_iff]
    intro hne
    simpa using hdata _ (List.getLast_mem hne)
  | append_singleton pads c ih =>
    have hc : c = pad := hpads c (by simp)
    rw [← List.append_assoc, unpadded, List.rdropWhile_concat_pos _ _ _ (by simp [hc]), ← unpadded]
    exact ih fun d hd => hpads d (by simp [hd])

theorem divided_of_run {s s' : Scan} (h : input.foldlM step s = some s') :
    ∃ data pads t, input = data ++ pads ∧ (∀ c ∈ data, c ≠ pad) ∧ (∀ c ∈ pads, c = pad) ∧
      data.foldlM step s = some t ∧ ∃ p, s' = { t with padded := p } := by
  induction input generalizing s with
  | nil =>
    cases h
    exact ⟨[], [], _, rfl, by simp, by simp, rfl, _, rfl⟩
  | cons c cs ih =>
    obtain ⟨t, ht, h⟩ := step_of_foldlM h
    by_cases hc : c = pad
    · rw [step, if_pos hc] at ht
      cases ht
      obtain ⟨rfl, hall⟩ := run_padded rfl h
      exact ⟨[], c :: cs, s, rfl, by simp, List.forall_mem_cons.mpr ⟨hc, hall⟩, rfl, true, rfl⟩
    · obtain ⟨data, pads, u, rfl, hdata, hpads, hrun, hp⟩ := ih h
      exact ⟨c :: data, pads, u, rfl, List.forall_mem_cons.mpr ⟨hc, hdata⟩, hpads,
        (foldlM_step ht).trans hrun, hp⟩

theorem and_mask {a : UInt32} {bits : ℕ} (h : bits ≤ 6) :
    a &&& ((1 <<< UInt32.ofNat bits) - 1) = 0 ↔ a.toNat % 2 ^ bits = 0 := by
  have hmask : ∀ b < 7, ((1 <<< UInt32.ofNat b) - 1 : UInt32).toNat = 2 ^ b - 1 := by decide
  rw [← UInt32.toNat_inj, UInt32.toNat_and, hmask bits (by omega),
    Nat.and_two_pow_sub_one_eq_mod]
  rfl

theorem decode_of_run {s : Scan} {bytes : List UInt8} {bits low : ℕ}
    (hrun : input.foldlM step ⟨0, 0, 0, false, out⟩ = some s) (h : Holds out s bytes bits low)
    (hbits : bits ≤ 6) :
    decode input out = if low = 0 then some (bytes.length, bytes ++ out.drop bytes.length) else none := by
  have hmask := and_mask (a := s.acc) hbits
  rw [decode, hrun]
  simp only [Option.bind_eq_bind, Option.bind_some, h.bits_eq, h.n_eq, h.out_eq, ne_eq, hmask,
    h.low_eq]
  by_cases hlow : low = 0
  · rw [if_pos hlow, if_neg (by simp [hlow])]
  · have hpos : 0 < bits := by
      by_contra hzero
      have hlow' := h.low_eq
      rw [show bits = 0 by omega, Nat.pow_zero, Nat.mod_one] at hlow'
      exact hlow hlow'.symm
    rw [if_neg hlow, if_pos ⟨hpos, hlow⟩]

end

theorem holds_init (out : List UInt8) : Holds out ⟨0, 0, 0, false, out⟩ [] 0 0 :=
  ⟨rfl, rfl, Nat.zero_le _, rfl, rfl⟩

/-- The encoding of any bytes is decoded to them in any buffer that has room, with its
padding or without. An input that is decoded is, without the padding at its end, the
encoding of the bytes that are returned, if and only if it does not end in a single
character beyond the groups of four. -/
theorem base64_exact (bytes pads input out buf : List UInt8) (n : ℕ) :
    (bytes.length ≤ out.length → pads = [] ∨ pads = padding bytes →
      decode (encode bytes ++ pads) out = some (bytes.length, bytes ++ out.drop bytes.length)) ∧
    (decode input out = some (n, buf) →
      (unpadded input = encode (buf.take n) ↔ (unpadded input).length % 4 ≠ 1)) := by
  constructor
  · intro hlen hpads
    obtain ⟨s, bits, hrun, hbits, hs⟩ := run_encode bytes [] _ (holds_init out) rfl (by simpa using hlen)
    have hall : ∀ c ∈ pads, c = pad := by
      rcases hpads with rfl | rfl
      · simp
      · rw [padding]
        split_ifs <;> simp
    obtain ⟨p, hp⟩ := run_pads (s := s) hall
    have hrun' : (encode bytes ++ pads).foldlM step ⟨0, 0, 0, false, out⟩ =
        some { s with padded := p } := by
      rw [List.foldlM_append, hrun, Option.bind_eq_bind, Option.bind_some, hp]
    have hs' : Holds out { s with padded := p } bytes bits 0 :=
      ⟨hs.n_eq, hs.out_eq, hs.le, hs.bits_eq, hs.low_eq⟩
    rw [decode_of_run hrun' hs' (by omega), if_pos rfl]
  · intro h
    obtain ⟨s, hrun, -⟩ := Option.bind_eq_some_iff.mp h
    obtain ⟨data, pads, t, rfl, hdata, hpads, hrun', p, rfl⟩ := divided_of_run hrun
    obtain ⟨bs, bits, low, hs, hbits, hcanonical⟩ :=
      run_canonical data [] _ t (holds_init out) rfl hdata hrun'
    have hs' : Holds out { t with padded := p } bs bits low :=
      ⟨hs.n_eq, hs.out_eq, hs.le, hs.bits_eq, hs.low_eq⟩
    rw [decode_of_run hrun hs' hbits] at h
    split_ifs at h with hlow
    cases h
    rw [unpadded_append hdata hpads, List.take_left]
    constructor
    · intro heq
      rw [heq]
      exact length_encode_mod bs
    · exact hcanonical hlow

/-- The encoding of four bytes, with and without padding. -/
theorem base64_exact_word :
    decode (ascii "RGV6aA") (List.replicate 6 0) = some (4, ascii "Dezh" ++ [0, 0]) ∧
      decode (ascii "RGV6aA==") (List.replicate 6 0) = some (4, ascii "Dezh" ++ [0, 0]) ∧
      unpadded (ascii "RGV6aA==") = encode ((ascii "Dezh" ++ [0, 0]).take 4) :=
  have hbare := base64_exact (ascii "Dezh") [] [] (List.replicate 6 0) [] 0
  have hpadded := base64_exact (ascii "Dezh") (padding (ascii "Dezh")) (ascii "RGV6aA==")
    (List.replicate 6 0) (ascii "Dezh" ++ [0, 0]) 4
  ⟨hbare.1 (by decide) (.inl rfl), hpadded.1 (by decide) (.inr rfl),
    (hpadded.2 (by decide +kernel)).mpr (by decide +kernel)⟩

/-- A single character is decoded to nothing, which has another encoding. -/
theorem dangling_accepted :
    decode (ascii "A") [] = some (0, []) ∧ unpadded (ascii "A") ≠ encode [] ∧
      decode (ascii "RGV6A") (List.replicate 6 0) = some (3, ascii "Dez" ++ [0, 0, 0]) ∧
      unpadded (ascii "RGV6A") ≠ encode (ascii "Dez") := by
  decide +kernel

end Dezh.Base64

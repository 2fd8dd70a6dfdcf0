import Mathlib.Data.List.Basic
import Mathlib.Logic.Function.Iterate

/-!
# Feedback shift registers

A register of `w` bits that is shifted towards its low end, where a one that falls
out is fed back through a polynomial. A message is fed in bit by bit at the low end.
-/
namespace Dezh.ShiftRegister

variable {w : ℕ} {poly a b c : BitVec w}

def shift (poly c : BitVec w) : BitVec w :=
  (c >>> 1) ^^^ if c.getLsbD 0 then poly else 0#w

def bit (x : Bool) : BitVec w := if x then 1#w else 0#w

def feed (poly : BitVec w) (c : BitVec w) (bits : List Bool) : BitVec w :=
  bits.foldl (fun c x => shift poly (c ^^^ bit x)) c

def word : List Bool → BitVec w
  | [] => 0#w
  | x :: bits => bit x ^^^ (word bits <<< 1)

theorem shift_xor (poly a b : BitVec w) : shift poly (a ^^^ b) = shift poly a ^^^ shift poly b := by
  unfold shift
  rw [BitVec.getLsbD_xor, BitVec.ushiftRight_xor_distrib]
  cases a.getLsbD 0 with
  | false =>
    cases b.getLsbD 0 with
    | false => simp
    | true => simp [BitVec.xor_assoc]
  | true =>
    cases b.getLsbD 0 with
    | false =>
      simp [BitVec.xor_assoc, BitVec.xor_comm poly]
    | true =>
      simp only [bne_self_eq_false, Bool.false_eq_true, if_false, if_true, BitVec.xor_zero]
      rw [BitVec.xor_assoc, ← BitVec.xor_assoc poly, BitVec.xor_comm poly, BitVec.xor_assoc,
        BitVec.xor_self, BitVec.xor_zero]

theorem getLsbD_shift (poly c : BitVec w) (i : ℕ) :
    (shift poly c).getLsbD i = (c.getLsbD (i + 1) ^^ (c.getLsbD 0 && poly.getLsbD i)) := by
  unfold shift
  rw [BitVec.getLsbD_xor, BitVec.getLsbD_ushiftRight, Nat.add_comm]
  cases c.getLsbD 0 with
  | false | true => simp

theorem eq_zero_of_shift (hp : poly.msb = true) (h : shift poly c = 0#w) : c = 0#w := by
  have hbits : ∀ i, (c.getLsbD (i + 1) ^^ (c.getLsbD 0 && poly.getLsbD i)) = false := by
    intro i
    rw [← getLsbD_shift, h, BitVec.getLsbD_zero]
  have hlow : c.getLsbD 0 = false := by
    have htop := hbits (w - 1)
    rw [BitVec.msb_eq_getLsbD_last] at hp
    rw [hp, BitVec.getLsbD_of_ge c (w - 1 + 1) (by omega)] at htop
    simpa using htop
  refine BitVec.eq_of_getLsbD_eq fun i _ => ?_
  rw [BitVec.getLsbD_zero]
  cases i with
  | zero => exact hlow
  | succ i =>
    have hi := hbits i
    rw [hlow] at hi
    simpa using hi

theorem shift_injective (hp : poly.msb = true) : Function.Injective (shift poly) := by
  intro a b h
  have hzero : shift poly (a ^^^ b) = 0#w := by rw [shift_xor, h, BitVec.xor_self]
  exact BitVec.xor_eq_zero_iff.mp (eq_zero_of_shift hp hzero)

theorem feed_append (poly c : BitVec w) (x y : List Bool) :
    feed poly c (x ++ y) = feed poly (feed poly c x) y := List.foldl_append

theorem feed_injective (hp : poly.msb = true) (bits : List Bool) :
    Function.Injective (feed poly · bits) := by
  induction bits with
  | nil => exact fun _ _ h => h
  | cons x bits ih =>
    intro a b h
    exact (BitVec.xor_left_inj _).mp (shift_injective hp (ih h))

theorem getLsbD_bit (x : Bool) (i : ℕ) :
    (bit x : BitVec w).getLsbD i = (decide (i = 0) && decide (0 < w) && x) := by
  cases x with
  | false => simp [bit]
  | true => simp [bit, BitVec.getLsbD_one, Bool.and_comm]

theorem getLsbD_word (bits : List Bool) (i : ℕ) :
    (word bits : BitVec w).getLsbD i = (decide (i < w) && bits.getD i false) := by
  induction bits generalizing i with
  | nil => simp [word]
  | cons x bits ih =>
    rw [word, BitVec.getLsbD_xor, getLsbD_bit, BitVec.getLsbD_shiftLeft]
    cases i with
    | zero => simp
    | succ i =>
      rw [Nat.add_sub_cancel, ih]
      by_cases hi : i + 1 < w
      · simp [hi, show i < w by omega]
      · simp [hi]

theorem word_injective {x y : List Bool} (hlen : x.length = y.length) (hle : x.length ≤ w)
    (h : (word x : BitVec w) = word y) : x = y := by
  refine List.ext_getElem hlen fun i hx hy => ?_
  have hi := congrArg (BitVec.getLsbD · i) h
  simp only [getLsbD_word] at hi
  simpa [hx, hy, show i < w by omega] using hi

theorem feed_eq (poly c : BitVec w) {bits : List Bool} (h : bits.length ≤ w) :
    feed poly c bits = (shift poly)^[bits.length] (c ^^^ word bits) := by
  induction bits generalizing c with
  | nil => simp [feed, word]
  | cons x bits ih =>
    rw [List.length_cons] at h
    have hdown : shift poly (word bits <<< 1) = word bits := by
      refine BitVec.eq_of_getLsbD_eq fun i hi => ?_
      rw [getLsbD_shift, BitVec.getLsbD_shiftLeft, BitVec.getLsbD_shiftLeft]
      by_cases htop : i + 1 < w
      · simp [htop]
      · -- the bit that a shift would lose is not part of the message
        rw [getLsbD_word bits i]
        simp [htop, show bits.length ≤ i by omega]
    have hpush : shift poly (c ^^^ bit x) ^^^ word bits = shift poly (c ^^^ word (x :: bits)) := by
      rw [word, ← BitVec.xor_assoc, shift_xor poly (c ^^^ bit x), hdown]
    rw [List.length_cons, Function.iterate_succ_apply, ← hpush]
    exact ih _ (by omega)

theorem feed_burst (hp : poly.msb = true) {x y : List Bool} (before after : List Bool)
    (hlen : x.length = y.length) (hle : x.length ≤ w) (hne : x ≠ y) :
    feed poly c (before ++ x ++ after) ≠ feed poly c (before ++ y ++ after) := by
  intro h
  rw [feed_append, feed_append, feed_append, feed_append] at h
  have hrun := feed_injective hp after h
  have hrun' : (shift poly)^[y.length] (feed poly c before ^^^ word x) =
      (shift poly)^[y.length] (feed poly c before ^^^ word y) := by
    rw [← feed_eq _ _ (hlen ▸ hle), ← hlen, ← feed_eq _ _ hle]
    exact hrun
  have hword := (BitVec.xor_right_inj _).mp ((shift_injective hp).iterate _ hrun')
  exact hne (word_injective hlen hle hword)

end Dezh.ShiftRegister

import Mathlib.Algebra.Group.Nat.Defs
import Mathlib.Logic.Function.Basic
import Mathlib.Tactic.Common

/-!
# Byte memories and fixed-offset fields

A byte memory is a total function from offsets to bytes, seen from some base
address. A block of `n` bytes is taken from the front of a memory, or loaded into it with
a zero byte behind the block. Fields are little endian.
-/
namespace Dezh.ByteLayout

abbrev Bytes := ℕ → UInt8

def ascii (s : String) : List UInt8 := s.toList.map fun c => UInt8.ofNat c.toNat

def u16At (b : Bytes) (off : ℕ) : ℕ := (b off).toNat + 256 * (b (off + 1)).toNat

def u32At (b : Bytes) (off : ℕ) : ℕ :=
  (b off).toNat + 256 * (b (off + 1)).toNat + 65536 * (b (off + 2)).toNat +
    16777216 * (b (off + 3)).toNat

def u64At (b : Bytes) (off : ℕ) : ℕ := u32At b off + 2 ^ 32 * u32At b (off + 4)

def putU8 (b : Bytes) (off : ℕ) (v : UInt8) : Bytes := fun i => if i = off then v else b i

def putLe (width : ℕ) (b : Bytes) (off v : ℕ) : Bytes := fun i =>
  if off ≤ i ∧ i < off + width then UInt8.ofNat (v >>> (8 * (i - off))) else b i

def putU16 : Bytes → ℕ → ℕ → Bytes := putLe 2

def putU32 : Bytes → ℕ → ℕ → Bytes := putLe 4

def putU64 (b : Bytes) (off v : ℕ) : Bytes :=
  putU32 (putU32 b off v) (off + 4) (v >>> 32)

def copy (b : Bytes) (off : ℕ) (src : Bytes) (n : ℕ) : Bytes := fun i =>
  if off ≤ i ∧ i < off + n then src (i - off) else b i

def ofList (l : List UInt8) : Bytes := fun i => l.getD i 0

def zeroFill (b : Bytes) (n : ℕ) : Bytes := fun i => if i < n then 0 else b i

def toList (b : Bytes) (off n : ℕ) : List UInt8 := (List.range n).map fun i => b (off + i)

def matchesAt (b : Bytes) (off : ℕ) : List UInt8 → Bool
  | [] => true
  | c :: cs => b off == c && matchesAt b (off + 1) cs

def startsWith (b : Bytes) (s : List UInt8) : Bool := matchesAt b 0 s

def bytes {n : ℕ} (s : Fin n → UInt8) : Bytes := fun i => if h : i < n then s ⟨i, h⟩ else 0

/-- The block at the front of the memory, and a zero byte behind it. -/
def load {n : ℕ} (b : Bytes) (s : Fin n → UInt8) : Bytes :=
  fun i => if h : i < n then s ⟨i, h⟩ else if i = n then 0 else b i

def take (n : ℕ) (b : Bytes) : Fin n → UInt8 := fun i => b i

section
variable {b c src : Bytes} {o p n v width : ℕ} {x : UInt8} {l : List UInt8}

theorem u32At_lt {b : Bytes} {o : ℕ} : u32At b o < 2 ^ 32 := by
  have h0 := (b o).toNat_lt
  have h1 := (b (o + 1)).toNat_lt
  have h2 := (b (o + 2)).toNat_lt
  have h3 := (b (o + 3)).toNat_lt
  simp only [u32At]
  omega

theorem u16At_congr (h : ∀ i, o ≤ i → i < o + 2 → b i = c i) : u16At b o = u16At c o := by
  simp only [u16At, h o (by omega) (by omega), h (o + 1) (by omega) (by omega)]

theorem u32At_congr (h : ∀ i, o ≤ i → i < o + 4 → b i = c i) : u32At b o = u32At c o := by
  simp only [u32At, h o (by omega) (by omega), h (o + 1) (by omega) (by omega),
    h (o + 2) (by omega) (by omega), h (o + 3) (by omega) (by omega)]

theorem u32At_congr_add {base : ℕ} (h : ∀ i, o ≤ i → i < o + 4 → b (base + i) = c (base + i)) :
    u32At b (base + o) = u32At c (base + o) := by
  refine u32At_congr fun i h1 h2 => ?_
  obtain ⟨j, rfl⟩ : ∃ j, i = base + j := ⟨i - base, by omega⟩
  exact h j (by omega) (by omega)

theorem u64At_congr (h : ∀ i, o ≤ i → i < o + 8 → b i = c i) : u64At b o = u64At c o := by
  simp only [u64At, u32At_congr fun i h1 h2 => h i h1 (by omega),
    u32At_congr (o := o + 4) fun i h1 h2 => h i (by omega) (by omega)]

theorem putLe_of_outside {i : ℕ} (h : i < o ∨ o + width ≤ i) : putLe width b o v i = b i := by
  unfold putLe
  rw [if_neg (by omega)]

theorem putLe_inside {i : ℕ} (h : i < width) :
    putLe width b o v (o + i) = UInt8.ofNat (v >>> (8 * i)) := by
  unfold putLe
  rw [if_pos (by omega), Nat.add_sub_cancel_left]

theorem u32At_putU32_self : u32At (putU32 b o v) o = v % 2 ^ 32 := by
  have h0 := putLe_inside (b := b) (o := o) (v := v) (show 0 < 4 by omega)
  rw [Nat.add_zero] at h0
  simp only [u32At, putU32, h0, putLe_inside (show 1 < 4 by omega),
    putLe_inside (show 2 < 4 by omega), putLe_inside (show 3 < 4 by omega),
    UInt8.toNat_ofNat', Nat.shiftRight_eq_div_pow]
  omega

theorem u32At_putLe_of_disjoint (h : p + 4 ≤ o ∨ o + width ≤ p) :
    u32At (putLe width b o v) p = u32At b p :=
  u32At_congr fun _ _ _ => putLe_of_outside (by omega)

theorem u32At_putU32_of_disjoint (h : p + 4 ≤ o ∨ o + 4 ≤ p) :
    u32At (putU32 b o v) p = u32At b p := u32At_putLe_of_disjoint h

theorem putU32_of_outside {i : ℕ} (h : i < o ∨ o + 4 ≤ i) : putU32 b o v i = b i :=
  putLe_of_outside h

theorem putU32_u32At : putU32 b o (u32At b o) = b := by
  funext i
  by_cases hi : o ≤ i ∧ i < o + 4
  · obtain ⟨k, hk, rfl⟩ : ∃ k < 4, i = o + k := ⟨i - o, by omega, by omega⟩
    have h0 := (b o).toNat_lt
    have h1 := (b (o + 1)).toNat_lt
    have h2 := (b (o + 2)).toNat_lt
    have h3 := (b (o + 3)).toNat_lt
    rw [putU32, putLe_inside hk]
    apply UInt8.toNat.inj
    rw [UInt8.toNat_ofNat', Nat.shiftRight_eq_div_pow]
    simp only [u32At]
    obtain rfl | rfl | rfl | rfl : k = 0 ∨ k = 1 ∨ k = 2 ∨ k = 3 := by omega
    · simp only [Nat.add_zero]
      omega
    all_goals omega
  · rw [putU32_of_outside (by omega)]

theorem putU32_congr (h : ∀ i < n, b i = c i) : ∀ i < n, putU32 b o v i = putU32 c o v i := by
  intro i hi
  simp only [putU32, putLe, h i hi]

theorem putU8_of_ne {i : ℕ} (h : i ≠ o) : putU8 b o x i = b i := if_neg h

theorem putU8_self : putU8 b o x o = x := if_pos rfl

theorem u32At_putU8_of_disjoint (h : p + 4 ≤ o ∨ o < p) : u32At (putU8 b o x) p = u32At b p :=
  u32At_congr fun _ _ _ => putU8_of_ne (by omega)

theorem copy_of_outside {i : ℕ} (h : i < o ∨ o + n ≤ i) : copy b o src n i = b i := by
  unfold copy
  rw [if_neg (by omega)]

theorem copy_inside {i : ℕ} (h : i < n) : copy b o src n (o + i) = src i := by
  unfold copy
  rw [if_pos (by omega), Nat.add_sub_cancel_left]

theorem u32At_copy_of_disjoint (h : p + 4 ≤ o ∨ o + n ≤ p) : u32At (copy b o src n) p = u32At b p :=
  u32At_congr fun _ _ _ => copy_of_outside (by omega)

theorem zeroFill_of_lt {i : ℕ} (h : i < n) : zeroFill b n i = 0 := if_pos h

theorem zeroFill_of_le {i : ℕ} (h : n ≤ i) : zeroFill b n i = b i := if_neg (by omega)

@[simp] theorem zeroFill_zeroFill : zeroFill (zeroFill b n) n = zeroFill b n := by
  funext i
  by_cases h : i < n <;> simp [zeroFill, h]

theorem matchesAt_congr {s : List UInt8} (h : ∀ i, o ≤ i → i < o + s.length → b i = c i) :
    matchesAt b o s = matchesAt c o s := by
  induction s generalizing o with
  | nil => rfl
  | cons x s ih =>
    simp only [List.length_cons] at h
    have hs : matchesAt b (o + 1) s = matchesAt c (o + 1) s :=
      ih fun i h1 h2 => h i (by omega) (by omega)
    simp only [matchesAt, h o (by omega) (by omega), hs]

theorem startsWith_congr {s : List UInt8} (h : ∀ i, i < s.length → b i = c i) :
    startsWith b s = startsWith c s :=
  matchesAt_congr fun i _ hi => h i (by omega)

theorem startsWith_putU32 {s : List UInt8} (h : s.length ≤ o) :
    startsWith (putU32 b o v) s = startsWith b s := by
  refine startsWith_congr fun i hi => putU32_of_outside ?_
  omega

@[simp] theorem length_toList : (toList b o n).length = n := by simp [toList]

theorem toList_congr (h : ∀ i < n, b (o + i) = c (p + i)) : toList b o n = toList c p n := by
  unfold toList
  exact List.map_congr_left fun i hi => h i (List.mem_range.mp hi)

theorem toList_putLe_of_disjoint (h : p + n ≤ o ∨ o + width ≤ p) :
    toList (putLe width b o v) p n = toList b p n :=
  toList_congr fun _ _ => putLe_of_outside (by omega)

theorem toList_putU32_of_disjoint (h : p + n ≤ o ∨ o + 4 ≤ p) :
    toList (putU32 b o v) p n = toList b p n := toList_putLe_of_disjoint h

theorem toList_putU8_of_disjoint (h : p + n ≤ o ∨ o < p) :
    toList (putU8 b o x) p n = toList b p n :=
  toList_congr fun _ _ => putU8_of_ne (by omega)

theorem toList_copy_of_disjoint {k : ℕ} (h : p + n ≤ o ∨ o + k ≤ p) :
    toList (copy b o src k) p n = toList b p n :=
  toList_congr fun _ _ => copy_of_outside (by omega)

theorem toList_ofList : toList (ofList l) 0 l.length = l := by
  apply List.ext_getElem
  · simp
  · intro i _ hi
    simp [toList, ofList, hi]

theorem ofList_toList {i : ℕ} (hi : i < n) : ofList (toList b o n) i = b (o + i) := by
  simp [toList, ofList, hi]

theorem toList_copy_self : toList (copy b o (ofList l) l.length) o l.length = l := by
  have h : toList (copy b o (ofList l) l.length) o l.length = toList (ofList l) 0 l.length :=
    toList_congr fun i hi => by rw [copy_inside hi, Nat.zero_add]
  rw [h, toList_ofList]

end

section
variable {n o i : ℕ} {b : Bytes} {s : Fin n → UInt8} {l : List UInt8}

theorem bytes_of_lt (h : i < n) : bytes s i = s ⟨i, h⟩ := dif_pos h

theorem load_of_lt (h : i < n) : load b s i = bytes s i := by
  rw [bytes_of_lt h, load, dif_pos h]

theorem load_of_gt (h : n < i) : load b s i = b i := by
  rw [load, dif_neg (by omega), if_neg (by omega)]

/-- What lies behind the block and its zero byte is not touched, and the rest is replaced. -/
theorem load_congr {c : Bytes} (h : ∀ i, n < i → b i = c i) : load b s = load c s := by
  funext i
  unfold load
  split_ifs with hlt heq
  · rfl
  · rfl
  · exact h i (by omega)

theorem bytes_take (h : i < n) : bytes (take n b) i = b i := dif_pos h

@[simp] theorem take_bytes (s : Fin n → UInt8) : take n (bytes s) = s := by
  funext i
  exact dif_pos i.isLt

@[simp] theorem take_load (b : Bytes) (s : Fin n → UInt8) : take n (load b s) = s := by
  funext i
  exact dif_pos i.isLt

theorem take_congr {c : Bytes} (h : ∀ i, i < n → b i = c i) : take n b = take n c :=
  funext fun i => h i i.isLt

theorem u32At_bytes_take (h : o + 4 ≤ n) : u32At (bytes (take n b)) o = u32At b o :=
  u32At_congr fun _ _ _ => bytes_take (by omega)

theorem startsWith_load (h : l.length ≤ n) : startsWith (load b s) l = startsWith (bytes s) l :=
  startsWith_congr fun _ _ => load_of_lt (by omega)

theorem startsWith_bytes_take (h : l.length ≤ n) :
    startsWith (bytes (take n b)) l = startsWith b l :=
  startsWith_congr fun _ _ => bytes_take (by omega)

end

end Dezh.ByteLayout

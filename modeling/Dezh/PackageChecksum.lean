import Dezh.PackageText
import Dezh.ShiftRegister

/-!
# The package format and its checksum

Every accepted byte string is the package built from what was read out of it, so
building and parsing are inverse to each other.
-/
namespace Dezh.PackageChecksum
open ByteLayout PackageFormat PackageText ShiftRegister

variable {s t : List UInt8} {k : ℕ}

/-! ### The bits of a byte string -/

def bitAt (s : List UInt8) (i : ℕ) : Bool := (s.getD (i / 8) 0).toNat.testBit (i % 8)

def bits (s : List UInt8) : List Bool := (List.range (8 * s.length)).map (bitAt s)

/-- All bits outside the window `[k, k + n)` are the same. -/
def AgreeOutside (s t : List UInt8) (k n : ℕ) : Prop :=
  ∀ i, i < k ∨ k + n ≤ i → bitAt s i = bitAt t i

def poly : BitVec 32 := 0xEDB88320#32

section
variable {c : UInt32}

theorem mask_eq (x : BitVec 32) : 0 - (x &&& 1#32) = if x.getLsbD 0 then BitVec.allOnes 32 else 0#32 := by
  rw [BitVec.and_one_eq_setWidth_ofBool_getLsbD]
  cases x.getLsbD 0 with
  | false | true => rfl

theorem toBitVec_crcBit (c : UInt32) : (crcBit c).toBitVec = shift poly c.toBitVec := by
  have hmask : (0xEDB88320 &&& (0 - (c &&& 1)) : UInt32).toBitVec =
      poly &&& (0 - (c.toBitVec &&& 1#32)) := rfl
  have hshift : (c >>> 1).toBitVec = c.toBitVec >>> 1 := rfl
  rw [crcBit, UInt32.toBitVec_xor, hshift, hmask, mask_eq, shift]
  split
  · rw [BitVec.and_allOnes]
  · rw [BitVec.and_zero]

theorem toBitVec_iterate (n : ℕ) (c : UInt32) :
    (crcBit^[n] c).toBitVec = (shift poly)^[n] c.toBitVec := by
  induction n generalizing c with
  | zero => rfl
  | succ n ih => rw [Function.iterate_succ_apply, Function.iterate_succ_apply, ih, toBitVec_crcBit]

theorem bitAt_cons_of_lt (x : UInt8) {i : ℕ} (hi : i < 8) :
    bitAt (x :: s) i = x.toNat.testBit i := by
  rw [bitAt, Nat.div_eq_of_lt hi, Nat.mod_eq_of_lt hi]
  rfl

theorem bitAt_cons_add (x : UInt8) (i : ℕ) : bitAt (x :: s) (8 + i) = bitAt s i := by
  rw [bitAt, bitAt, show (8 + i) / 8 = i / 8 + 1 by omega, Nat.add_mod_left]
  rfl

theorem bits_cons (x : UInt8) (s : List UInt8) :
    bits (x :: s) = (List.range 8).map x.toNat.testBit ++ bits s := by
  rw [bits, List.length_cons, Nat.mul_succ, Nat.add_comm, List.range_add, List.map_append,
    List.map_map]
  refine congrArg₂ (· ++ ·) ?_ ?_
  · exact List.map_congr_left fun i hi => bitAt_cons_of_lt x (List.mem_range.mp hi)
  · exact List.map_congr_left fun i _ => bitAt_cons_add x i

theorem word_byte (x : UInt8) :
    word ((List.range 8).map x.toNat.testBit) = x.toUInt32.toBitVec := by
  refine BitVec.eq_of_getLsbD_eq fun i hi => ?_
  have hbyte : x.toUInt32.toBitVec.getLsbD i = (decide (i < 32) && x.toNat.testBit i) :=
    BitVec.getLsbD_setWidth 32 x.toBitVec i
  rw [getLsbD_word, hbyte]
  by_cases h : i < 8
  · simp [List.getD_eq_getElem?_getD, h]
  · have hhigh : x.toNat.testBit i = false := BitVec.getLsbD_of_ge x.toBitVec i (by omega)
    simp [List.getD_eq_getElem?_getD, h, hhigh]

theorem toBitVec_crcByte (c : UInt32) (x : UInt8) :
    (crcByte c x).toBitVec = feed poly c.toBitVec ((List.range 8).map x.toNat.testBit) := by
  rw [crcByte, toBitVec_iterate, feed_eq _ _ (by simp), word_byte]
  rfl

theorem toBitVec_foldl (c : UInt32) (s : List UInt8) :
    (s.foldl crcByte c).toBitVec = feed poly c.toBitVec (bits s) := by
  induction s generalizing c with
  | nil => rfl
  | cons x s ih => rw [List.foldl_cons, ih, bits_cons, feed_append, toBitVec_crcByte]

end

theorem length_bits (s : List UInt8) : (bits s).length = 8 * s.length := by simp [bits]

theorem bits_injective (h : bits s = bits t) : s = t := by
  have hlen : s.length = t.length := by
    have := congrArg List.length h
    rw [length_bits, length_bits] at this
    omega
  induction s generalizing t with
  | nil => exact (List.length_eq_zero_iff.mp hlen.symm).symm
  | cons x s ih =>
    cases t with
    | nil => cases hlen
    | cons y t =>
      rw [bits_cons, bits_cons] at h
      obtain ⟨hbyte, hrest⟩ := List.append_inj h (by simp)
      have hword : x.toUInt32.toBitVec = y.toUInt32.toBitVec := by
        rw [← word_byte, ← word_byte, hbyte]
      have hxy : x = y := by
        have := congrArg BitVec.toNat hword
        exact UInt8.toNat_inj.mp (by simpa using this)
      rw [hxy, ih hrest (Nat.succ.inj hlen)]

theorem bits_split (hlen : s.length = t.length) (h : AgreeOutside s t k 32) :
    ∃ before x y after, bits s = before ++ x ++ after ∧ bits t = before ++ y ++ after ∧
      x.length = y.length ∧ x.length ≤ 32 := by
  have hsame : ∀ i, i < k ∨ k + 32 ≤ i → (bits s)[i]? = (bits t)[i]? := by
    intro i hi
    simp only [bits, List.getElem?_map, hlen]
    by_cases hlt : i < 8 * t.length
    · rw [List.getElem?_range hlt, Option.map_some, Option.map_some, h i hi]
    · rw [List.getElem?_eq_none (by simpa using hlt)]
      rfl
  have hbefore : (bits s).take k = (bits t).take k := by
    refine List.ext_getElem? fun i => ?_
    rw [List.getElem?_take, List.getElem?_take]
    split
    · next hi => exact hsame i (.inl hi)
    · rfl
  have hafter : (bits s).drop (k + 32) = (bits t).drop (k + 32) := by
    refine List.ext_getElem? fun i => ?_
    rw [List.getElem?_drop, List.getElem?_drop]
    exact hsame _ (.inr (Nat.le_add_right _ _))
  have hsplit : ∀ l : List Bool, l = l.take k ++ (l.drop k).take 32 ++ l.drop (k + 32) := by
    intro l
    rw [List.append_assoc, ← List.drop_drop, List.take_append_drop, List.take_append_drop]
  refine ⟨(bits s).take k, ((bits s).drop k).take 32, ((bits t).drop k).take 32,
    (bits s).drop (k + 32), hsplit _, ?_, ?_, List.length_take_le _ _⟩
  · rw [hbefore, hafter]
    exact hsplit _
  · simp [length_bits, hlen]

theorem foldl_burst (c : UInt32) (hlen : s.length = t.length) (hne : s ≠ t)
    (h : AgreeOutside s t k 32) : s.foldl crcByte c ≠ t.foldl crcByte c := by
  intro heq
  obtain ⟨before, x, y, after, hs, ht, hxy, hle⟩ := bits_split hlen h
  have hbits : x ≠ y := by
    rintro rfl
    exact hne (bits_injective (hs.trans ht.symm))
  have hregister := congrArg UInt32.toBitVec heq
  rw [toBitVec_foldl, toBitVec_foldl, hs, ht] at hregister
  exact feed_burst (by decide) before after hxy hle hbits hregister

theorem crc32_flatten (parts : List (List UInt8)) : crc32 parts = crc32 [parts.flatten] := by
  simp only [crc32, List.foldl_cons, List.foldl_nil, List.foldl_flatten]

theorem crc32_burst (hlen : s.length = t.length) (hne : s ≠ t) (h : AgreeOutside s t k 32) :
    crc32 [s] ≠ crc32 [t] := by
  intro heq
  have hregister : s.foldl crcByte 0xFFFFFFFF = t.foldl crcByte 0xFFFFFFFF := by
    have := congrArg (fun x : UInt32 => ~~~ x) heq
    simpa only [crc32, UInt32.not_not, List.foldl_cons, List.foldl_nil] using this
  exact foldl_burst _ hlen hne h hregister

/-! ### What an accepted package was built from -/

section
variable {raw : List UInt8} {pkg : Package} {b : Bytes} {o : ℕ}

/-- What the parser has checked, field by field. -/
structure Accepted (raw : List UInt8) (pkg : Package) : Prop where
  header : headerLen ≤ raw.length
  magic : raw.take 4 = magic
  version : u16At (ofList raw) 4 = formatVersion
  kind : pkg.kind = u16At (ofList raw) 6
  known : pkg.kind = kindDezhIr ∨ pkg.kind = kindElfRiscv64
  length : raw.length = headerLen + u32At (ofList raw) 8 + u32At (ofList raw) 12
  manifest : pkg.manifest = (raw.drop headerLen).take (u32At (ofList raw) 8)
  payload : pkg.payload = raw.drop (headerLen + u32At (ofList raw) 8)
  crc : u32At (ofList raw) 16 = (crc32 [pkg.manifest, pkg.payload]).toNat
  utf8 : isUtf8 pkg.manifest = true

theorem accepted_of_parse (h : parse raw = .ok pkg) : Accepted raw pkg := by
  simp only [parse] at h
  split_ifs at h with hshort hmagic hversion hkind hlength hcrc hutf8
  obtain rfl := Except.ok.inj h
  refine ⟨Nat.le_of_not_lt hshort, not_not.mp hmagic, not_not.mp hversion, rfl, ?_,
    not_not.mp hlength, rfl, rfl, not_not.mp hcrc, hutf8⟩
  by_contra hunknown
  exact hkind (not_or.mp hunknown)

theorem Accepted.body (h : Accepted raw pkg) :
    pkg.manifest ++ pkg.payload = raw.drop headerLen := by
  rw [h.manifest, h.payload, ← List.drop_drop, List.take_append_drop]

theorem Accepted.lengths (h : Accepted raw pkg) : pkg.manifest.length = u32At (ofList raw) 8 ∧
    pkg.payload.length = u32At (ofList raw) 12 := by
  have hlen := h.length
  rw [h.manifest, h.payload, List.length_take, List.length_drop, List.length_drop]
  omega

theorem leBytes_u16At : leBytes 2 (u16At b o) = toList b o 2 := by
  have h0 := (b o).toNat_lt
  have h1 := (b (o + 1)).toNat_lt
  simp only [leBytes, toList, u16At, List.range_succ, List.range_zero, List.map_cons,
    List.map_nil, List.nil_append, List.cons_append, Nat.add_zero,
    Nat.shiftRight_eq_div_pow, List.cons.injEq, ← UInt8.toNat_inj, UInt8.toNat_ofNat', and_true]
  omega

theorem leBytes_u32At : leBytes 4 (u32At b o) = toList b o 4 := by
  have h0 := (b o).toNat_lt
  have h1 := (b (o + 1)).toNat_lt
  have h2 := (b (o + 2)).toNat_lt
  have h3 := (b (o + 3)).toNat_lt
  simp only [leBytes, toList, u32At, List.range_succ, List.range_zero, List.map_cons,
    List.map_nil, List.nil_append, List.cons_append, Nat.add_zero,
    Nat.shiftRight_eq_div_pow, List.cons.injEq, ← UInt8.toNat_inj, UInt8.toNat_ofNat', and_true]
  omega

theorem toList_append (b : Bytes) (o m n : ℕ) :
    toList b o m ++ toList b (o + m) n = toList b o (m + n) := by
  simp only [toList, List.range_add, List.map_append, List.map_map, Function.comp_def,
    Nat.add_assoc]

theorem toList_ofList_take {n : ℕ} (h : n ≤ raw.length) : toList (ofList raw) 0 n = raw.take n := by
  refine List.ext_getElem (by simp [h]) fun i h1 h2 => ?_
  have hi : i < raw.length := by
    rw [length_toList] at h1
    omega
  simp [toList, ofList, hi]

theorem Accepted.header_eq (h : Accepted raw pkg) :
    PackageFormat.header pkg.kind pkg.manifest pkg.payload = raw.take headerLen := by
  have hmagic : PackageFormat.magic = toList (ofList raw) 0 4 := by
    rw [toList_ofList_take (le_trans (by decide) h.header), h.magic]
  rw [PackageFormat.header, h.lengths.1, h.lengths.2, ← h.crc, h.kind, ← h.version, leBytes_u16At,
    leBytes_u16At, leBytes_u32At, leBytes_u32At, leBytes_u32At, hmagic, toList_append _ 0 4 2,
    toList_append _ 0 6 2, toList_append _ 0 8 4, toList_append _ 0 12 4, toList_append _ 0 16 4]
  exact toList_ofList_take h.header

theorem pack_of_parse (h : parse raw = .ok pkg) : pack pkg.kind pkg.manifest pkg.payload = raw := by
  have ha := accepted_of_parse h
  rw [pack, List.append_assoc, ha.header_eq, ha.body, List.take_append_drop]

end

/-- Parsing undoes building, and building undoes parsing: for every known kind, text
and payload of encodable lengths, and for every accepted byte string. -/
theorem package_bijection :
    (∀ (kind : ℕ) (manifest : Text) (payload : List UInt8),
      kind = kindDezhIr ∨ kind = kindElfRiscv64 → isUtf8 manifest = true →
      manifest.length < 2 ^ 32 → payload.length < 2 ^ 32 →
      parse (pack kind manifest payload) = .ok ⟨kind, manifest, payload⟩) ∧
    ∀ raw pkg, parse raw = .ok pkg → raw = pack pkg.kind pkg.manifest pkg.payload :=
  ⟨fun _ _ _ hk hm hml hpl => parse_pack hk hm hml hpl, fun _ _ h => (pack_of_parse h).symm⟩

theorem package_bijection_named :
    parse (pack kindDezhIr (ascii "name = \"demo\"") [0x00]) =
      .ok ⟨kindDezhIr, ascii "name = \"demo\"", [0x00]⟩ :=
  package_bijection.1 kindDezhIr (ascii "name = \"demo\"") [0x00] (.inl rfl) (by decide) (by decide)
    (by decide)

/-! ### Damaged packages -/

section
variable {n : ℕ}

theorem AgreeOutside.getD_eq (h : AgreeOutside s t k n) {j : ℕ}
    (hj : 8 * j + 8 ≤ k ∨ k + n ≤ 8 * j) : s.getD j 0 = t.getD j 0 := by
  refine UInt8.toNat_inj.mp (Nat.eq_of_testBit_eq fun i => ?_)
  by_cases hi : i < 8
  · have hbit := h (8 * j + i) (by omega)
    rwa [bitAt, bitAt, show (8 * j + i) / 8 = j by omega,
      show (8 * j + i) % 8 = i by omega] at hbit
  · have hhigh : ∀ x : UInt8, x.toNat.testBit i = false := fun x =>
      BitVec.getLsbD_of_ge x.toBitVec i (by omega)
    rw [hhigh, hhigh]

theorem bitAt_drop (s : List UInt8) (m i : ℕ) : bitAt (s.drop m) i = bitAt s (8 * m + i) := by
  rw [bitAt, bitAt, List.getD_eq_getElem?_getD, List.getD_eq_getElem?_getD, List.getElem?_drop,
    show (8 * m + i) / 8 = m + i / 8 by omega, show (8 * m + i) % 8 = i % 8 by omega]

theorem AgreeOutside.drop (h : AgreeOutside s t k n) {m : ℕ} (hm : 8 * m ≤ k) :
    AgreeOutside (s.drop m) (t.drop m) (k - 8 * m) n := by
  intro i hi
  rw [bitAt_drop, bitAt_drop]
  exact h _ (by omega)

theorem AgreeOutside.take_eq (h : AgreeOutside s t k n) (hlen : s.length = t.length) {m : ℕ}
    (hm : 8 * m ≤ k) : s.take m = t.take m := by
  refine List.ext_getElem (by simp [hlen]) fun i hs ht => ?_
  have hi := List.length_take_le m s
  have hbyte := h.getD_eq (j := i) (.inl (by omega))
  rw [List.length_take] at hs ht
  simpa [show i < s.length by omega, show i < t.length by omega] using hbyte

theorem agreeOutside_set (s : List UInt8) (x : UInt8) {j : ℕ} (hk : k ≤ 8 * j)
    (hn : 8 * j + 8 ≤ k + n) : AgreeOutside (s.set j x) s k n := by
  intro i hi
  have hne : j ≠ i / 8 := by omega
  rw [bitAt, bitAt, List.getD_eq_getElem?_getD, List.getD_eq_getElem?_getD,
    List.getElem?_set_ne hne]

end

/-- Whoever splits the input, the checksum is the same; it tells apart any two byte
strings of one length that differ only within 32 consecutive bits; and a package that
was damaged only within 32 consecutive bits behind its header is rejected. -/
theorem bursts_detected :
    (∀ parts parts' : List (List UInt8), parts.flatten = parts'.flatten →
      crc32 parts = crc32 parts') ∧
    (∀ (s t : List UInt8) (k : ℕ), s.length = t.length → s ≠ t → AgreeOutside s t k 32 →
      crc32 [s] ≠ crc32 [t]) ∧
    ∀ (kind : ℕ) (manifest : Text) (payload raw : List UInt8) (k : ℕ),
      raw.length = (pack kind manifest payload).length → raw ≠ pack kind manifest payload →
      8 * headerLen ≤ k → AgreeOutside raw (pack kind manifest payload) k 32 →
      ∃ e, parse raw = .error e := by
  refine ⟨fun parts parts' h => ?_, fun s t k => crc32_burst, ?_⟩
  · rw [crc32_flatten, h, ← crc32_flatten]
  · intro kind manifest payload raw k hlen hne hk h
    cases hparse : parse raw with
    | error e => exact ⟨e, rfl⟩
    | ok pkg =>
      have ha := accepted_of_parse hparse
      have hstored : u32At (ofList raw) 16 = u32At (ofList (pack kind manifest payload)) 16 :=
        u32At_congr fun i _ hi => h.getD_eq (.inl (by simp only [headerLen] at hk; omega))
      have hbody : raw.drop headerLen ≠ (pack kind manifest payload).drop headerLen := by
        intro hsame
        refine hne ?_
        rw [← List.take_append_drop headerLen raw, h.take_eq hlen hk, hsame,
          List.take_append_drop]
      -- the checksum in the header is that of the undamaged rest
      have hcrc : crc32 [raw.drop headerLen] =
          crc32 [(pack kind manifest payload).drop headerLen] := by
        rw [ha.crc, u32At_pack_crc] at hstored
        have hsame := UInt32.toNat_inj.mp hstored
        rw [crc32_flatten [pkg.manifest, _], crc32_flatten [manifest, _]] at hsame
        simpa [← ha.body, drop_pack] using hsame
      exact absurd hcrc (crc32_burst (by simp [hlen]) hbody (h.drop hk))

/-- The last byte of a package is overwritten. -/
theorem bursts_detected_overwritten :
    ∃ e, parse ((pack kindDezhIr (ascii "name = \"demo\"") [0x00]).set 33 0xFF) = .error e :=
  bursts_detected.2.2 kindDezhIr (ascii "name = \"demo\"") [0x00] _ 264 (by simp)
    (by decide +kernel) (by decide) (agreeOutside_set _ _ (by omega) (by omega))

end Dezh.PackageChecksum

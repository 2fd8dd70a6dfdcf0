import Mathlib.Data.List.TakeDrop
import Mathlib.Data.List.TakeWhile
import Dezh.PackageFormat

/-!
# What an accepted package contains

Valid UTF-8 can be cut in front of every byte that is not a continuation byte, and
both parts are valid again. All separators of the manifest and all encodings of
white space start with such a byte, so the values read out of the manifest of an
accepted package are text. The requested capabilities fit their field, and what is
packed is parsed back.
-/
namespace Dezh.PackageText
open ByteLayout PackageFormat

variable {s t manifest : Text} {c : UInt8} {n : ℕ}

section
variable {a b : Text} {x : UInt8}

/-- No character reaches over the start of `s`. -/
def Boundary (s : Text) : Prop := ∀ x ∈ s.head?, continuation x = false

theorem utf8From_append (hb : Boundary b) (h : utf8From n (a ++ b) = true) :
    utf8From n a = true ∧ utf8From 0 b = true := by
  induction a generalizing n with
  | nil =>
    cases n with
    | zero => exact ⟨rfl, h⟩
    | succ n =>
      cases b with
      | nil => exact nomatch h
      | cons x b =>
        simp [utf8From, hb x rfl] at h
  | cons x a ih =>
    cases n with
    | zero =>
      simp only [List.cons_append, utf8From] at h ⊢
      split at h
      · exact nomatch h
      · exact ih h
      · simp only [Bool.and_eq_true] at h ⊢
        obtain ⟨hs, hr⟩ := h
        obtain ⟨ha, hb'⟩ := ih hr
        cases a with
        | nil => exact nomatch ha
        | cons y a => exact ⟨⟨hs, ha⟩, hb'⟩
    | succ n =>
      simp only [List.cons_append, utf8From, Bool.and_eq_true] at h ⊢
      exact ⟨⟨h.1, (ih h.2).1⟩, (ih h.2).2⟩

theorem utf8From_complete (h : utf8From n a = true) : utf8From n (a ++ b) = utf8From 0 b := by
  induction a generalizing n with
  | nil =>
    obtain rfl : n = 0 := by simpa [utf8From] using h
    rfl
  | cons x a ih =>
    cases n with
    | zero =>
      simp only [List.cons_append, utf8From] at h ⊢
      split at h
      · exact nomatch h
      · exact ih h
      · simp only [Bool.and_eq_true] at h
        cases a with
        | nil => exact nomatch h.2
        | cons y a =>
          have hs : ((y :: a) ++ b).head? = (y :: a).head? := rfl
          rw [hs, h.1, ih h.2, Bool.true_and]
    | succ n =>
      simp only [List.cons_append, utf8From, Bool.and_eq_true] at h ⊢
      rw [h.1, ih h.2, Bool.true_and]

theorem isUtf8_append (hb : Boundary b) (h : isUtf8 (a ++ b) = true) :
    isUtf8 a = true ∧ isUtf8 b = true := utf8From_append hb h

theorem boundary_of_le (hc : c ≤ 0x7F) : Boundary (c :: s) := by
  intro x hx
  obtain rfl : c = x := by simpa using hx
  have hlow : ¬ (0x80 : UInt8) ≤ c := by
    rw [UInt8.le_iff_toNat_le] at hc ⊢
    simp at hc ⊢
    omega
  simp [continuation, hlow]

theorem isUtf8_of_cons (hc : c ≤ 0x7F) (h : isUtf8 (c :: s) = true) : isUtf8 s = true := by
  simpa only [isUtf8, utf8From, tailLength, if_pos hc] using h

theorem isUtf8_separated (hc : c ≤ 0x7F) (h : isUtf8 (a ++ c :: b) = true) :
    isUtf8 a = true ∧ isUtf8 b = true := by
  obtain ⟨ha, hb⟩ := isUtf8_append (boundary_of_le hc) h
  exact ⟨ha, isUtf8_of_cons hc hb⟩

end

section
variable {a b key line value : Text}

theorem splitOnce_eq (h : splitOnce c s = some (a, b)) : s = a ++ c :: b := by
  unfold splitOnce at h
  have happ := List.span_eq_takeWhile_dropWhile (fun x => x != c) s
  rw [happ] at h
  cases hd : s.dropWhile (· != c) with
  | nil => simp [hd] at h
  | cons x rest =>
    simp only [hd, Option.some.injEq, Prod.mk.injEq] at h
    obtain ⟨rfl, rfl⟩ := h
    obtain rfl : x = c := by
      have := List.head_dropWhile_not (fun x => x != c) (l := s) (by simp [hd])
      simpa [hd] using this
    exact hd ▸ List.takeWhile_append_dropWhile.symm

theorem isUtf8_splitOnce (hc : c ≤ 0x7F) (hs : isUtf8 s = true)
    (h : splitOnce c s = some (a, b)) : isUtf8 a = true ∧ isUtf8 b = true := by
  rw [splitOnce_eq h] at hs
  exact isUtf8_separated hc hs

theorem isUtf8_of_intercalate (hc : c ≤ 0x7F) {l : List Text}
    (h : isUtf8 ([c].intercalate l) = true) : ∀ line ∈ l, isUtf8 line = true := by
  induction l with
  | nil => simp
  | cons x l ih =>
    cases l with
    | nil => simpa using h
    | cons y l =>
      have hsplit : [c].intercalate (x :: y :: l) = x ++ c :: [c].intercalate (y :: l) := by
        simp [List.intercalate]
      rw [hsplit] at h
      obtain ⟨hx, hrest⟩ := isUtf8_separated hc h
      intro line hl
      rcases List.mem_cons.mp hl with rfl | hl
      · exact hx
      · exact ih hrest line hl

theorem isUtf8_splitOn (hc : c ≤ 0x7F) (h : isUtf8 s = true) (hl : line ∈ s.splitOn c) :
    isUtf8 line = true := by
  refine isUtf8_of_intercalate hc ?_ line hl
  rwa [List.intercalate_splitOn]

theorem isUtf8_of_whitespace (ht : t ∈ whitespace) : isUtf8 t = true := by
  have hall : ∀ t ∈ whitespace, isUtf8 t = true := by decide
  exact hall t ht

theorem boundary_of_whitespace (ht : t ∈ whitespace) : Boundary t := by
  have hall : ∀ t ∈ whitespace, t.head?.any continuation = false := by decide
  intro x hx
  have hhead := hall t ht
  rwa [Option.mem_def.mp hx] at hhead

theorem isUtf8_trimStartFor (h : isUtf8 s = true) : isUtf8 (trimStartFor n s) = true := by
  induction n generalizing s with
  | zero => exact h
  | succ n ih =>
    unfold trimStartFor
    split
    · rename_i c hfind
      obtain ⟨r, rfl⟩ := List.isPrefixOf_iff_prefix.mp
        (List.find?_some (p := fun c => List.isPrefixOf c s) hfind)
      apply ih
      rw [List.drop_left]
      exact (utf8From_complete (isUtf8_of_whitespace (List.mem_of_find?_eq_some hfind))).symm.trans h
    · exact h

theorem isUtf8_trimEndFor (h : isUtf8 s = true) : isUtf8 (trimEndFor n s) = true := by
  induction n generalizing s with
  | zero => exact h
  | succ n ih =>
    unfold trimEndFor
    split
    · rename_i c hfind
      obtain ⟨r, rfl⟩ := List.isSuffixOf_iff_suffix.mp
        (List.find?_some (p := fun c => List.isSuffixOf c s) hfind)
      apply ih
      rw [List.length_append, Nat.add_sub_cancel, List.take_left]
      exact (isUtf8_append (boundary_of_whitespace (List.mem_of_find?_eq_some hfind)) h).1
    · exact h

theorem isUtf8_trim (h : isUtf8 s = true) : isUtf8 (trim s) = true :=
  isUtf8_trimEndFor (isUtf8_trimStartFor h)

theorem isUtf8_setting (hl : isUtf8 line = true) (h : setting key line = some value) :
    isUtf8 value = true := by
  unfold setting at h
  simp only at h
  split at h
  · exact nomatch h
  · split at h
    · rename_i k v hsplit
      split at h
      · obtain rfl : trim v = value := by simpa using h
        exact isUtf8_trim (isUtf8_splitOnce (by decide) (isUtf8_trim hl) hsplit).2
      · exact nomatch h
    · exact nomatch h

theorem isUtf8_manifestStr (hm : isUtf8 manifest = true)
    (h : manifestStr manifest key = some value) : isUtf8 value = true := by
  unfold manifestStr at h
  split at h
  · rename_i inner rest hset
    obtain ⟨line, hline, hv⟩ : ∃ line ∈ manifest.splitOn 0x0A,
        setting key line = some (0x22 :: inner) := by
      apply List.mem_filterMap.mp
      unfold settings at hset
      rw [hset]
      exact List.mem_cons_self
    have hquoted : isUtf8 (0x22 :: inner) = true :=
      isUtf8_setting (isUtf8_splitOn (by decide) hm hline) hv
    obtain ⟨⟨v, after⟩, hsplit, rfl⟩ := Option.map_eq_some_iff.mp h
    exact (isUtf8_splitOnce (by decide) (isUtf8_of_cons (by decide) hquoted) hsplit).1
  · exact nomatch h

end

section
variable {mcaps : ℕ} {raw : List UInt8} {pkg : Package}

theorem addMcap_lt {set set' : ℕ} {cap : Text} (hs : set < 2 ^ 5)
    (h : addMcap set cap = .ok set') : set' < 2 ^ 5 := by
  have htable : ∀ e ∈ mcapTable, e.2 < 2 ^ 5 := by decide
  unfold addMcap at h
  split at h
  · rename_i bit hl
    obtain rfl := Except.ok.inj h
    obtain ⟨l1, l2, hsplit, -⟩ := List.lookup_eq_some_iff.mp hl
    refine Nat.or_lt_two_pow hs (htable (cap, bit) ?_)
    rw [hsplit]
    simp
  · exact nomatch h

theorem foldlM_addMcap_lt {l : List Text} {set : ℕ} (hs : set < 2 ^ 5)
    (h : l.foldlM addMcap set = .ok mcaps) : mcaps < 2 ^ 5 := by
  induction l generalizing set with
  | nil =>
    obtain rfl := Except.ok.inj h
    exact hs
  | cons cap l ih =>
    rw [List.foldlM_cons] at h
    cases hc : addMcap set cap with
    | error e => exact nomatch hc ▸ h
    | ok set' =>
      rw [hc] at h
      exact ih (addMcap_lt hs hc) h

theorem parseMcaps_lt (h : parseMcaps manifest = .ok mcaps) : mcaps < 2 ^ 5 :=
  foldlM_addMcap_lt (Nat.two_pow_pos 5) h

theorem parse_isUtf8 (h : parse raw = .ok pkg) : isUtf8 pkg.manifest = true := by
  simp only [parse] at h
  split_ifs at h
  obtain rfl := Except.ok.inj h
  assumption

theorem parse_length (h : parse raw = .ok pkg) : headerLen ≤ raw.length ∧
    raw.length = headerLen + u32At (ofList raw) 8 + u32At (ofList raw) 12 := by
  simp only [parse] at h
  split_ifs at h with hshort hmagic hversion hkind hlength
  exact ⟨Nat.le_of_not_lt hshort, not_not.mp hlength⟩

end

section
variable {a b : List UInt8} {v i : ℕ}

theorem ofList_append_length : ofList (a ++ b) (a.length + i) = ofList b i := by
  simp only [ofList, List.getD_eq_getElem?_getD, List.getElem?_append_right (Nat.le_add_right _ _),
    Nat.add_sub_cancel_left]

theorem ofList_leBytes {n : ℕ} (hi : i < n) :
    ofList (a ++ (leBytes n v ++ b)) (a.length + i) = UInt8.ofNat (v >>> (8 * i)) := by
  have hlen : i < (leBytes n v).length := by simpa [leBytes] using hi
  rw [ofList_append_length, ofList, List.getD_eq_getElem?_getD, List.getElem?_append_left hlen,
    List.getElem?_eq_getElem hlen]
  simp [leBytes]

theorem u16At_leBytes (hv : v < 2 ^ 16) :
    u16At (ofList (a ++ (leBytes 2 v ++ b))) a.length = v := by
  have h0 := ofList_leBytes (a := a) (b := b) (v := v) (show 0 < 2 by omega)
  rw [Nat.add_zero] at h0
  simp only [u16At, h0, ofList_leBytes (show 1 < 2 by omega), UInt8.toNat_ofNat',
    Nat.shiftRight_eq_div_pow]
  omega

theorem u32At_leBytes (hv : v < 2 ^ 32) :
    u32At (ofList (a ++ (leBytes 4 v ++ b))) a.length = v := by
  have h0 := ofList_leBytes (a := a) (b := b) (v := v) (show 0 < 4 by omega)
  rw [Nat.add_zero] at h0
  simp only [u32At, h0, ofList_leBytes (show 1 < 4 by omega), ofList_leBytes (show 2 < 4 by omega),
    ofList_leBytes (show 3 < 4 by omega), UInt8.toNat_ofNat', Nat.shiftRight_eq_div_pow]
  omega

section
variable (kind : ℕ) (manifest : Text) (payload : List UInt8)

theorem length_header : (header kind manifest payload).length = headerLen := by
  have hmagic : magic.length = 4 := by decide
  simp [header, leBytes, hmagic, headerLen]

theorem drop_pack : (pack kind manifest payload).drop headerLen = manifest ++ payload := by
  rw [pack, List.append_assoc, ← length_header kind manifest payload, List.drop_left]

theorem u32At_pack_crc : u32At (ofList (pack kind manifest payload)) 16 =
    (crc32 [manifest, payload]).toNat := by
  have hmagic : magic.length = 4 := by decide
  have hlen (n v : ℕ) : (leBytes n v).length = n := by simp [leBytes]
  simpa [pack, header, hmagic, hlen] using u32At_leBytes
    (a := magic ++ leBytes 2 formatVersion ++ leBytes 2 kind ++ leBytes 4 manifest.length ++
      leBytes 4 payload.length) (UInt32.toNat_lt (crc32 [manifest, payload]))

end

theorem parse_pack {kind : ℕ} {manifest : Text} {payload : List UInt8}
    (hk : kind = kindDezhIr ∨ kind = kindElfRiscv64) (hm : isUtf8 manifest = true)
    (hml : manifest.length < 2 ^ 32) (hpl : payload.length < 2 ^ 32) :
    parse (pack kind manifest payload) = .ok ⟨kind, manifest, payload⟩ := by
  have hmagic : magic.length = 4 := by decide
  have hlen (n v : ℕ) : (leBytes n v).length = n := by simp [leBytes]
  have hk16 : kind < 2 ^ 16 := by rcases hk with rfl | rfl <;> decide
  have htake : (pack kind manifest payload).take 4 = magic := by
    simp [pack, header, hmagic]
  have hversion : u16At (ofList (pack kind manifest payload)) 4 = formatVersion := by
    simpa [pack, header, hmagic] using u16At_leBytes (a := magic)
      (show formatVersion < 2 ^ 16 by decide)
  have hkind : u16At (ofList (pack kind manifest payload)) 6 = kind := by
    simpa [pack, header, hmagic, hlen] using u16At_leBytes (a := magic ++ leBytes 2 formatVersion)
      hk16
  have hmlen : u32At (ofList (pack kind manifest payload)) 8 = manifest.length := by
    simpa [pack, header, hmagic, hlen] using u32At_leBytes
      (a := magic ++ leBytes 2 formatVersion ++ leBytes 2 kind) hml
  have hplen : u32At (ofList (pack kind manifest payload)) 12 = payload.length := by
    simpa [pack, header, hmagic, hlen] using u32At_leBytes
      (a := magic ++ leBytes 2 formatVersion ++ leBytes 2 kind ++ leBytes 4 manifest.length) hpl
  have hdrop := drop_pack kind manifest payload
  have hpayload : (pack kind manifest payload).drop (headerLen + manifest.length) = payload := by
    rw [← List.drop_drop, hdrop, List.drop_left]
  have hlength : (pack kind manifest payload).length =
      headerLen + manifest.length + payload.length := by
    rw [pack, List.length_append, List.length_append, length_header]
  simp only [parse, htake, hversion, hkind, hmlen, hplen, u32At_pack_crc, hdrop, hpayload, hlength, hm,
    List.take_left, ne_eq, not_true_eq_false, if_true, if_false]
  rw [if_neg (by omega), if_neg fun h => hk.elim h.1 h.2]

end

end Dezh.PackageText

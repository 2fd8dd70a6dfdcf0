import Dezh.PackageText

/-!
# The capability list of a manifest

The value of `caps` is meant to be an array of quoted names on one line. The parser of
the kernel only looks for brackets at both ends of the value and for pairs of quotes
between them. An array that ends with its bracket is read as it is meant, and a name
that is not in the table is an error. A value that does not look bracketed is passed
over, and then the names of a later line are requested, or none. So a request is the one
that is written exactly if one of the names found is unknown, or the names found have the
capabilities of the names written.
-/
namespace Dezh.CapabilityLists
open ByteLayout PackageFormat PackageText

variable {names : List Text}

/-- Spaces and tabs. -/
def Blank (s : Text) : Prop := ∀ b ∈ s, b = 0x20 ∨ b = 0x09

/-- The inside of an array: quoted names with commas between them, and maybe a last
comma. -/
inductive Body : Text → List Text → Prop
  | none {w : Text} (hw : Blank w) : Body w []
  | last {w₁ w₂ name : Text} (hw₁ : Blank w₁) (hw₂ : Blank w₂) (hname : 0x22 ∉ name) :
      Body (w₁ ++ 0x22 :: (name ++ 0x22 :: w₂)) [name]
  | more {w₁ w₂ name rest : Text} {names : List Text} (hw₁ : Blank w₁) (hw₂ : Blank w₂)
      (hname : 0x22 ∉ name) (hrest : Body rest names) :
      Body (w₁ ++ 0x22 :: (name ++ 0x22 :: (w₂ ++ 0x2C :: rest))) (name :: names)

/-- A value that is an array of names, with a comment behind it or nothing. -/
def ArrayValue (v : Text) (names : List Text) : Prop :=
  ∃ body tail, v = 0x5B :: (body ++ 0x5D :: tail) ∧ Body body names ∧
    (tail = [] ∨ ∃ w comment, tail = w ++ 0x23 :: comment ∧ Blank w)

/-- A value that is an array of names, with nothing behind it. -/
def BareArray (v : Text) (names : List Text) : Prop :=
  ∃ body, v = 0x5B :: (body ++ [0x5D]) ∧ Body body names

section
variable {s t name : Text} {n : ℕ} {c : UInt8}

theorem splitOnce_none (h : c ∉ s) : splitOnce c s = none := by
  cases hsplit : splitOnce c s with
  | none => rfl
  | some p =>
    refine absurd ?_ h
    rw [splitOnce_eq hsplit]
    exact List.mem_append_right _ List.mem_cons_self

theorem splitOnce_of_notMem (h : c ∉ s) : splitOnce c (s ++ c :: t) = some (s, t) := by
  have hs : ∀ x ∈ s, (x != c) = true := by
    intro x hx
    rw [bne_iff_ne]
    rintro rfl
    exact h hx
  unfold splitOnce
  rw [List.span_eq_takeWhile_dropWhile, List.takeWhile_append_of_pos hs,
    List.dropWhile_append_of_pos hs, List.takeWhile_cons_of_neg (by simp),
    List.dropWhile_cons_of_neg (by simp), List.append_nil]

theorem itemsFor_skip (h : 0x22 ∉ s) : itemsFor n (s ++ t) = itemsFor n t := by
  cases n with
  | zero => rfl
  | succ n =>
    by_cases ht : 0x22 ∈ t
    · obtain ⟨a, b, rfl, ha⟩ := List.eq_append_cons_of_mem ht
      rw [itemsFor, itemsFor, ← List.append_assoc, splitOnce_of_notMem (by simp [h, ha]),
        splitOnce_of_notMem ha]
    · rw [itemsFor, itemsFor, splitOnce_none (by simp [h, ht]), splitOnce_none ht]

theorem itemsFor_quoted (hs : 0x22 ∉ s) (hname : 0x22 ∉ name) :
    itemsFor (n + 1) (s ++ 0x22 :: (name ++ 0x22 :: t)) = name :: itemsFor n t := by
  rw [itemsFor, splitOnce_of_notMem hs]
  dsimp only
  rw [splitOnce_of_notMem hname]

theorem Blank.notMem {w : Text} (h : Blank w) : 0x22 ∉ w := by
  intro hmem
  rcases h _ hmem with heq | heq
  · exact absurd heq (by decide)
  · exact absurd heq (by decide)

theorem itemsFor_body (h : Body s names) (hn : names.length ≤ n) : itemsFor n s = names := by
  induction h generalizing n with
  | none hw =>
    cases n with
    | zero => rfl
    | succ n => rw [itemsFor, splitOnce_none hw.notMem]
  | @last w₁ w₂ name hw₁ hw₂ hname =>
    obtain ⟨m, rfl⟩ : ∃ m, n = m + 1 := ⟨n - 1, by rw [List.length_singleton] at hn; omega⟩
    have hrest : itemsFor m w₂ = [] := by
      cases m with
      | zero => rfl
      | succ m => rw [itemsFor, splitOnce_none hw₂.notMem]
    rw [itemsFor_quoted hw₁.notMem hname, hrest]
  | @more w₁ w₂ name rest names hw₁ hw₂ hname _ ih =>
    rw [List.length_cons] at hn
    obtain ⟨m, rfl⟩ : ∃ m, n = m + 1 := ⟨n - 1, by omega⟩
    have hcomma : 0x22 ∉ w₂ ++ [0x2C] := by simp [hw₂.notMem]
    rw [itemsFor_quoted hw₁.notMem hname, show w₂ ++ 0x2C :: rest = (w₂ ++ [0x2C]) ++ rest by simp,
      itemsFor_skip hcomma, ih (by omega)]

theorem length_le_of_body (h : Body s names) : names.length ≤ s.length := by
  induction h with
  | none => exact Nat.zero_le _
  | last => simp only [List.length_append, List.length_cons, List.length_nil]; omega
  | more _ _ _ _ ih => simp only [List.length_append, List.length_cons]; omega

end

section
variable {manifest : Text}

def mcapOf (name : Text) : Option ℕ := mcapTable.lookup name

def union (names : List Text) : ℕ := (names.filterMap mcapOf).foldl (· ||| ·) 0

/-- All names are in the table. -/
def Known (names : List Text) : Prop := ∀ name ∈ names, (mcapOf name).isSome

instance (names : List Text) : Decidable (Known names) :=
  inferInstanceAs (Decidable (∀ name ∈ names, _))

theorem foldlM_addMcap (start : ℕ) : names.foldlM addMcap start =
    if Known names then .ok ((names.filterMap mcapOf).foldl (· ||| ·) start)
    else .error "unknown capability in manifest" := by
  induction names generalizing start with
  | nil =>
    have hnil : Known [] := nofun
    rw [if_pos hnil]
    rfl
  | cons name names ih =>
    rw [List.foldlM_cons, addMcap, ← mcapOf]
    cases hname : mcapOf name with
    | none =>
      rw [if_neg fun h => by simpa [hname] using h name List.mem_cons_self]
      rfl
    | some bit =>
      rw [List.filterMap_cons_some hname, List.foldl_cons]
      simp only [Known, List.forall_mem_cons, hname, Option.isSome_some, true_and]
      exact ih (start ||| bit)

theorem parseMcaps_eq_ok {set : ℕ} : parseMcaps manifest = .ok set ↔
    Known (manifestList manifest (ascii "caps")) ∧
      set = union (manifestList manifest (ascii "caps")) := by
  rw [parseMcaps, foldlM_addMcap]
  split_ifs with hknown
  · rw [Except.ok.injEq]
    exact ⟨fun h => ⟨hknown, h.symm⟩, fun h => h.2.symm⟩
  · exact iff_of_false (fun h => by cases h) fun h => hknown h.1

theorem manifestList_of_bare {v : Text} {rest : List Text}
    (hv : settings manifest (ascii "caps") = v :: rest) (h : BareArray v names) :
    manifestList manifest (ascii "caps") = names := by
  obtain ⟨body, rfl, hbody⟩ := h
  have hbracketed : bracketed (0x5B :: (body ++ [0x5D])) = some body := by
    simp [bracketed]
  rw [manifestList, hv, List.findSome?_cons, hbracketed]
  exact itemsFor_body hbody (length_le_of_body hbody)

end

theorem blank_nil : Blank [] := fun _ h => absurd h List.not_mem_nil

theorem blank_space : Blank [0x20] := fun _ h => .inl (List.mem_singleton.mp h)

theorem body_print : Body ([] ++ 0x22 :: (ascii "print" ++ [0x22])) [ascii "print"] :=
  .last blank_nil blank_nil (by decide)

end Dezh.CapabilityLists

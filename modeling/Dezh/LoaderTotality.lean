import Dezh.LoaderIsolation

/-!
# Images that stop the kernel

The loader reads headers and segments where the image says they are, and an index outside
the image stops the kernel. `verify_payload` only asks for more than twenty bytes, so the
bounds are left to whoever made the image. A launch stops the kernel exactly if it gets a
frame for its root and then reads a header field outside the image, or maps the span and
then copies a byte from outside the image. Sums wrap at the end of the words.
-/
namespace Dezh.Loader
open ByteLayout PageTables PackageFormat

variable {m : Machine} {spec : ProcessSpec} {img : List UInt8} {st : Loading}

def phoff (img : List UInt8) : ℕ := u64At (ofList img) 32

def phentsize (img : List UInt8) : ℕ := u16At (ofList img) 54

def phnum (img : List UInt8) : ℕ := u16At (ofList img) 56

/-- The address of a program header, before it wraps. -/
def headerAt (img : List UInt8) (i : ℕ) : ℕ := phoff img + i * phentsize img

/-- All header fields that are read lie in the image: of a program header the type, and for a
loadable segment the other fields. -/
structure Readable (img : List UInt8) : Prop where
  header : 58 ≤ img.length
  entries : ∀ i < phnum img, headerAt img i % 2 ^ 64 + 4 ≤ img.length ∧
    (u32At (ofList img) (headerAt img i % 2 ^ 64) = 1 → headerAt img i % 2 ^ 64 + 48 ≤ img.length)

/-- All bytes that are copied lie in the image. -/
def InImage (m : Machine) (spec : ProcessSpec) (s₀ : Start m) : Prop :=
  ∀ root segs st, mappedSpan m spec ⟨s₀.mem, s₀.free, []⟩ = some (root, segs, st) →
    ∀ s ∈ segs, ∀ k < s.filesz, (s.offset + k) % 2 ^ 64 < spec.elf.length

theorem field_eq_some {width off x : ℕ} {read : Bytes → ℕ → ℕ} :
    field img width read off = some x ↔ off + width ≤ img.length ∧ read (ofList img) off = x := by
  unfold field
  split_ifs with h
  · rw [Option.some_inj]
    exact ⟨fun heq => ⟨h, heq⟩, fun heq => heq.2⟩
  · exact ⟨nofun, fun heq => absurd heq.1 h⟩

theorem field_eq {width off : ℕ} {read : Bytes → ℕ → ℕ} (h : off + width ≤ img.length) :
    field img width read off = some (read (ofList img) off) := if_pos h

theorem segmentAt_ne_none {ph : ℕ} : segmentAt img ph ≠ none ↔
    ph + 4 ≤ img.length ∧ (u32At (ofList img) ph = 1 → ph + 48 ≤ img.length) := by
  unfold segmentAt
  by_cases htype : ph + 4 ≤ img.length
  · rw [field_eq htype]
    simp only [Option.bind_eq_bind, Option.bind_some]
    by_cases hload : u32At (ofList img) ph = 1
    · rw [if_neg (not_not.mpr hload)]
      by_cases hrest : ph + 48 ≤ img.length
      · rw [field_eq (by omega), field_eq (by omega), field_eq (by omega), field_eq (by omega),
          field_eq (by omega)]
        exact iff_of_true nofun ⟨htype, fun _ => hrest⟩
      · refine iff_of_false (fun hne => ?_) fun h => hrest (h.2 hload)
        have hsize : field img 8 u64At (ph + 40) = none := if_neg (by omega)
        rw [hsize] at hne
        apply hne
        rw [Option.bind_eq_none_iff]
        exact fun _ _ => rfl
    · rw [if_pos hload]
      exact iff_of_true nofun ⟨htype, fun h => absurd h hload⟩
  · have hnone : field img 4 u32At ph = none := if_neg htype
    rw [hnone]
    exact iff_of_false (fun hne => hne rfl) fun h => htype h.1

theorem mapM_ne_none {A B : Type} {f : A → Option B} {l : List A} :
    l.mapM f ≠ none ↔ ∀ a ∈ l, f a ≠ none := by
  induction l with
  | nil => exact iff_of_true nofun fun a ha => by cases ha
  | cons a l ih =>
    rw [List.mapM_cons, List.forall_mem_cons, ← ih]
    cases hfirst : f a with
    | none => exact iff_of_false (fun hne => hne rfl) fun h => h.1 rfl
    | some b =>
      cases hrest : l.mapM f with
      | none => exact iff_of_false (fun hne => hne rfl) fun h => h.2 rfl
      | some bs => exact iff_of_true nofun ⟨nofun, nofun⟩

theorem segments_ne_none : segments img ≠ none ↔ Readable img := by
  by_cases hlen : 58 ≤ img.length
  · have hsegs : segments img ≠ none ↔ ((List.range (phnum img)).mapM fun i =>
        segmentAt img (headerAt img i % 2 ^ 64)) ≠ none := by
      unfold segments
      rw [field_eq (by omega), field_eq (by omega), field_eq (by omega), field_eq (by omega)]
      simp only [Option.bind_eq_bind, Option.bind_some]
      rw [not_iff_not, Option.bind_eq_none_iff]
      constructor
      · intro h
        cases hread : (List.range (phnum img)).mapM fun i => segmentAt img (headerAt img i % 2 ^ 64) with
        | none => rfl
        | some segs => exact absurd (h segs hread) nofun
      · intro h segs hread
        have hread := h.symm.trans hread
        cases hread
    rw [hsegs, mapM_ne_none]
    constructor
    · exact fun h => ⟨hlen, fun i hi => segmentAt_ne_none.mp (h i (List.mem_range.mpr hi))⟩
    · exact fun h i hi => segmentAt_ne_none.mpr (h.entries i (List.mem_range.mp hi))
  · refine iff_of_false (fun hne => hne ?_) fun h => hlen h.header
    unfold segments
    simp only [Option.bind_eq_bind, Option.bind_eq_none_iff]
    intro start _ phoff _ size _ num hnum
    exact absurd (field_eq_some.mp hnum).1 (by omega)

theorem copyBytes_done {root n k : ℕ} {seg : Segment} :
    (st.copyBytes root img seg n k).1 = true ↔
      ∀ j, k ≤ j → j < k + n → (seg.offset + j) % 2 ^ 64 < img.length := by
  induction n generalizing k st with
  | zero => exact iff_of_true rfl fun j hj hj' => by omega
  | succ n ih =>
    unfold Loading.copyBytes
    by_cases hin : (seg.offset + k) % 2 ^ 64 < img.length
    · rw [List.getElem?_eq_getElem hin]
      dsimp only
      rw [ih]
      constructor
      · intro h j hj hj'
        rcases hj.eq_or_lt with rfl | hlt
        · exact hin
        · exact h j hlt (by omega)
      · exact fun h j hj hj' => h j (by omega) (by omega)
    · rw [List.getElem?_eq_none (not_lt.mp hin)]
      exact iff_of_false Bool.false_ne_true fun h => hin (h k le_rfl (by omega))

theorem copySegments_done {root : ℕ} {segs : List Segment} :
    (st.copySegments root img segs).1 = true ↔
      ∀ s ∈ segs, ∀ k < s.filesz, (s.offset + k) % 2 ^ 64 < img.length := by
  induction segs generalizing st with
  | nil => exact iff_of_true rfl fun s hs => by cases hs
  | cons s segs ih =>
    have hfirst : (st.copyBytes root img s s.filesz 0).1 = true ↔ _ := copyBytes_done
    simp only [Nat.zero_le, true_implies, Nat.zero_add] at hfirst
    unfold Loading.copySegments
    rw [List.forall_mem_cons]
    cases hcopy : st.copyBytes root img s s.filesz 0 with
    | mk done st' =>
      rw [hcopy] at hfirst
      cases done with
      | false => exact iff_of_false Bool.false_ne_true fun h => Bool.false_ne_true (hfirst.mpr h.1)
      | true => exact ih.trans (and_iff_right (hfirst.mp rfl)).symm

theorem allocFrame_isSome {mem : Memory} {free : List ℕ} :
    (∃ root st, Loading.allocFrame ⟨mem, free, []⟩ = (some root, st)) ↔ free ≠ [] := by
  cases free with
  | nil => exact iff_of_false (fun ⟨_, _, h⟩ => by cases h) fun h => h rfl
  | cons f free => exact iff_of_true ⟨f, _, rfl⟩ (List.cons_ne_nil _ _)

theorem not_panicked_iff {s₀ : Start m} :
    (buildAddressSpace m spec ⟨s₀.mem, s₀.free, []⟩).1 ≠ .panicked ↔
      (s₀.free ≠ [] → Readable spec.elf) ∧ InImage m spec s₀ := by
  unfold buildAddressSpace InImage mappedSpan
  rw [← segments_ne_none, ← allocFrame_isSome]
  cases ha : Loading.allocFrame ⟨s₀.mem, s₀.free, []⟩ with
  | mk got st =>
  dsimp only
  cases got with
  | none =>
    exact iff_of_true nofun ⟨fun ⟨_, _, h⟩ => (by cases h), fun _ _ _ h => by cases h⟩
  | some root =>
  cases hsegs : segments spec.elf with
  | none => exact iff_of_false (fun hne => hne rfl) fun h => h.1 ⟨root, st, rfl⟩ rfl
  | some parsed =>
  obtain ⟨start, segs⟩ := parsed
  dsimp only
  cases hmap : (st.kernelEntries m root).mapFresh root (pageFlags segs) (spanPages segs)
    (spanLo segs) with
  | mk mapped st =>
  cases mapped with
  | false => exact iff_of_true nofun ⟨fun _ => nofun, fun _ _ _ h => by cases h⟩
  | true =>
  have hdone : (st.copySegments root spec.elf segs).1 = true ↔ _ := copySegments_done
  dsimp only
  cases hcopy : st.copySegments root spec.elf segs with
  | mk done st' =>
  rw [hcopy] at hdone
  cases done with
  | false =>
    refine iff_of_false (fun hne => hne rfl) fun h => Bool.false_ne_true (hdone.mpr ?_)
    exact h.2 root segs st rfl
  | true =>
    refine iff_of_true ?_ ⟨fun _ => nofun, fun root' segs' st'' h => ?_⟩
    · dsimp only
      split
      · exact nofun
      · split
        · exact nofun
        · exact nofun
    · cases h
      exact hdone.mp rfl

/-- The copied bytes of a well-placed image go to frames of the process. -/
theorem copied_to_frames {s₀ : Start m} (hplaced : Placed m spec s₀) {root : ℕ}
    {segs : List Segment} (hspan : mappedSpan m spec ⟨s₀.mem, s₀.free, []⟩ = some (root, segs, st)) :
    ∀ s ∈ segs, ∀ k < s.filesz,
      st.translate root ((s.vaddr + k) % 2 ^ 64 / frameSize * frameSize) ∈ st.frames := by
  have hcovered := hplaced.covered root segs st hspan
  unfold mappedSpan at hspan
  dsimp only at hspan
  cases ha : Loading.allocFrame ⟨s₀.mem, s₀.free, []⟩ with
  | mk got st₁ =>
  rw [ha] at hspan
  cases got with
  | none => cases hspan
  | some root' =>
  dsimp only at hspan
  cases hsegs : segments spec.elf with
  | none =>
    rw [hsegs] at hspan
    cases hspan
  | some parsed =>
  obtain ⟨start, segs'⟩ := parsed
  have hclear := hplaced.clear (allocFrame_isSome.mp ⟨root', st₁, ha⟩) start segs' hsegs
  have hends := (start_shape ha).mapFresh (fun _ => False) (SpanMade segs') (pageFlags_lt segs')
    fun k hk => ⟨hclear k hk, k, hk, rfl, rfl⟩
  rw [hsegs] at hspan
  dsimp only at hspan
  generalize (st₁.kernelEntries m root').mapFresh root' (pageFlags segs') (spanPages segs')
    (spanLo segs') = r at hends hspan
  cases hends with
  | stopped _ => cases hspan
  | done kind hdone =>
  cases hspan
  obtain ⟨hshape, -, -, hmapped⟩ := hdone
  intro s hmem k hk
  obtain ⟨page, hpage, heq⟩ := hcovered s hmem k hk
  rw [heq]
  exact hshape.own _ _ (hshape.translate (fun _ => id) (hmapped page hpage))

end Dezh.Loader

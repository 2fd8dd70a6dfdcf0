import Dezh.LoaderFrames

/-!
# What the loader touches

`walk_alloc` follows every valid entry as if it pointed to a table. The gigapage of the
devices and the entries of the kernel's level-1 table are leaves. A segment at an address
behind one of them is mapped by a write into the memory that such a leaf maps: the kernel
itself. The addresses are taken from the image, and `verify_payload` looks at its first
twenty bytes only.
-/
namespace Dezh.Loader
open Function PageTables PackageFormat

variable {m : Machine} {spec : ProcessSpec} {st : Loading}

section
variable {segs : List Segment}

theorem pageFlags_induction (P : ℕ → Prop) (h : P (pteU ||| pteR))
    (hor : ∀ fl, P fl → ∀ bit ∈ [0, pteX, pteW], P (fl ||| bit)) (segs : List Segment) (va : ℕ) :
    P (pageFlags segs va) := by
  have hfold : ∀ (l : List Segment) (fl : ℕ), P fl → P (l.foldl (fun fl s =>
      if s.first ≤ va ∧ va < s.past then
        fl ||| (if s.flags &&& 1 ≠ 0 then pteX else 0) ||| (if s.flags &&& 2 ≠ 0 then pteW else 0)
      else fl) fl) := by
    intro l
    induction l with
    | nil => exact fun _ h => h
    | cons s l ih =>
      intro fl hfl
      refine ih _ ?_
      dsimp only
      split_ifs
      all_goals first
        | exact hfl
        | exact hor _ (hor _ hfl _ (by decide)) _ (by decide)
  exact hfold segs _ h

theorem pageFlags_lt (segs : List Segment) (va : ℕ) : pageFlags segs va < 2 ^ 10 := by
  refine pageFlags_induction (· < 2 ^ 10) (by decide) (fun fl hfl bit hbit => ?_) segs va
  have hbits : ∀ bit ∈ [0, pteX, pteW], bit < 2 ^ 10 := by decide
  exact Nat.or_lt_two_pow hfl (hbits bit hbit)

theorem pageFlags_user (segs : List Segment) (va : ℕ) :
    IsUser (pageFlags segs va) ∧ IsLeaf (pageFlags segs va) := by
  refine pageFlags_induction (fun fl => IsUser fl ∧ IsLeaf fl) (by decide) (fun fl hfl bit _ => ?_)
    segs va
  exact ⟨or_and_ne_zero hfl.1, or_and_ne_zero hfl.2⟩

/-- The address of a page of the span. -/
def spanPage (segs : List Segment) (k : ℕ) : ℕ := spanLo segs + k * frameSize

/-- A page of the span, with the flags that the segments give it. -/
def SpanMade (segs : List Segment) (va flags : ℕ) : Prop :=
  ∃ k < spanPages segs, va = spanPage segs k ∧ flags = pageFlags segs va

end

/-- The page table root, the segments and the state when the copying begins. -/
def mappedSpan (m : Machine) (spec : ProcessSpec) (st : Loading) :
    Option (ℕ × List Segment × Loading) :=
  match { st with frames := [] }.allocFrame with
  | (none, _) => none
  | (some root, st) =>
    match segments spec.elf with
    | none => none
    | some (_, segs) =>
      match (st.kernelEntries m root).mapFresh root (pageFlags segs) (spanPages segs)
        (spanLo segs) with
      | (false, _) => none
      | (true, st) => some (root, segs, st)

/-- If a frame is free, no page of the span is behind an entry of the kernel; and if the span
gets mapped, every byte of the image that is copied goes to a page of the span. -/
structure Placed (m : Machine) (spec : ProcessSpec) (s₀ : Start m) : Prop where
  clear : s₀.free ≠ [] → ∀ start segs, segments spec.elf = some (start, segs) →
    ∀ k < spanPages segs, Clear (spanPage segs k)
  covered : ∀ root segs st, mappedSpan m spec ⟨s₀.mem, s₀.free, []⟩ = some (root, segs, st) →
    ∀ s ∈ segs, ∀ j < s.filesz, ∃ k < spanPages segs,
      (s.vaddr + j) % 2 ^ 64 / frameSize * frameSize = spanPage segs k

instance (va : ℕ) : Decidable (Clear va) := inferInstanceAs (Decidable (_ ∧ _))

/-- A page that the launch maps for a device. -/
def Granted (m : Machine) (spec : ProcessSpec) (page : ℕ) : Prop :=
  ∃ va, some (va, page) ∈ grants m spec

section
variable {va page : ℕ}

theorem mem_window {base first : ℕ} (h : some (va, page) ∈ window base first) :
    ∃ i < 4, va = base + i * frameSize ∧ page = first + i := by
  obtain ⟨i, hi, heq⟩ := List.mem_map.mp h
  cases heq
  exact ⟨i, List.mem_range.mp hi, rfl, rfl⟩

theorem grants_spec (h : some (va, page) ∈ grants m spec) : Clear va ∧ page < 2 ^ 52 := by
  unfold grants at h
  have hmarz : ∀ i < 4, Clear (marzDmaVa + i * frameSize) := by decide
  have hdma : ∀ i < 4, Clear (virtioDmaVa + i * frameSize) := by decide
  rcases List.mem_append.mp h with h | h
  · rcases List.mem_append.mp h with h | h
    · rcases List.mem_append.mp h with h | h
      · split_ifs at h
        · rw [List.mem_singleton] at h
          cases h
          decide
        · cases h
      · split_ifs at h
        · rw [List.mem_singleton] at h
          obtain ⟨p, hp, heq⟩ := Option.map_eq_some_iff.mp h.symm
          cases heq
          exact ⟨by decide, m.blk_small page hp⟩
        · cases h
    · split_ifs at h
      · rcases List.mem_cons.mp h with h | h
        · obtain ⟨p, hp, heq⟩ := Option.map_eq_some_iff.mp h.symm
          cases heq
          exact ⟨by decide, m.nic_small page hp⟩
        · obtain ⟨i, hi, rfl, rfl⟩ := mem_window h
          have hsmall := m.marz_small
          exact ⟨hmarz i hi, by omega⟩
      · cases h
  · split_ifs at h
    · obtain ⟨i, hi, rfl, rfl⟩ := mem_window h
      have hsmall := m.virtio_small
      exact ⟨hdma i hi, by omega⟩
    · cases h

end

/-- An address that is mapped after the segments: of the stack, or for a device. -/
def Later (m : Machine) (spec : ProcessSpec) (va : ℕ) : Prop :=
  (∃ k < (userStackTop - userStackBottom) / frameSize, va = userStackBottom + k * frameSize) ∨
    ∃ page, some (va, page) ∈ grants m spec

def LaterMade (m : Machine) (spec : ProcessSpec) (va flags : ℕ) : Prop :=
  Later m spec va ∧ flags = pteU ||| pteR ||| pteW

section
variable {s₀ : Start m}

/-- The build modifies only frames that were free, a finished one only its own frames; and
every user leaf of the finished table maps one of them or a granted page. -/
def IsolatedResult (m : Machine) (spec : ProcessSpec) (s₀ : Start m) (r : Outcome × Loading) : Prop :=
  (∀ p, p ∉ s₀.free → r.2.mem p = s₀.mem p) ∧
    ∀ root start frames, r.1 = .built root start frames →
      (∀ p, p ∉ frames → r.2.mem p = s₀.mem p) ∧ (∀ f ∈ frames, f ∈ s₀.free) ∧
      ∀ e, Leaf r.2.mem root e → IsUser e → pageOf e ∈ frames ∨ Granted m spec (pageOf e)

def Isolated (m : Machine) (spec : ProcessSpec) (s₀ : Start m) : Prop :=
  IsolatedResult m spec s₀ (buildAddressSpace m spec ⟨s₀.mem, s₀.free, []⟩)

theorem start_shape {root : ℕ} (ha : Loading.allocFrame ⟨s₀.mem, s₀.free, []⟩ = (some root, st)) :
    Shape (update (fun _ => none) root (some .root)) s₀ root (st.kernelEntries m root) := by
  obtain ⟨free, hfree, rfl, -⟩ := allocFrame_some ha
  dsimp only at hfree
  have hcons := s₀.nodup
  rw [hfree] at hcons
  have hkind : ∀ {f κ}, update (fun _ => none) root (some Kind.root) f = some κ →
      f = root ∧ κ = .root := by
    intro f κ hf
    by_cases hroot : f = root
    · rw [hroot, update_self] at hf
      exact ⟨hroot, (Option.some.inj hf).symm⟩
    · rw [update_of_ne hroot] at hf
      cases hf
  have hword : ∀ i, (Loading.kernelEntries ⟨zeroPage s₀.mem root, free, [root]⟩ m root).mem root i =
      if i = 2 then entry m.l1 pteV
      else if i = 0 then pte 0 (pteR ||| pteW ||| pteX) else 0 := by
    intro i
    rw [Loading.kernelEntries, setWord_mem, setWord_mem]
    simp only [true_and, zeroPage_self]
  refine ⟨?_, (by decide : 1 ≤ maxTaskOwnedFrames), ?_, ?_, (List.nodup_cons.mp hcons).2, ?_,
    update_self .., ?_, ?_, ?_, ?_⟩
  · intro f κ hf
    rw [(hkind hf).1]
    exact List.mem_singleton_self root
  · rintro f (hf | hf)
    · rw [List.mem_singleton.mp hf, hfree]
      exact List.mem_cons_self
    · rw [hfree]
      exact List.mem_cons_of_mem _ hf
  · intro f hf hmem
    rw [List.mem_singleton.mp hmem] at hf
    exact (List.nodup_cons.mp hcons).1 hf
  · intro p hp
    have hne : p ≠ root := fun heq => hp (List.mem_singleton.mpr heq)
    exact (setWord_other hne).trans ((setWord_other hne).trans (zeroPage_other hne))
  · exact hword 0
  · exact hword 2
  · intro i hi0 hi2
    have hi := hword i
    rw [if_neg hi2, if_neg hi0] at hi
    exact .inl hi
  · intro t i ht
    cases (hkind ht).2

/-- The table of a finished build: a word in a lower table is empty, or was made for a page of
the span or later; every page of the span has a word, and every later page its own. -/
structure Laid (m : Machine) (spec : ProcessSpec) (segs : List Segment) (s₀ : Start m) (root : ℕ)
    (kind : Kinds) (st : Loading) : Prop where
  shape : Shape kind s₀ root st
  few : spanPages segs ≤ maxTaskOwnedFrames
  words : ∀ z i j, kind z = some (.lower i j) → ∀ l, st.mem z l = 0 ∨
    LeafWord (fun _ => False) (SpanMade segs) kind i j l (st.mem z l) ∨
    LeafWord (Granted m spec) (LaterMade m spec) kind i j l (st.mem z l)
  span : ∀ k < spanPages segs, ∃ z,
    Path kind root st (vpn2 (spanPage segs k)) (vpn1 (spanPage segs k)) z ∧
    st.mem z (vpn0 (spanPage segs k)) ≠ 0
  later : ∀ va, Later m spec va → Mapped (Granted m spec) (LaterMade m spec) kind root st va

/-- What every build leaves. -/
structure Sound (spec : ProcessSpec) (s₀ : Start m) (r : Outcome × Loading) : Prop where
  kept : OnlyFrames s₀ r.2
  laid : ∀ root start frames, r.1 = .built root start frames → frames = r.2.frames ∧
    ∃ segs kind, segments spec.elf = some (start, segs) ∧ Laid m spec segs s₀ root kind r.2

theorem sound_of_kept {st : Loading} (h : OnlyFrames s₀ st) :
    Sound spec s₀ (.failed, st) ∧ Sound spec s₀ (.panicked, st) :=
  ⟨⟨h, fun _ _ _ heq => by cases heq⟩, ⟨h, fun _ _ _ heq => by cases heq⟩⟩

theorem grant_small {p : ℕ} (h : Granted m spec p) : p < 2 ^ 52 := by
  obtain ⟨va, hmem⟩ := h
  exact (grants_spec hmem).2

theorem LeafWord.ne_zero {granted : ℕ → Prop} {made : ℕ → ℕ → Prop} {kind : Kinds} {i j l e : ℕ}
    (h : LeafWord granted made kind i j l e) : e ≠ 0 := by
  obtain ⟨va, page, flags, -, -, -, -, rfl⟩ := h
  intro hzero
  have hv : Valid (pte page flags) := valid_entry.mpr (or_and_ne_zero (by decide))
  rw [hzero] at hv
  exact not_valid_zero hv

/-- The two parts of a build: the span with the copied segments, then the stack and the
devices. -/
theorem laid_of_parts {segs : List Segment} {root : ℕ} {kind₁ kind₂ : Kinds} {st₀ st₁ st₂ : Loading}
    (hspan : Grows (fun _ => False) (SpanMade segs)
      (update (fun _ => none) root (some .root)) kind₁ root st₀ st₁)
    (hmapped : ∀ k < spanPages segs,
      Mapped (fun _ => False) (SpanMade segs) kind₁ root st₁ (spanPage segs k))
    (hrest : Grows (Granted m spec) (LaterMade m spec) kind₁ kind₂ root st₁ st₂)
    (hlater : ∀ va, Later m spec va → Mapped (Granted m spec) (LaterMade m spec) kind₂ root st₂ va)
    (hfew : spanPages segs ≤ maxTaskOwnedFrames) (hshape : Shape kind₂ s₀ root st₂) :
    Laid m spec segs s₀ root kind₂ st₂ := by
  refine ⟨hshape, hfew, fun z i j hz l => ?_, fun k hk => ?_, hlater⟩
  · cases hmid : kind₁ z with
    | none => exact (hrest.new z i j hmid hz l).imp_right .inr
    | some κ =>
      obtain rfl : κ = .lower i j := kind_unique (hrest.kinds z κ hmid) hz rfl
      -- the root is the only frame that has a kind before the span is mapped
      have hfirst : update (fun _ => none) root (some Kind.root) z = none := by
        cases hk : update (fun _ => none) root (some Kind.root) z with
        | none => rfl
        | some κ =>
          have hroot : z = root := by
            by_contra hne
            rw [update_of_ne hne] at hk
            cases hk
          have hsame := hspan.kinds root _ (update_self ..)
          rw [← hroot, hmid] at hsame
          cases hsame
      rcases hrest.old z i j hmid l with heq | hleaf
      · rw [heq]
        exact (hspan.new z i j hfirst hmid l).imp_right fun hleaf => .inl (hleaf.extend hrest.kinds)
      · exact .inr (.inr hleaf)
  · obtain ⟨z, hpath, hleaf⟩ := hmapped k hk
    refine ⟨z, hpath.grows hrest, ?_⟩
    obtain ⟨-, -, hz, -⟩ := hpath
    rcases hrest.old z _ _ hz (vpn0 (spanPage segs k)) with heq | hnew
    · rw [heq]
      exact hleaf.ne_zero
    · exact hnew.ne_zero

theorem build_sound (hplaced : Placed m spec s₀) :
    Sound spec s₀ (buildAddressSpace m spec ⟨s₀.mem, s₀.free, []⟩) := by
  unfold buildAddressSpace
  dsimp only
  have hgrants : ∀ va page, some (va, page) ∈ grants m spec →
      Clear va ∧ Granted m spec page ∧ LaterMade m spec va (pteU ||| pteR ||| pteW) :=
    fun va page hmem => ⟨(grants_spec hmem).1, ⟨va, hmem⟩, .inr ⟨page, hmem⟩, rfl⟩
  have hstart : OnlyFrames s₀ ⟨s₀.mem, s₀.free, []⟩ := ⟨fun _ _ => rfl, fun f hf => by cases hf⟩
  cases ha : Loading.allocFrame ⟨s₀.mem, s₀.free, []⟩ with
  | mk got st₁ =>
  cases got with
  | none => exact (sound_of_kept (hstart.alloc_none (fun _ hf => hf) ha)).1
  | some root =>
  have h₁ := start_shape ha
  have hfree : s₀.free ≠ [] := by
    obtain ⟨free, hfree, -⟩ := allocFrame_some ha
    dsimp only at hfree
    rw [hfree]
    exact List.cons_ne_nil _ _
  dsimp only
  cases hseg : segments spec.elf with
  | none => exact (sound_of_kept h₁.kept).2
  | some parsed =>
  obtain ⟨start, segs⟩ := parsed
  have hspan := h₁.mapFresh (fun _ => False) (SpanMade segs) (pageFlags_lt segs)
    fun k hk => ⟨hplaced.clear hfree start segs hseg k hk, k, hk, rfl, rfl⟩
  dsimp only
  cases hmap : (st₁.kernelEntries m root).mapFresh root (pageFlags segs) (spanPages segs)
    (spanLo segs) with
  | mk mapped st₂ =>
  rw [hmap] at hspan
  cases hspan with
  | stopped hkept => exact (sound_of_kept hkept.reclaimResources).1
  | done kind₂ hdone =>
  obtain ⟨h₂, hg₂, hlen, hmapped⟩ := hdone
  have hcovered := hplaced.covered root segs st₂ (by simp only [mappedSpan, ha, hseg, hmap])
  dsimp only
  cases hcopy : st₂.copySegments root spec.elf segs with
  | mk ok st₃ =>
  obtain ⟨h₃, hg₃⟩ := h₂.copySegments (fun _ => id) (fun seg hmem j hj => by
    obtain ⟨k, hk, heq⟩ := hcovered seg hmem j hj
    rw [heq]
    exact hmapped k hk) hcopy
  cases ok with
  | false => exact (sound_of_kept h₃.kept).2
  | true =>
  have hflags : ∀ _ : ℕ, pteU ||| pteR ||| pteW < 2 ^ 10 := fun _ => by decide
  have hclear : ∀ k < (userStackTop - userStackBottom) / frameSize,
      Clear (userStackBottom + k * frameSize) := by decide
  have hstack := h₃.mapFresh (Granted m spec) (LaterMade m spec) hflags
    fun k hk => ⟨hclear k hk, .inl ⟨k, hk, rfl⟩, rfl⟩
  dsimp only
  generalize st₃.mapFresh root (fun _ => pteU ||| pteR ||| pteW)
    ((userStackTop - userStackBottom) / frameSize) userStackBottom = r at hstack ⊢
  cases hstack with
  | stopped hkept => exact (sound_of_kept hkept.reclaimResources).1
  | @done kind₄ st₄ hdone =>
  obtain ⟨h₄, hg₄, -, hstack⟩ := hdone
  have hdevices := h₄.mapFixed hgrants
  dsimp only
  generalize st₄.mapFixed root (grants m spec) = r at hdevices ⊢
  cases hdevices with
  | stopped hkept => exact (sound_of_kept hkept.reclaimResources).1
  | done kind₅ hdone =>
  obtain ⟨h₅, hg₅, hfixed⟩ := hdone
  refine ⟨h₅.kept, fun root' start' frames' heq => ?_⟩
  cases heq
  refine ⟨rfl, segs, kind₅, hseg, laid_of_parts (hg₂.trans hg₃)
    (fun k hk => (hmapped k hk).grows hg₃) (hg₄.trans hg₅) (fun va hva => ?_) ?_ h₅⟩
  · rcases hva with ⟨k, hk, rfl⟩ | ⟨page, hmem⟩
    · exact (hstack k hk).grows hg₅
    · exact hfixed va page hmem
  · exact (Nat.le_add_left _ _).trans (hlen.trans h₂.few)

end

namespace Demo

/-- An image of 120 bytes with one segment of its first four, at an address with the given
third and fourth byte. -/
def image (b₂ b₃ : UInt8) : List UInt8 :=
  elfMagic ++ [2, 1, 1, 0] ++ List.replicate 8 0 ++ [2, 0, 243, 0, 1, 0, 0, 0] ++
    [0, 0, b₂, b₃, 0, 0, 0, 0] ++ [64, 0, 0, 0, 0, 0, 0, 0] ++ List.replicate 8 0 ++
    [0, 0, 0, 0, 64, 0, 56, 0, 1, 0, 0, 0, 0, 0, 0, 0] ++
    [1, 0, 0, 0, 5, 0, 0, 0] ++ List.replicate 8 0 ++ [0, 0, b₂, b₃, 0, 0, 0, 0] ++
    List.replicate 8 0 ++ [4, 0, 0, 0, 0, 0, 0, 0] ++ [4, 0, 0, 0, 0, 0, 0, 0] ++
    List.replicate 8 0

def package (b₂ b₃ : UInt8) : Package := ⟨kindElfRiscv64, [], image b₂ b₃⟩

def launch (b₂ b₃ : UInt8) : ProcessSpec := ⟨image b₂ b₃, 0, true, false, false, false⟩

def machine : Machine :=
  ⟨0x80300, none, none, 0x80400, 0x80500, by decide, fun _ h => (by cases h),
    fun _ h => (by cases h), by decide, by decide⟩

/-- The flags of a megapage of the kernel: the first can have code that tasks may run. -/
def megaFlags (shared : Bool) (idx : ℕ) : ℕ :=
  if shared = true ∧ idx = 0 then pteR ||| pteX ||| pteU else pteR ||| pteW ||| pteX

/-- The kernel's table maps its memory by megapages. -/
def start (shared : Bool) : Start machine where
  mem := fun page idx =>
    if page = machine.l1 then pte (0x80000 + 512 * idx) (megaFlags shared idx) else 0
  free := (List.range 24).map (0x81000 + ·)
  nodup := by decide
  small := by decide
  l1_used := by decide
  l1_leaves := fun i _ => by
    rw [if_pos rfl, pte, valid_entry, isLeaf_entry, megaFlags]
    split_ifs
    all_goals decide

def segment : Segment := ⟨5, 0, 0x40000000, 4, 4⟩

theorem segments_image : segments (image 0 0x40) = some (0x40000000, [segment]) := by decide +kernel

theorem segments_of_mapped {root : ℕ} {segs : List Segment} {st st' : Loading}
    (h : mappedSpan machine (launch 0 0x40) st = some (root, segs, st')) : segs = [segment] := by
  unfold mappedSpan at h
  rw [show segments (launch 0 0x40).elf = _ from segments_image] at h
  split at h
  · cases h
  · dsimp only at h
    split at h
    · cases h
    · cases h
      rfl

theorem placed (shared : Bool) : Placed machine (launch 0 0x40) (start shared) := by
  refine ⟨fun _ start segs h => ?_, fun root segs st h => ?_⟩
  · rw [show segments (launch 0 0x40).elf = _ from segments_image] at h
    cases h
    decide +kernel
  · rw [segments_of_mapped h]
    decide +kernel

def shared : Outcome × Loading :=
  buildAddressSpace machine (launch 0 0x40) ⟨(start true).mem, (start true).free, []⟩

end Demo

end Dezh.Loader

import Dezh.Loader

/-!
# The frames of a process

In a new root two entries are not of the loader's making: the gigapage of the devices and
the kernel's level-1 table. Away from them every table that the loader walks is a frame of
the process, with the kind of table that the walk expects at this place. This typing of the
frames by their place is what each step of the loader keeps; it gives that nothing else is
written, and that the word for a page is the one of its last mapping.
-/
namespace Dezh.Loader
open Function PageTables

/-- What a frame of the process is for: a table is typed with its place in the tree. -/
inductive Kind where
  | root
  | upper (i : ℕ)
  | lower (i j : ℕ)
  | data
  deriving DecidableEq, Repr

abbrev Kinds := ℕ → Option Kind

/-- The state before the build: the memory with the kernel's table of leaves, and the free
frames, which that table is not among. -/
structure Start (m : Machine) where
  mem : Memory
  free : List ℕ
  nodup : free.Nodup
  small : ∀ f ∈ free, f < 2 ^ 52
  l1_used : m.l1 ∉ free
  l1_leaves : ∀ i < 512, Valid (mem m.l1 i) ∧ IsLeaf (mem m.l1 i)

/-- The place of the entry for the page of `va`. -/
def EntryOf (va i j l : ℕ) : Prop := vpn2 va = i ∧ vpn1 va = j ∧ vpn0 va = l

section
variable (granted : ℕ → Prop) (made : ℕ → ℕ → Prop) (kind kind' : Kinds)

/-- An empty entry, or one that points to a table of the kind below. -/
def PointerWord (κ : Kind) (e : ℕ) : Prop := e = 0 ∨ ∃ t, kind t = some κ ∧ e = entry t pteV

/-- The word of a mapping that was `made` with some flags, for a data frame of the process or a
granted page. -/
def LeafWord (i j l e : ℕ) : Prop :=
  ∃ va page flags, EntryOf va i j l ∧ flags < 2 ^ 10 ∧ (kind page = some .data ∨ granted page) ∧
    made va flags ∧ e = pte page flags

/-- The frames of the process are typed, and only they have changed. -/
structure Shape {m : Machine} (s₀ : Start m) (root : ℕ) (st : Loading) : Prop where
  own : ∀ f κ, kind f = some κ → f ∈ st.frames
  few : st.frames.length ≤ maxTaskOwnedFrames
  pool : ∀ f, f ∈ st.frames ∨ f ∈ st.free → f ∈ s₀.free
  fresh : ∀ f ∈ st.free, f ∉ st.frames
  nodup : st.free.Nodup
  unchanged : ∀ p, p ∉ st.frames → st.mem p = s₀.mem p
  root_kind : kind root = some .root
  device : st.mem root 0 = pte 0 (pteR ||| pteW ||| pteX)
  kernel : st.mem root 2 = entry m.l1 pteV
  uppers : ∀ i, i ≠ 0 → i ≠ 2 → PointerWord kind (.upper i) (st.mem root i)
  lowers : ∀ t i, kind t = some (.upper i) → ∀ j, PointerWord kind (.lower i j) (st.mem t j)

/-- Nothing but free frames has changed. -/
structure OnlyFrames {m : Machine} (s₀ : Start m) (st : Loading) : Prop where
  mem : ∀ p, p ∉ s₀.free → st.mem p = s₀.mem p
  frames : ∀ f ∈ st.frames, f ∈ s₀.free

/-- Frames keep their kinds, tables keep their entries, and the words in the lower tables are
as before or those of mappings that were made. -/
structure Grows (root : ℕ) (st st' : Loading) : Prop where
  kinds : ∀ f κ, kind f = some κ → kind' f = some κ
  count : st.frames.length ≤ st'.frames.length
  uppers : ∀ i, Valid (st.mem root i) → st'.mem root i = st.mem root i
  lowers : ∀ t i, kind t = some (.upper i) → ∀ j, Valid (st.mem t j) → st'.mem t j = st.mem t j
  old : ∀ z i j, kind z = some (.lower i j) → ∀ l,
    st'.mem z l = st.mem z l ∨ LeafWord granted made kind' i j l (st'.mem z l)
  new : ∀ z i j, kind z = none → kind' z = some (.lower i j) → ∀ l,
    st'.mem z l = 0 ∨ LeafWord granted made kind' i j l (st'.mem z l)

/-- The walk to place `i`, `j` goes through tables of the process to the lower table `z`. -/
def Path (root : ℕ) (st : Loading) (i j z : ℕ) : Prop :=
  ∃ t, kind t = some (.upper i) ∧ kind z = some (.lower i j) ∧ st.mem root i = entry t pteV ∧
    st.mem t j = entry z pteV

/-- The walk for `va` goes through tables of the process and ends in the word of a mapping that
was made. -/
def Mapped (root : ℕ) (st : Loading) (va : ℕ) : Prop :=
  ∃ z, Path kind root st (vpn2 va) (vpn1 va) z ∧
    LeafWord granted made kind (vpn2 va) (vpn1 va) (vpn0 va) (st.mem z (vpn0 va))

end

/-- The address is behind an entry of the loader's making. -/
def Clear (va : ℕ) : Prop := vpn2 va ≠ 0 ∧ vpn2 va ≠ 2

/-- The walk is at the root behind a clear entry, or at an upper table; the next table has
the kind below. -/
def Level (kind : Kinds) (root table idx : ℕ) (below : Kind) : Prop :=
  table = root ∧ idx ≠ 0 ∧ idx ≠ 2 ∧ below = .upper idx ∨
    ∃ i, kind table = some (.upper i) ∧ below = .lower i idx

section
variable {m : Machine} {s₀ : Start m} {granted : ℕ → Prop} {made : ℕ → ℕ → Prop}
  {kind kind' kind'' : Kinds} {root : ℕ} {st st' st'' : Loading}
  {f p q e idx v table va i j l z : ℕ} {κ κ' below : Kind}

theorem valid_pointer (t : ℕ) : Valid (entry t pteV) := valid_entry.mpr (by decide)

theorem pageOf_pte {page flags : ℕ} (hp : page < 2 ^ 52) (hf : flags < 2 ^ 10) :
    pageOf (pte page flags) = page :=
  pageOf_entry hp (Nat.or_lt_two_pow (by decide) hf)

theorem not_isLeaf_pointer (t : ℕ) : ¬ IsLeaf (entry t pteV) :=
  fun h => (isLeaf_entry.mp h) (by decide)

theorem kind_unique (hp : kind p = some κ) (hq : kind q = some κ') (heq : q = p) : κ = κ' := by
  rw [heq, hp] at hq
  exact Option.some.inj hq

theorem PointerWord.extend (hk : ∀ f κ, kind f = some κ → kind' f = some κ)
    (h : PointerWord kind κ e) : PointerWord kind' κ e := by
  rcases h with hzero | ⟨t, ht, he⟩
  · exact .inl hzero
  · exact .inr ⟨t, hk t κ ht, he⟩

theorem PointerWord.of_valid (h : PointerWord kind κ e) (hv : Valid e) :
    ∃ t, kind t = some κ ∧ e = entry t pteV := by
  rcases h with rfl | h
  · exact absurd hv not_valid_zero
  · exact h

theorem LeafWord.extend (hk : ∀ f κ, kind f = some κ → kind' f = some κ)
    (h : LeafWord granted made kind i j l e) : LeafWord granted made kind' i j l e := by
  obtain ⟨va, page, flags, hva, hf, hpage, hmade, he⟩ := h
  exact ⟨va, page, flags, hva, hf, hpage.imp_left (hk page _), hmade, he⟩

theorem Grows.refl (kind : Kinds) (root : ℕ) (st : Loading) :
    Grows granted made kind kind root st st :=
  ⟨fun _ _ h => h, le_rfl, fun _ _ => rfl, fun _ _ _ _ _ => rfl, fun _ _ _ _ _ => .inl rfl,
    fun _ _ _ hnone hsome => by rw [hnone] at hsome; cases hsome⟩

theorem Grows.trans (h : Grows granted made kind kind' root st st')
    (h' : Grows granted made kind' kind'' root st' st'') :
    Grows granted made kind kind'' root st st'' where
  kinds f κ hf := h'.kinds f κ (h.kinds f κ hf)
  count := h.count.trans h'.count
  uppers i hv := by
    have heq := h.uppers i hv
    rw [← heq] at hv
    exact (h'.uppers i hv).trans heq
  lowers t i ht j hv := by
    have heq := h.lowers t i ht j hv
    rw [← heq] at hv
    exact (h'.lowers t i (h.kinds t _ ht) j hv).trans heq
  old z i j hz l := by
    rcases h'.old z i j (h.kinds z _ hz) l with heq | hleaf
    · rw [heq]
      exact (h.old z i j hz l).imp_right fun hleaf => hleaf.extend h'.kinds
    · exact .inr hleaf
  new z i j hnone hz l := by
    cases hmid : kind' z with
    | none => exact h'.new z i j hmid hz l
    | some κ =>
      obtain rfl : κ = .lower i j := kind_unique (h'.kinds z κ hmid) hz rfl
      rcases h'.old z i j hmid l with heq | hleaf
      · rw [heq]
        exact (h.new z i j hnone hmid l).imp_right fun hleaf => hleaf.extend h'.kinds
      · exact .inr hleaf

theorem Path.grows (h : Path kind root st i j z) (hg : Grows granted made kind kind' root st st') :
    Path kind' root st' i j z := by
  obtain ⟨t, ht, hz, hroot, hupper⟩ := h
  refine ⟨t, hg.kinds t _ ht, hg.kinds z _ hz, ?_, ?_⟩
  · rw [hg.uppers _ (hroot ▸ valid_pointer t), hroot]
  · rw [hg.lowers t _ ht _ (hupper ▸ valid_pointer z), hupper]

theorem Mapped.grows (h : Mapped granted made kind root st va)
    (hg : Grows granted made kind kind' root st st') : Mapped granted made kind' root st' va := by
  obtain ⟨z, hpath, hleaf⟩ := h
  refine ⟨z, hpath.grows hg, ?_⟩
  obtain ⟨-, -, hz, -⟩ := hpath
  rcases hg.old z _ _ hz (vpn0 va) with heq | hnew
  · rw [heq]
    exact hleaf.extend hg.kinds
  · exact hnew

section
variable (h : Shape kind s₀ root st)
include h

theorem Shape.kept : OnlyFrames s₀ st :=
  ⟨fun p hp => h.unchanged p fun hf => hp (h.pool p (.inl hf)), fun f hf => h.pool f (.inl hf)⟩

theorem Shape.small (hf : kind f = some κ) : f < 2 ^ 52 :=
  s₀.small f (h.pool f (.inl (h.own f κ hf)))

theorem Shape.ne_root (hp : kind p = some κ) (hκ : κ ≠ .root) : p ≠ root := by
  rintro rfl
  rw [h.root_kind] at hp
  exact hκ (Option.some.inj hp).symm

theorem Shape.kind_fresh (hf : f ∈ st.free) : kind f = none := by
  cases hk : kind f with
  | none => rfl
  | some κ => exact absurd (h.own f κ hk) (h.fresh f hf)

theorem Shape.path_unique {z' : ℕ} (hz : Path kind root st i j z) (hz' : Path kind root st i j z') :
    z' = z := by
  obtain ⟨t, ht, hk, hroot, hupper⟩ := hz
  obtain ⟨t', ht', hk', hroot', hupper'⟩ := hz'
  have htable : t' = t := by
    rw [← pageOf_entry (h.small ht) (by decide : pteV < 2 ^ 10), ← hroot, hroot',
      pageOf_entry (h.small ht') (by decide)]
  rw [htable] at hupper'
  rw [← pageOf_entry (h.small hk) (by decide : pteV < 2 ^ 10), ← hupper, hupper',
    pageOf_entry (h.small hk') (by decide)]

end

theorem allocFrame_some (ha : st.allocFrame = (some f, st')) :
    ∃ free, st.free = f :: free ∧ st' = ⟨zeroPage st.mem f, free, st.frames ++ [f]⟩ ∧
      st.frames.length < maxTaskOwnedFrames := by
  unfold Loading.allocFrame at ha
  cases hfree : st.free with
  | nil =>
    rw [hfree] at ha
    cases ha
  | cons g free =>
    rw [hfree] at ha
    dsimp only at ha
    split_ifs at ha with hfew
    · cases ha
      exact ⟨free, rfl, rfl, hfew⟩
    · cases ha

theorem allocFrame_none (ha : st.allocFrame = (none, st')) :
    st' = st ∨ ∃ f free, st.free = f :: free ∧
      st' = Loading.frameFree ⟨zeroPage st.mem f, free, st.frames⟩ f := by
  unfold Loading.allocFrame at ha
  cases hfree : st.free with
  | nil =>
    rw [hfree] at ha
    cases ha
    exact .inl rfl
  | cons g free =>
    rw [hfree] at ha
    dsimp only at ha
    split_ifs at ha
    · cases ha
    · cases ha
      exact .inr ⟨g, free, rfl, rfl⟩

theorem Shape.alloc (h : Shape kind s₀ root st) (granted : ℕ → Prop) (made : ℕ → ℕ → Prop)
    (ha : st.allocFrame = (some f, st')) (κ : Kind) :
    Shape (update kind f (some κ)) s₀ root st' ∧
      Grows granted made kind (update kind f (some κ)) root st st' ∧
      (∀ p κ', kind p = some κ' → st'.mem p = st.mem p) ∧
      st.frames.length + 1 = st'.frames.length := by
  obtain ⟨free, hfree, rfl, hfew⟩ := allocFrame_some ha
  have hcons := h.nodup
  rw [hfree] at hcons
  have hf : f ∈ st.free := by
    rw [hfree]
    exact List.mem_cons_self
  have hfree' : ∀ p ∈ free, p ∈ st.free := by
    intro p hp
    rw [hfree]
    exact List.mem_cons_of_mem _ hp
  have hne : ∀ p κ', kind p = some κ' → p ≠ f := by
    rintro p κ' hp rfl
    rw [h.kind_fresh hf] at hp
    cases hp
  have hkinds : ∀ p κ', kind p = some κ' → update kind f (some κ) p = some κ' := by
    intro p κ' hp
    rw [update_of_ne (hne p κ' hp), hp]
  have hmem : ∀ p κ', kind p = some κ' → zeroPage st.mem f p = st.mem p :=
    fun p κ' hp => zeroPage_other (hne p κ' hp)
  have hroot := h.root_kind
  have hlen : st.frames.length + 1 = (st.frames ++ [f]).length := by
    rw [List.length_append, List.length_singleton]
  refine ⟨⟨?_, hlen ▸ hfew, ?_, ?_, (List.nodup_cons.mp hcons).2, ?_, hkinds root _ hroot, ?_, ?_, ?_, ?_⟩,
    ⟨hkinds, (Nat.le_succ _).trans hlen.le, fun i _ => congrFun (hmem root _ hroot) i,
      fun t i ht j _ => congrFun (hmem t _ ht) j, fun z i j hz l => .inl (congrFun (hmem z _ hz) l), ?_⟩,
    hmem, hlen⟩
  · intro p κ' hp
    by_cases hpf : p = f
    · rw [hpf]
      exact List.mem_append_right _ (List.mem_singleton_self f)
    · rw [update_of_ne hpf] at hp
      exact List.mem_append_left _ (h.own p κ' hp)
  · rintro p (hp | hp)
    · rcases List.mem_append.mp hp with hp | hp
      · exact h.pool p (.inl hp)
      · rw [List.mem_singleton.mp hp]
        exact h.pool f (.inr hf)
    · exact h.pool p (.inr (hfree' p hp))
  · intro p hp hmem'
    rcases List.mem_append.mp hmem' with hold | heq
    · exact h.fresh p (hfree' p hp) hold
    · rw [List.mem_singleton.mp heq] at hp
      exact (List.nodup_cons.mp hcons).1 hp
  · intro p hp
    have hpf : p ≠ f := by
      rintro rfl
      exact hp (List.mem_append_right _ (List.mem_singleton_self p))
    exact (zeroPage_other hpf).trans (h.unchanged p fun hold => hp (List.mem_append_left _ hold))
  · exact (congrFun (hmem root _ hroot) 0).trans h.device
  · exact (congrFun (hmem root _ hroot) 2).trans h.kernel
  · intro i hi0 hi2
    dsimp only
    rw [hmem root _ hroot]
    exact (h.uppers i hi0 hi2).extend hkinds
  · intro t i ht j
    dsimp only
    by_cases htf : t = f
    · rw [htf, zeroPage_self]
      exact .inl rfl
    · rw [update_of_ne htf] at ht
      rw [hmem t _ ht]
      exact (h.lowers t i ht j).extend hkinds
  · intro z i j hnone hz l
    have hzf : z = f := by
      by_contra hzf
      rw [update_of_ne hzf, hnone] at hz
      cases hz
    left
    dsimp only
    rw [hzf, zeroPage_self]

theorem OnlyFrames.frameFree (h : OnlyFrames s₀ st) (hf : f ∈ s₀.free) :
    OnlyFrames s₀ (st.frameFree f) := by
  refine ⟨fun p hp => ?_, h.frames⟩
  have hne : p ≠ f := by
    rintro rfl
    exact hp hf
  exact (setWord_other hne).trans (h.mem p hp)

theorem OnlyFrames.alloc_none (h : OnlyFrames s₀ st) (hpool : ∀ f ∈ st.free, f ∈ s₀.free)
    (ha : st.allocFrame = (none, st')) : OnlyFrames s₀ st' := by
  rcases allocFrame_none ha with rfl | ⟨f, free, hfree, rfl⟩
  · exact h
  · have hf : f ∈ s₀.free := by
      refine hpool f ?_
      rw [hfree]
      exact List.mem_cons_self
    have hzero : OnlyFrames s₀ ⟨zeroPage st.mem f, free, st.frames⟩ := by
      refine ⟨fun p hp => ?_, h.frames⟩
      have hne : p ≠ f := by
        rintro rfl
        exact hp hf
      exact (zeroPage_other hne).trans (h.mem p hp)
    exact hzero.frameFree hf

theorem Shape.alloc_none (h : Shape kind s₀ root st) (ha : st.allocFrame = (none, st')) :
    OnlyFrames s₀ st' :=
  h.kept.alloc_none (fun f hf => h.pool f (.inr hf)) ha

theorem setWord_mem : (st.setWord p idx v).mem q i = if q = p ∧ i = idx then v else st.mem q i := by
  unfold Loading.setWord
  dsimp only
  by_cases hq : q = p
  · rw [hq, setWord_apply]
    simp only [true_and]
  · rw [setWord_other hq, if_neg fun h => hq h.1]

theorem Shape.set (h : Shape kind s₀ root st) (hp : kind p = some κ)
    (hroot : p = root → idx ≠ 0 ∧ idx ≠ 2 ∧ PointerWord kind (.upper idx) v)
    (hupper : ∀ i, κ = .upper i → PointerWord kind (.lower i idx) v) :
    Shape kind s₀ root (st.setWord p idx v) := by
  refine ⟨h.own, h.few, h.pool, h.fresh, h.nodup, fun q hq => ?_, h.root_kind, ?_, ?_, ?_, ?_⟩
  · have hne : q ≠ p := by
      rintro rfl
      exact hq (h.own q κ hp)
    exact (setWord_other hne).trans (h.unchanged q hq)
  · rw [setWord_mem, if_neg fun heq => (hroot heq.1.symm).1 heq.2.symm]
    exact h.device
  · rw [setWord_mem, if_neg fun heq => (hroot heq.1.symm).2.1 heq.2.symm]
    exact h.kernel
  · intro i hi0 hi2
    rw [setWord_mem]
    split_ifs with heq
    · rw [heq.2]
      exact (hroot heq.1.symm).2.2
    · exact h.uppers i hi0 hi2
  · intro t i ht j
    rw [setWord_mem]
    split_ifs with heq
    · rw [heq.2]
      exact hupper i (kind_unique hp ht heq.1)
    · exact h.lowers t i ht j

theorem Grows.set (hp : kind p = some κ)
    (hempty : p = root ∨ (∃ i, κ = .upper i) → ¬ Valid (st.mem p idx))
    (hleaf : ∀ i j, κ = .lower i j → LeafWord granted made kind i j idx v) :
    Grows granted made kind kind root st (st.setWord p idx v) := by
  refine ⟨fun _ _ h => h, le_rfl, fun i hv => ?_, fun t i ht j hv => ?_, fun z i j hz l => ?_,
    fun _ _ _ hnone hsome => by rw [hnone] at hsome; cases hsome⟩
  · rw [setWord_mem]
    split_ifs with heq
    · rw [heq.1, heq.2] at hv
      exact absurd hv (hempty (.inl heq.1.symm))
    · rfl
  · rw [setWord_mem]
    split_ifs with heq
    · rw [heq.1, heq.2] at hv
      exact absurd hv (hempty (.inr ⟨i, kind_unique hp ht heq.1⟩))
    · rfl
  · rw [setWord_mem]
    split_ifs with heq
    · rw [heq.2]
      exact .inr (hleaf i j (kind_unique hp hz heq.1))
    · exact .inl rfl

section
variable (h : Shape kind s₀ root st)
include h

theorem Level.word (hl : Level kind root table idx below) :
    (∃ κ, kind table = some κ) ∧ PointerWord kind below (st.mem table idx) := by
  rcases hl with ⟨rfl, h0, h2, rfl⟩ | ⟨i, ht, rfl⟩
  · exact ⟨⟨_, h.root_kind⟩, h.uppers idx h0 h2⟩
  · exact ⟨⟨_, ht⟩, h.lowers table i ht idx⟩

theorem Shape.setPointer (hl : Level kind root table idx below) (hf : kind f = some below)
    (hempty : ¬ Valid (st.mem table idx)) :
    Shape kind s₀ root (st.setWord table idx (entry f pteV)) ∧
      Grows granted made kind kind root st (st.setWord table idx (entry f pteV)) := by
  rcases hl with ⟨rfl, h0, h2, rfl⟩ | ⟨i, ht, rfl⟩
  · have hr := h.root_kind
    exact ⟨h.set hr (fun _ => ⟨h0, h2, .inr ⟨f, hf, rfl⟩⟩) fun _ => Kind.noConfusion,
      .set hr (fun _ => hempty) fun _ _ => Kind.noConfusion⟩
  · have hne := h.ne_root ht Kind.noConfusion
    refine ⟨h.set ht (fun heq => absurd heq hne) fun i' heq => ?_,
      .set ht (fun _ => hempty) fun _ _ => Kind.noConfusion⟩
    cases heq
    exact .inr ⟨f, hf, rfl⟩

theorem Shape.walk_none (hw : st.walkAlloc table idx = (none, st')) : OnlyFrames s₀ st' := by
  unfold Loading.walkAlloc at hw
  by_cases hv : Valid (st.mem table idx)
  · rw [if_pos hv] at hw
    cases hw
  · rw [if_neg hv] at hw
    cases ha : st.allocFrame with
    | mk got st1 =>
      rw [ha] at hw
      cases got with
      | none =>
        cases hw
        exact h.alloc_none ha
      | some f => cases hw

theorem Shape.walk {t : ℕ} (granted : ℕ → Prop) (made : ℕ → ℕ → Prop)
    (hl : Level kind root table idx below) (hw : st.walkAlloc table idx = (some t, st')) :
    ∃ kind', Shape kind' s₀ root st' ∧ Grows granted made kind kind' root st st' ∧
      kind' t = some below ∧ st'.mem table idx = entry t pteV := by
  obtain ⟨⟨κ, hκ⟩, hword⟩ := hl.word h
  unfold Loading.walkAlloc at hw
  by_cases hv : Valid (st.mem table idx)
  · rw [if_pos hv] at hw
    obtain ⟨t', ht', heq⟩ := hword.of_valid hv
    rw [heq, pageOf_entry (h.small ht') (by decide)] at hw
    cases hw
    exact ⟨kind, h, .refl kind root _, ht', heq⟩
  · rw [if_neg hv] at hw
    cases ha : st.allocFrame with
    | mk got st1 =>
      rw [ha] at hw
      cases got with
      | none => cases hw
      | some f =>
        cases hw
        obtain ⟨hshape, hgrows, hmem, -⟩ := h.alloc granted made ha below
        have hsame : st1.mem table = st.mem table := hmem table κ hκ
        have hlevel : Level (update kind t (some below)) root table idx below :=
          hl.imp_right fun ⟨i, hup, hbelow⟩ => ⟨i, hgrows.kinds table _ hup, hbelow⟩
        have hself : update kind t (some below) t = some below := update_self ..
        obtain ⟨hset, hgrows'⟩ := hshape.setPointer hlevel hself (by rw [hsame]; exact hv)
        refine ⟨_, hset, hgrows.trans hgrows', hself, ?_⟩
        rw [setWord_mem, if_pos ⟨rfl, rfl⟩]

end

/-- A part of the build ends with a typed state, or has to stop and has changed free frames
only. -/
inductive Ends {m : Machine} (s₀ : Start m) (Q : Kinds → Loading → Prop) : Bool × Loading → Prop
  | done (kind : Kinds) {st : Loading} (h : Q kind st) : Ends s₀ Q (true, st)
  | stopped {st : Loading} (h : OnlyFrames s₀ st) : Ends s₀ Q (false, st)

theorem Ends.imp {Q Q' : Kinds → Loading → Prop} {r : Bool × Loading} (h : Ends s₀ Q r)
    (himp : ∀ kind st, Q kind st → Q' kind st) : Ends s₀ Q' r := by
  cases h with
  | done kind h => exact .done kind (himp kind _ h)
  | stopped h => exact .stopped h

theorem Shape.mapPage (h : Shape kind s₀ root st) (granted : ℕ → Prop) {page flags : ℕ} (hva : Clear va)
    (hf : flags < 2 ^ 10) (hpage : kind page = some .data ∨ granted page) (hmade : made va flags) :
    Ends s₀ (fun kind' st' => Shape kind' s₀ root st' ∧ Grows granted made kind kind' root st st' ∧
      Mapped granted made kind' root st' va) (st.mapPage root va page flags) := by
  unfold Loading.mapPage
  cases hw : st.walkAlloc root (vpn2 va) with
  | mk got st1 =>
    cases got with
    | none => exact .stopped (h.walk_none hw)
    | some t =>
      obtain ⟨kind1, h1, hg1, ht, hroot⟩ := h.walk granted made (.inl ⟨rfl, hva.1, hva.2, rfl⟩) hw
      dsimp only
      cases hw' : st1.walkAlloc t (vpn1 va) with
      | mk got st2 =>
        cases got with
        | none => exact .stopped (h1.walk_none hw')
        | some z =>
          obtain ⟨kind2, h2, hg2, hz, hupper⟩ := h1.walk granted made (.inr ⟨_, ht, rfl⟩) hw'
          have hg := hg1.trans hg2
          have hne := h2.ne_root hz Kind.noConfusion
          have hword : LeafWord granted made kind2 (vpn2 va) (vpn1 va) (vpn0 va) (pte page flags) :=
            ⟨va, page, flags, ⟨rfl, rfl, rfl⟩, hf, hpage.imp_left (hg.kinds page _), hmade, rfl⟩
          have hg3 : Grows granted made kind2 kind2 root st2
              (st2.setWord z (vpn0 va) (pte page flags)) := by
            refine .set hz (fun hor => hor.elim (absurd · hne) fun hup => Kind.noConfusion hup.choose_spec)
              fun i j heq => ?_
            cases heq
            exact hword
          have hpath : Path kind2 root st2 (vpn2 va) (vpn1 va) z := by
            refine ⟨t, hg2.kinds t _ ht, hz, ?_, hupper⟩
            rw [hg2.uppers _ (hroot ▸ valid_pointer t), hroot]
          refine .done kind2 ⟨?_, hg.trans hg3, z, hpath.grows hg3, ?_⟩
          · exact h2.set hz (fun heq => absurd heq hne) fun i => Kind.noConfusion
          · rw [setWord_mem, if_pos ⟨rfl, rfl⟩]
            exact hword

theorem Shape.mapFresh (h : Shape kind s₀ root st) (granted : ℕ → Prop) (made : ℕ → ℕ → Prop)
    {flags : ℕ → ℕ} (hflags : ∀ va, flags va < 2 ^ 10) {n : ℕ}
    (hva : ∀ k < n, Clear (va + k * frameSize) ∧
      made (va + k * frameSize) (flags (va + k * frameSize))) :
    Ends s₀ (fun kind' st' => Shape kind' s₀ root st' ∧ Grows granted made kind kind' root st st' ∧
      st.frames.length + n ≤ st'.frames.length ∧
      ∀ k < n, Mapped granted made kind' root st' (va + k * frameSize))
      (st.mapFresh root flags n va) := by
  induction n generalizing kind va st with
  | zero => exact .done kind ⟨h, .refl kind root _, le_rfl, fun k hk => absurd hk (Nat.not_lt_zero k)⟩
  | succ n ih =>
    have hzero : va + 0 * frameSize = va := by rw [Nat.zero_mul, Nat.add_zero]
    have hshift : ∀ k, va + frameSize + k * frameSize = va + (k + 1) * frameSize := by
      intro k
      rw [Nat.succ_mul, Nat.add_comm (k * frameSize), ← Nat.add_assoc]
    unfold Loading.mapFresh
    cases ha : st.allocFrame with
    | mk got st1 =>
      cases got with
      | none => exact .stopped (h.alloc_none ha)
      | some f =>
        obtain ⟨h1, hg1, -, hlen1⟩ := h.alloc granted made ha .data
        obtain ⟨hclear, hmade⟩ := hva 0 (Nat.succ_pos n)
        rw [hzero] at hclear hmade
        have hpage := h1.mapPage granted hclear (hflags va)
          (.inl (update_self f (some Kind.data) kind)) hmade
        dsimp only
        generalize st1.mapPage root va f (flags va) = r at hpage ⊢
        cases hpage with
        | stopped hkept => exact .stopped hkept
        | done kind2 hdone =>
          obtain ⟨h2, hg2, hmapped⟩ := hdone
          refine (ih h2 fun k hk => hshift k ▸ hva (k + 1) (Nat.succ_lt_succ hk)).imp ?_
          rintro kind3 st3 ⟨h3, hg3, hlen3, hrest⟩
          have hlen2 := hg2.count
          refine ⟨h3, (hg1.trans hg2).trans hg3, by omega, fun k hk => ?_⟩
          cases k with
          | zero =>
            rw [hzero]
            exact hmapped.grows hg3
          | succ k =>
            rw [← hshift]
            exact hrest k (Nat.lt_of_succ_lt_succ hk)

section
variable (h : Shape kind s₀ root st)
include h

theorem Shape.mapFixed {g : List (Option (ℕ × ℕ))}
    (hg : ∀ va page, some (va, page) ∈ g →
      Clear va ∧ granted page ∧ made va (pteU ||| pteR ||| pteW)) :
    Ends s₀ (fun kind' st' => Shape kind' s₀ root st' ∧ Grows granted made kind kind' root st st' ∧
      ∀ va page, some (va, page) ∈ g → Mapped granted made kind' root st' va)
      (st.mapFixed root g) := by
  induction g generalizing kind st with
  | nil => exact .done kind ⟨h, .refl kind root _, fun _ _ hmem => by cases hmem⟩
  | cons first g ih =>
    cases first with
    | none => exact .stopped h.kept
    | some first =>
      obtain ⟨va, page⟩ := first
      obtain ⟨hva, hgranted, hmade⟩ := hg va page List.mem_cons_self
      have hpage := h.mapPage granted hva (by decide : pteU ||| pteR ||| pteW < 2 ^ 10) (.inr hgranted) hmade
      unfold Loading.mapFixed
      generalize st.mapPage root va page (pteU ||| pteR ||| pteW) = r at hpage ⊢
      cases hpage with
      | stopped hkept => exact .stopped hkept
      | done kind1 hdone =>
        obtain ⟨h1, hg1, hmapped⟩ := hdone
        refine (ih h1 fun va page hmem => hg va page (List.mem_cons_of_mem _ hmem)).imp ?_
        rintro kind2 st2 ⟨h2, hg2, hrest⟩
        refine ⟨h2, hg1.trans hg2, fun va' page' hmem => ?_⟩
        rcases List.mem_cons.mp hmem with heq | hmem
        · cases heq
          exact hmapped.grows hg2
        · exact hrest va' page' hmem

theorem Shape.translate (hnone : ∀ p, ¬ granted p) (hm : Mapped granted made kind root st va) :
    kind (st.translate root va) = some .data := by
  obtain ⟨z, ⟨t, ht, hz, hroot, hupper⟩, -, page, flags, -, hf, hpage, -, hleaf⟩ := hm
  have hdata := hpage.resolve_right (hnone page)
  rw [Loading.translate, hroot, pageOf_entry (h.small ht) (by decide), hupper,
    pageOf_entry (h.small hz) (by decide), hleaf, pageOf_pte (h.small hdata) hf]
  exact hdata

theorem Shape.storeByte (granted : ℕ → Prop) (made : ℕ → ℕ → Prop) {page : ℕ} (hp : kind page = some .data)
    (off : ℕ) (b : UInt8) : Shape kind s₀ root (st.storeByte page off b) ∧
      Grows granted made kind kind root st (st.storeByte page off b) := by
  have hne := h.ne_root hp Kind.noConfusion
  exact ⟨h.set hp (fun heq => absurd heq hne) fun _ => Kind.noConfusion,
    .set hp (fun hor => hor.elim (absurd · hne) fun hup => Kind.noConfusion hup.choose_spec)
      fun _ _ => Kind.noConfusion⟩

theorem Shape.copyBytes {img : List UInt8} {seg : Segment} {n k : ℕ} {done : Bool}
    (hnone : ∀ p, ¬ granted p)
    (hmapped : ∀ j, k ≤ j → j < k + n →
      Mapped granted made kind root st ((seg.vaddr + j) % 2 ^ 64 / frameSize * frameSize))
    (hc : st.copyBytes root img seg n k = (done, st')) :
    Shape kind s₀ root st' ∧ Grows granted made kind kind root st st' := by
  induction n generalizing k st with
  | zero =>
    cases hc
    exact ⟨h, .refl kind root _⟩
  | succ n ih =>
    unfold Loading.copyBytes at hc
    dsimp only at hc
    cases hb : img[(seg.offset + k) % 2 ^ 64]? with
    | none =>
      rw [hb] at hc
      cases hc
      exact ⟨h, .refl kind root _⟩
    | some b =>
      rw [hb] at hc
      dsimp only at hc
      have hdata := h.translate hnone (hmapped k le_rfl (by omega))
      obtain ⟨h1, hg1⟩ := h.storeByte granted made hdata
        ((seg.vaddr + k) % 2 ^ 64 % frameSize) b
      obtain ⟨h2, hg2⟩ := ih h1
        (fun j hj hj' => (hmapped j (by omega) (by omega)).grows hg1) hc
      exact ⟨h2, hg1.trans hg2⟩

theorem Shape.copySegments {img : List UInt8} {segs : List Segment} {done : Bool}
    (hnone : ∀ p, ¬ granted p)
    (hmapped : ∀ seg ∈ segs, ∀ j < seg.filesz,
      Mapped granted made kind root st ((seg.vaddr + j) % 2 ^ 64 / frameSize * frameSize))
    (hc : st.copySegments root img segs = (done, st')) :
    Shape kind s₀ root st' ∧ Grows granted made kind kind root st st' := by
  induction segs generalizing st with
  | nil =>
    cases hc
    exact ⟨h, .refl kind root _⟩
  | cons seg segs ih =>
    unfold Loading.copySegments at hc
    cases hb : st.copyBytes root img seg seg.filesz 0 with
    | mk ok st1 =>
      rw [hb] at hc
      obtain ⟨h1, hg1⟩ := h.copyBytes hnone
        (fun j _ hj => hmapped seg List.mem_cons_self j (by omega)) hb
      cases ok with
      | false =>
        cases hc
        exact ⟨h1, hg1⟩
      | true =>
        obtain ⟨h2, hg2⟩ :=
          ih h1 (fun s hs j hj => (hmapped s (List.mem_cons_of_mem _ hs) j hj).grows hg1) hc
        exact ⟨h2, hg1.trans hg2⟩

end

theorem OnlyFrames.reclaimResources (h : OnlyFrames s₀ st) : OnlyFrames s₀ st.reclaimResources := by
  have hfold : ∀ (l : List ℕ) {st : Loading}, (∀ f ∈ l, f ∈ s₀.free) → OnlyFrames s₀ st →
      OnlyFrames s₀ (l.foldl Loading.frameFree st) := by
    intro l
    induction l with
    | nil => exact fun _ h => h
    | cons f l ih =>
      intro st hl h
      exact ih (fun g hg => hl g (List.mem_cons_of_mem _ hg)) (h.frameFree (hl f List.mem_cons_self))
  exact ⟨(hfold st.frames h.frames h).mem, fun f hf => by cases hf⟩

/-! ### The leaves of a typed state -/

theorem vpn_lt (va : ℕ) : vpn2 va < 512 ∧ vpn1 va < 512 ∧ vpn0 va < 512 := by
  have hmask : ∀ x, x &&& 0x1ff < 512 := fun x => lt_of_le_of_lt Nat.and_le_right (by decide)
  exact ⟨hmask _, hmask _, hmask _⟩

section
variable (h : Shape kind s₀ root st)
include h

theorem Shape.l1_mem : st.mem m.l1 = s₀.mem m.l1 :=
  h.unchanged _ fun hmem => s₀.l1_used (h.pool _ (.inl hmem))

/-- The leaves of the kernel's table are leaves of the process. -/
theorem Shape.leaf_l1 (hi : i < 512) : Leaf st.mem root (s₀.mem m.l1 i) := by
  obtain ⟨hv, hl⟩ := s₀.l1_leaves i hi
  have hpoints : Points st.mem root m.l1 := by
    have hpage : pageOf (st.mem root 2) = m.l1 := by
      rw [h.kernel, pageOf_entry m.l1_small (by decide)]
    rw [← hpage]
    exact .entry 2 (by decide) (h.kernel ▸ valid_pointer _) (h.kernel ▸ not_isLeaf_pointer _)
  rw [← h.l1_mem] at hv hl ⊢
  exact .mega hpoints (.entry i hi hv hl)

theorem Shape.leaf_path (hpath : Path kind root st i j z) (hi : i < 512) (hj : j < 512) (hl : l < 512)
    (hv : Valid (st.mem z l)) (hleaf : IsLeaf (st.mem z l)) : Leaf st.mem root (st.mem z l) := by
  obtain ⟨t, ht, hz, hroot, hupper⟩ := hpath
  have hp : Points st.mem root t := by
    have hpage : pageOf (st.mem root i) = t := by rw [hroot, pageOf_entry (h.small ht) (by decide)]
    rw [← hpage]
    exact .entry i hi (hroot ▸ valid_pointer t) (hroot ▸ not_isLeaf_pointer t)
  have hq : Points st.mem t z := by
    have hpage : pageOf (st.mem t j) = z := by rw [hupper, pageOf_entry (h.small hz) (by decide)]
    rw [← hpage]
    exact .entry j hj (hupper ▸ valid_pointer z) (hupper ▸ not_isLeaf_pointer z)
  exact .page hp hq (.entry l hl hv hleaf)

theorem Shape.points {upper : ℕ} (hp : Points st.mem root upper) :
    upper = m.l1 ∨ ∃ i, kind upper = some (.upper i) ∧ st.mem root i = entry upper pteV := by
  obtain ⟨i, -, hv, hnl⟩ := hp
  by_cases hi0 : i = 0
  · rw [hi0, h.device] at hnl
    exact absurd (isLeaf_entry.mpr (by decide)) hnl
  · by_cases hi2 : i = 2
    · rw [hi2, h.kernel, pageOf_entry m.l1_small (by decide)]
      exact .inl rfl
    · obtain ⟨t, ht, heq⟩ := (h.uppers i hi0 hi2).of_valid hv
      rw [heq, pageOf_entry (h.small ht) (by decide)]
      exact .inr ⟨i, ht, heq⟩

/-- A user leaf is one of the kernel's table, or a word of a lower table of the process. -/
theorem Shape.leaf (he : Leaf st.mem root e) (hu : IsUser e) :
    (∃ j < 512, e = s₀.mem m.l1 j) ∨
      ∃ i j l z, Path kind root st i j z ∧ e = st.mem z l ∧ Valid e := by
  cases he with
  | giga hleaf =>
    obtain ⟨i, -, hv, hl⟩ := hleaf
    by_cases hi0 : i = 0
    · rw [hi0, h.device] at hu
      exact absurd (isUser_entry.mp hu) (by decide)
    · by_cases hi2 : i = 2
      · rw [hi2, h.kernel] at hl
        exact absurd hl (not_isLeaf_pointer _)
      · obtain ⟨t, -, heq⟩ := (h.uppers i hi0 hi2).of_valid hv
        rw [heq] at hl
        exact absurd hl (not_isLeaf_pointer t)
  | mega hp hleaf =>
    obtain ⟨j, hj, hv, hl⟩ := hleaf
    rcases h.points hp with rfl | ⟨i, ht, -⟩
    · exact .inl ⟨j, hj, congrFun h.l1_mem j⟩
    · obtain ⟨z, -, heq⟩ := (h.lowers _ i ht j).of_valid hv
      rw [heq] at hl
      exact absurd hl (not_isLeaf_pointer z)
  | page hp hq hleaf =>
    obtain ⟨j, hj, hv, hnl⟩ := hq
    rcases h.points hp with rfl | ⟨i, ht, hroot⟩
    · rw [h.l1_mem] at hnl
      exact absurd (s₀.l1_leaves j hj).2 hnl
    · obtain ⟨z, hz, heq⟩ := (h.lowers _ i ht j).of_valid hv
      rw [heq, pageOf_entry (h.small hz) (by decide)] at hleaf
      obtain ⟨l, -, hv', -⟩ := hleaf
      exact .inr ⟨i, j, l, z, ⟨_, ht, hz, hroot, heq⟩, rfl, hv'⟩

theorem LeafWord.page_mem (hleaf : LeafWord granted made kind i j l e)
    (hgranted : ∀ p, granted p → p < 2 ^ 52) : pageOf e ∈ st.frames ∨ granted (pageOf e) := by
  obtain ⟨va, page, flags, -, hf, hpage | hpage, -, rfl⟩ := hleaf
  · rw [pageOf_pte (h.small hpage) hf]
    exact .inl (h.own page _ hpage)
  · rw [pageOf_pte (hgranted page hpage) hf]
    exact .inr hpage

end

end

end Dezh.Loader

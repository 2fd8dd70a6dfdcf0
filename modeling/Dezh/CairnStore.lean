import Dezh.ParentChain
import Dezh.SfarService

/-!
# The logical Cairn store

The disk is read through its superblock. A disk without the superblock magic is
an unformatted store and reads as the empty one, because every operation formats
it before doing anything else.
-/
namespace Dezh.CairnStore
open Function BlockProgram ByteLayout ParentChain CairnFormat CairnService SfarService

abbrev CairnDisk := Disk Sector

variable {d d' : CairnDisk} {w : Bytes} {ns : ℕ}

def formatted (d : CairnDisk) : Bool := startsWith (bytes (d superSector)) superMagic

def superOf (d : CairnDisk) : Sector := if formatted d then d superSector else freshSuper

def settle (d : CairnDisk) : CairnDisk :=
  if formatted d then d else update d superSector freshSuper

def next (d : CairnDisk) : ℕ := u32At (bytes (superOf d)) offNext

def head (d : CairnDisk) (ns : ℕ) : ℕ := heads (bytes (superOf d)) ns

def count (d : CairnDisk) (ns : ℕ) : ℕ := counts (bytes (superOf d)) ns

def revoked (d : CairnDisk) (ns : ℕ) : ℕ := u32At (bytes (superOf d)) (nsEntryOff ns + nsOffRevoked)

def record (d : CairnDisk) (slot : ℕ) : Bytes := bytes (d (commitFirstSector + slot))

def commitLinks : Links Bytes where
  parent := fun b => (header b).parent
  valid := isCommit
  stop := noSlot

/-- A commit record that names its slot and namespace and carries its depth. -/
structure GoodRecord (ns slot depth : ℕ) (b : Bytes) : Prop where
  commit : isCommit b = true
  slot_eq : (header b).slot = slot
  ns_eq : (header b).ns = ns
  generation_eq : (header b).generation = depth

def liveChain (d : CairnDisk) (ns : ℕ) : List ℕ :=
  follow commitLinks (record d) commitSlots (head d ns)

/-- The store invariant. -/
structure StoreInv (d : CairnDisk) : Prop where
  next_le : next d ≤ commitSlots
  chain : ∀ ns < nsMax,
    Chain commitLinks (GoodRecord ns) (record d) (head d ns) (liveChain d ns)
  below : ∀ ns < nsMax, ∀ slot ∈ liveChain d ns, slot < next d
  count_eq : ∀ ns < nsMax, count d ns = (liveChain d ns).length

/-- What the store means to its clients: heads, lengths, the next slot, revoked
flags, and every live record. -/
structure Logical where
  next : ℕ
  head : Fin nsMax → ℕ
  count : Fin nsMax → ℕ
  revoked : Fin nsMax → ℕ
  live : Fin nsMax → List (ℕ × Sector)

def logical (d : CairnDisk) : Logical where
  next := next d
  head := fun ns => head d ns
  count := fun ns => count d ns
  revoked := fun ns => revoked d ns
  live := fun ns => (liveChain d ns).map fun slot => (slot, d (commitFirstSector + slot))

theorem formatEntry_congr {b c : Bytes} {n : ℕ} (h : ∀ i < n, b i = c i) (ns : ℕ) :
    ∀ i < n, formatEntry b ns i = formatEntry c ns i := by
  intro i hi
  simp only [formatEntry, putU32, putLe, copy]
  split_ifs <;> first | rfl | exact h i hi

theorem formatEntry_of_le {b : Bytes} {ns i : ℕ} (hns : ns < nsMax) (hi : sectorSize ≤ i) :
    formatEntry b ns i = b i := by
  have h1 : ns < 8 := hns
  have h2 : 512 ≤ i := hi
  simp only [formatEntry, nsEntryOff, nsOffHead, nsOffCount]
  rw [putU32_of_outside (by omega), putU32_of_outside (by omega), copy_of_outside (by omega)]

theorem foldl_formatEntry_congr {b c : Bytes} {n : ℕ} (l : List ℕ) (h : ∀ i < n, b i = c i) :
    ∀ i < n, l.foldl formatEntry b i = l.foldl formatEntry c i := by
  induction l generalizing b c with
  | nil => exact h
  | cons ns l ih => exact ih (formatEntry_congr h ns)

theorem foldl_formatEntry_of_le {b : Bytes} {l : List ℕ} (hl : ∀ ns ∈ l, ns < nsMax) {i : ℕ}
    (hi : sectorSize ≤ i) : l.foldl formatEntry b i = b i := by
  induction l generalizing b with
  | nil => rfl
  | cons ns l ih =>
    rw [List.foldl_cons, ih fun m hm => hl m (List.mem_cons_of_mem ns hm)]
    exact formatEntry_of_le (hl ns List.mem_cons_self) hi

theorem take_formatSuper (w : Bytes) : take sectorSize (formatSuper w) = freshSuper := by
  unfold freshSuper
  refine take_congr fun i hi => ?_
  simp only [formatSuper]
  refine foldl_formatEntry_congr _ (fun j hj => ?_) i hi
  simp only [setData, putU32, putLe, copy, zeroFill, hj, if_true]

theorem formatSuper_of_le {w : Bytes} {i : ℕ} (hi : sectorSize ≤ i) : formatSuper w i = w i := by
  have h : 512 ≤ i := hi
  have hm : min superMagic.length (sectorSize - 1) = 8 := by decide
  simp only [formatSuper]
  rw [foldl_formatEntry_of_le (fun ns hns => List.mem_range.mp hns) hi,
    putU32_of_outside (by simp only [offNext]; omega)]
  simp only [setData, hm]
  rw [copy_of_outside (by omega), zeroFill_zeroFill, zeroFill_of_le hi]

theorem load_formatSuper (w : Bytes) (s t : Sector) :
    load (formatSuper (load w s)) t = load w t := by
  refine load_congr fun i hi => ?_
  rw [formatSuper_of_le (Nat.le_of_lt hi), load_of_gt hi]

theorem freshSuper_magic : startsWith (bytes freshSuper) superMagic = true := by decide +kernel

theorem freshSuper_next : u32At (bytes freshSuper) offNext = 0 := by decide +kernel

theorem freshSuper_entry : ∀ ns < nsMax, heads (bytes freshSuper) ns = noSlot ∧
    counts (bytes freshSuper) ns = 0 ∧
    u32At (bytes freshSuper) (nsEntryOff ns + nsOffRevoked) = 0 := by decide +kernel

section
variable (d : CairnDisk)

theorem settle_super : settle d superSector = superOf d := by
  unfold settle superOf
  split <;> simp

theorem settle_of_ne {s : ℕ} (h : s ≠ superSector) : settle d s = d s := by
  unfold settle
  split
  · rfl
  · exact update_of_ne h _ _

theorem superOf_magic : startsWith (bytes (superOf d)) superMagic = true := by
  unfold superOf
  split
  · assumption
  · exact freshSuper_magic

theorem superOf_of_magic {d : CairnDisk} {s : Sector} (h : d superSector = s)
    (hs : startsWith (bytes s) superMagic = true) : superOf d = s := by
  subst h
  exact if_pos hs

@[simp] theorem superOf_settle : superOf (settle d) = superOf d :=
  superOf_of_magic (settle_super d) (superOf_magic d)

@[simp] theorem settle_settle : settle (settle d) = settle d := by
  have h : formatted (settle d) = true := by
    unfold formatted
    rw [settle_super]
    exact superOf_magic d
  exact if_pos h

end

section
variable {b : Bytes}

theorem startsWith_superMagic_load : startsWith (load w (superOf d)) superMagic = true := by
  rw [startsWith_load (by decide)]
  exact superOf_magic d

theorem superOf_update (d : CairnDisk) (hb : startsWith b superMagic = true) :
    superOf (update d superSector (take sectorSize b)) = take sectorSize b := by
  apply superOf_of_magic (update_self _ _ _)
  rw [startsWith_bytes_take (by decide)]
  exact hb

theorem entry_lt (hns : ns < nsMax) : nsEntryOff ns + 28 ≤ sectorSize := by
  have h : ns < 8 := hns
  simp only [nsEntryOff, sectorSize]
  omega

section
variable (h : superOf d = take sectorSize b)
include h

theorem next_of_super : next d = u32At b offNext := by
  rw [next, h, u32At_bytes_take (by decide)]

theorem head_of_super (hns : ns < nsMax) : head d ns = heads b ns := by
  have := entry_lt hns
  rw [head, h, heads, heads, u32At_bytes_take (by simp only [nsOffHead]; omega)]

theorem count_of_super (hns : ns < nsMax) : count d ns = counts b ns := by
  have := entry_lt hns
  rw [count, h, counts, counts, u32At_bytes_take (by simp only [nsOffCount]; omega)]

theorem revoked_of_super (hns : ns < nsMax) :
    revoked d ns = u32At b (nsEntryOff ns + nsOffRevoked) := by
  have := entry_lt hns
  rw [revoked, h, u32At_bytes_take (by simp only [nsOffRevoked]; omega)]

end

@[simp] theorem next_load : u32At (load w (superOf d)) offNext = next d :=
  (next_of_super (take_load w (superOf d)).symm).symm

theorem heads_load (hns : ns < nsMax) : heads (load w (superOf d)) ns = head d ns :=
  (head_of_super (take_load w (superOf d)).symm hns).symm

theorem counts_load (hns : ns < nsMax) : counts (load w (superOf d)) ns = count d ns :=
  (count_of_super (take_load w (superOf d)).symm hns).symm

theorem revoked_load (hns : ns < nsMax) :
    u32At (load w (superOf d)) (nsEntryOff ns + nsOffRevoked) = revoked d ns :=
  (revoked_of_super (take_load w (superOf d)).symm hns).symm

end

section
variable {slot : ℕ}

theorem isCommit_window :
    isCommit (load w (d (commitFirstSector + slot))) = isCommit (record d slot) := isCommit_load

theorem parent_window : u32At (load w (d (commitFirstSector + slot))) offParent =
    (header (record d slot)).parent := congrArg CommitHeader.parent header_load

theorem derived_window : u32At (load w (d (commitFirstSector + slot))) offDerived =
    (header (record d slot)).derived := congrArg CommitHeader.derived header_load

theorem ofMission_window {ahd : UInt32} :
    ofMission ahd (load w (d (commitFirstSector + slot))) = ofMission ahd (record d slot) :=
  congrArg (fun h : CommitHeader => h.intent == ahd.toNat) header_load

theorem revClass_window : load w (d (commitFirstSector + slot)) offRevclass =
    record d slot offRevclass := load_of_lt (by decide)

theorem extractCompensation_load {s : Sector} {cap : ℕ} :
    extractCompensation (load w s) cap = extractCompensation (bytes s) cap := by
  have hlen : u32At (load w s) offLen = u32At (bytes s) offLen :=
    congrArg CommitHeader.len header_load
  have hval : ∀ n ≤ valueMax, toList (load w s) valueOff n = toList (bytes s) valueOff n := by
    intro n hn
    refine List.map_congr_left fun i hi => load_of_lt ?_
    have h1 : i < n := List.mem_range.mp hi
    have h2 : valueOff + valueMax = sectorSize := by decide
    omega
  simp only [extractCompensation, hlen, hval _ (min_le_right _ _)]

theorem extractCompensation_window {cap : ℕ} :
    extractCompensation (load w (d (commitFirstSector + slot))) cap =
      extractCompensation (record d slot) cap := extractCompensation_load

end

theorem slot_ne_super (slot : ℕ) : commitFirstSector + slot ≠ superSector := by
  simp only [commitFirstSector, superSector]
  omega

/-- The superblock reads the same and no allocated slot has changed. -/
structure SameStore (d d' : CairnDisk) : Prop where
  super : superOf d' = superOf d
  slots : ∀ slot < next d, d' (commitFirstSector + slot) = d (commitFirstSector + slot)

namespace SameStore
variable {d'' : CairnDisk}

theorem refl (d : CairnDisk) : SameStore d d := ⟨rfl, fun _ _ => rfl⟩

section
variable (h : SameStore d d')
include h

theorem next_eq : next d' = next d := by rw [next, next, h.super]

theorem head_eq (ns : ℕ) : head d' ns = head d ns := by
  rw [head, head, h.super]

theorem count_eq (ns : ℕ) : count d' ns = count d ns := by
  rw [count, count, h.super]

theorem revoked_eq (ns : ℕ) : revoked d' ns = revoked d ns := by
  rw [revoked, revoked, h.super]

theorem record_eq {slot : ℕ} (hs : slot < next d) :
    record d' slot = record d slot := by rw [record, record, h.slots slot hs]

theorem trans (h' : SameStore d' d'') : SameStore d d'' :=
  ⟨h'.super.trans h.super, fun slot hs =>
    (h'.slots slot (h.next_eq ▸ hs)).trans (h.slots slot hs)⟩

end

theorem settle (d : CairnDisk) : SameStore d (settle d) :=
  ⟨superOf_settle d, fun slot _ => settle_of_ne d (slot_ne_super slot)⟩

theorem update_slot (d : CairnDisk) {slot : ℕ} (hs : next d ≤ slot) (b : Sector) :
    SameStore d (update d (commitFirstSector + slot) b) := by
  refine ⟨?_, fun s h => update_of_ne (by omega) _ _⟩
  unfold superOf formatted
  rw [update_of_ne (slot_ne_super slot).symm]

end SameStore

section
variable {l : List ℕ}

theorem StoreInv.of_chains (hnext : next d ≤ commitSlots)
    (h : ∀ ns < nsMax, ∃ l, Chain commitLinks (GoodRecord ns) (record d) (head d ns) l ∧
      (∀ slot ∈ l, slot < next d) ∧ count d ns = l.length) : StoreInv d := by
  have key : ∀ ns < nsMax, ∃ l, liveChain d ns = l ∧
      Chain commitLinks (GoodRecord ns) (record d) (head d ns) l ∧
      (∀ slot ∈ l, slot < next d) ∧ count d ns = l.length := by
    intro ns hns
    obtain ⟨l, hc, hb, hl⟩ := h ns hns
    refine ⟨l, hc.follow_eq (fun _ _ _ hg => hg.commit) ?_ ?_, hc, hb, hl⟩
    · exact (hc.length_le hb).trans hnext
    · intro s hs
      exact (hb s hs).trans_le (hnext.trans (by decide))
  refine ⟨hnext, fun ns hns => ?_, fun ns hns => ?_, fun ns hns => ?_⟩
  all_goals
    obtain ⟨l, rfl, hc, hb, hl⟩ := key ns hns
    assumption

theorem StoreInv.liveChain_eq (h : StoreInv d)
    (hc : Chain commitLinks (GoodRecord ns) (record d) (head d ns) l)
    (hb : ∀ slot ∈ l, slot < next d) : liveChain d ns = l := by
  refine hc.follow_eq (fun _ _ _ hg => hg.commit) ((hc.length_le hb).trans h.next_le) ?_
  intro s hs
  exact (hb s hs).trans_le (h.next_le.trans (by decide))

theorem StoreInv.head_eq (h : StoreInv d) (hns : ns < nsMax) :
    head d ns = (liveChain d ns).headD noSlot := (h.chain ns hns).cur_eq

/-- How one namespace's reference may move: back along its chain, and then
possibly forward to one newly allocated record. -/
inductive RefMove (d d' : CairnDisk) (ns : ℕ) : List ℕ → Prop
  | back (k : ℕ) :
      head d' ns = ((liveChain d ns).drop k).headD noSlot →
      count d' ns = ((liveChain d ns).drop k).length →
      RefMove d d' ns ((liveChain d ns).drop k)
  | push (k slot : ℕ) :
      next d ≤ slot → slot < next d' →
      head d' ns = slot →
      count d' ns = ((liveChain d ns).drop k).length + 1 →
      GoodRecord ns slot (((liveChain d ns).drop k).length + 1) (record d' slot) →
      (header (record d' slot)).parent = ((liveChain d ns).drop k).headD noSlot →
      RefMove d d' ns (slot :: (liveChain d ns).drop k)

/-- Allocated slots keep their records and the next free slot does not move back. -/
structure Extends (d d' : CairnDisk) : Prop where
  next_le : next d ≤ next d'
  slots : ∀ slot < next d, d' (commitFirstSector + slot) = d (commitFirstSector + slot)

theorem RefMove.chain (h : StoreInv d) (hx : Extends d d') (hns : ns < nsMax)
    (hm : RefMove d d' ns l) :
    Chain commitLinks (GoodRecord ns) (record d') (head d' ns) l ∧
      (∀ slot ∈ l, slot < next d') ∧ count d' ns = l.length := by
  have hbelow : ∀ k, ∀ slot ∈ (liveChain d ns).drop k, slot < next d :=
    fun k slot hs => h.below ns hns slot (List.mem_of_mem_drop hs)
  have hdrop : ∀ k, Chain commitLinks (GoodRecord ns) (record d')
      (((liveChain d ns).drop k).headD noSlot) ((liveChain d ns).drop k) := by
    intro k
    refine ((h.chain ns hns).drop k).congr fun slot hs => ?_
    rw [record, record, hx.slots slot (hbelow k slot hs)]
  cases hm with
  | back k hh hc => exact ⟨hh ▸ hdrop k, fun s hs => (hbelow k s hs).trans_le hx.next_le, hc⟩
  | push k slot hle hlt hh hc hg hp =>
    rw [hh]
    refine ⟨.cons hg (fun s hs => (hbelow k s hs).trans_le hle) ?_, ?_, hc⟩
    · show Chain commitLinks _ _ (header (record d' slot)).parent _
      rw [hp]
      exact hdrop k
    · intro s hs
      rcases List.mem_cons.mp hs with rfl | hs
      · exact hlt
      · exact (hbelow k s hs).trans_le hx.next_le

theorem StoreInv.move (h : StoreInv d) (hx : Extends d d') (hcap : next d' ≤ commitSlots)
    (hm : ∀ ns < nsMax, ∃ l, RefMove d d' ns l) : StoreInv d' := by
  refine .of_chains hcap fun ns hns => ?_
  obtain ⟨l, hl⟩ := hm ns hns
  exact ⟨l, hl.chain h hx hns⟩

theorem RefMove.liveChain_eq (h : StoreInv d) (h' : StoreInv d') (hx : Extends d d')
    (hns : ns < nsMax) (hm : RefMove d d' ns l) : liveChain d' ns = l :=
  h'.liveChain_eq (hm.chain h hx hns).1 (hm.chain h hx hns).2.1

theorem SameStore.toExtends (h : SameStore d d') : Extends d d' :=
  ⟨h.next_eq.ge, h.slots⟩

theorem RefMove.still (hi : StoreInv d) (hns : ns < nsMax) (hhead : head d' ns = head d ns)
    (hcount : count d' ns = count d ns) : RefMove d d' ns (liveChain d ns) := by
  have hback : RefMove d d' ns ((liveChain d ns).drop 0) := by
    refine RefMove.back 0 ?_ ?_
    · rw [hhead, List.drop_zero, hi.head_eq hns]
    · rw [hcount, List.drop_zero, hi.count_eq ns hns]
  rwa [List.drop_zero] at hback

section
variable (h : SameStore d d')
include h

theorem SameStore.refMove (hi : StoreInv d) (hns : ns < nsMax) : RefMove d d' ns (liveChain d ns) :=
  RefMove.still hi hns (h.head_eq ns) (h.count_eq ns)

theorem SameStore.storeInv (hi : StoreInv d) : StoreInv d' :=
  hi.move h.toExtends (h.next_eq.trans_le hi.next_le) fun _ hns => ⟨_, h.refMove hi hns⟩

theorem SameStore.liveChain_eq (hi : StoreInv d) (hns : ns < nsMax) :
    liveChain d' ns = liveChain d ns :=
  (h.refMove hi hns).liveChain_eq hi (h.storeInv hi) h.toExtends hns

theorem SameStore.logical_eq (hi : StoreInv d) : logical d' = logical d := by
  simp only [logical, h.next_eq, h.head_eq, h.count_eq, h.revoked_eq, Logical.mk.injEq, true_and]
  funext ns
  rw [h.liveChain_eq hi ns.isLt]
  refine List.map_congr_left fun slot hs => ?_
  rw [h.slots slot (hi.below ns ns.isLt slot hs)]

end

end

end Dezh.CairnStore

import Dezh.CairnStore

/-!
# Outcomes of the Cairn operations

For each operation of the daemon that touches a single namespace, one lemma
lists everything an execution in a fault class can do to the disk. A reported
success is always the one published disk; a reported failure leaves the store as
it was, unless the final superblock write landed although it was reported as
failed.
-/
namespace Dezh.CairnOutcomes
open Function BlockProgram Program ByteLayout ParentChain CairnFormat CairnService SfarService CairnStore

variable {K : Faults} {d d' : CairnDisk} {w : Bytes} {ns : ℕ} {h : CommitHeader} {value : Bytes}

section
variable {a : Answer Bool} {sector : ℕ}

theorem exec_rw_read : (rw w sector false).Exec K d a d' ↔
    d' = d ∧ (a = ⟨true, load w (d sector)⟩ ∨ K.reads ∧ a = ⟨false, reported w false⟩) := by
  simp only [rw, Bool.false_eq_true, if_false, exec_read, exec_done]
  tauto

theorem exec_rw_write : (rw w sector true).Exec K d a d' ↔
    a = ⟨true, reported w true⟩ ∧ d' = update d sector (take sectorSize w) ∨
      a = ⟨false, reported w false⟩ ∧ (K.lost ∧ d' = d ∨
        K.landed ∧ d' = update d sector (take sectorSize w)) := by
  simp only [rw, if_true, exec_write, exec_done]
  tauto

theorem exec_rw_write_ok (K : Faults) (d : CairnDisk) (w : Bytes) (sector : ℕ) :
    (rw w sector true).Exec K d ⟨true, reported w true⟩ (update d sector (take sectorSize w)) :=
  exec_rw_write.mpr (.inl ⟨rfl, rfl⟩)

theorem settle_of_formatted (h : formatted d = true) : settle d = d := if_pos h

theorem superOf_of_formatted (h : formatted d = true) : superOf d = d superSector := if_pos h

theorem load_load (b : Bytes) (s t : Sector) : load (load b s) t = load b t := by
  exact load_congr fun _ hi => load_of_gt hi

theorem cairnLoadSuper_cases (h : (cairnLoadSuper w).Exec K d a d') :
    a = ⟨true, load w (superOf d)⟩ ∧ d' = settle d ∨
      a.value = false ∧ K.Possible ∧ (d' = d ∨ d' = settle d) := by
  obtain ⟨r, d1, hr, h⟩ := exec_bind.mp h
  obtain ⟨hd, ha⟩ := exec_rw_read.mp hr
  subst d1
  rcases ha with rfl | ⟨hK, rfl⟩
  · simp only [if_true, startsWith_load (show superMagic.length ≤ sectorSize by decide)] at h
    rw [show startsWith (bytes (d superSector)) superMagic = formatted d from rfl] at h
    by_cases hf : formatted d = true
    · rw [if_pos hf] at h
      obtain ⟨rfl, rfl⟩ := h
      rw [superOf_of_formatted hf, settle_of_formatted hf]
      exact .inl ⟨rfl, rfl⟩
    · have hs : settle d = update d superSector freshSuper := if_neg hf
      rw [if_neg hf] at h
      obtain ⟨s, d2, hs', h⟩ := exec_bind.mp h
      rw [exec_rw_write, take_formatSuper, ← hs] at hs'
      rcases hs' with ⟨rfl, rfl⟩ | ⟨rfl, hl⟩
      · obtain ⟨rfl, rfl | ⟨hK, rfl⟩⟩ := exec_rw_read.mp h
        · dsimp only
          rw [load_reported, load_formatSuper, settle_super]
          exact .inl ⟨rfl, rfl⟩
        · exact .inr ⟨rfl, .inl hK, .inr rfl⟩
      · obtain ⟨rfl, rfl⟩ := h
        refine .inr ⟨rfl, ?_, ?_⟩
        · rcases hl with ⟨hK, -⟩ | ⟨hK, -⟩
          · exact .inr (.inl hK)
          · exact .inr (.inr hK)
        · exact hl.imp (·.2) (·.2)
  · obtain ⟨rfl, rfl⟩ := h
    exact .inr ⟨rfl, .inl hK, .inl rfl⟩

theorem exec_cairnLoadSuper (K : Faults) (d : CairnDisk) (w : Bytes) :
    (cairnLoadSuper w).Exec K d ⟨true, load w (superOf d)⟩ (settle d) := by
  have h := exec_eval K (cairnLoadSuper w) d
  have h0 := exec_eval Faults.none (cairnLoadSuper w) d
  rcases cairnLoadSuper_cases h0 with ⟨h1, h2⟩ | ⟨-, hK, -⟩
  · rwa [h1, h2] at h
  · exact absurd hK Faults.not_possible_none

theorem eval_cairnLoadSuper (d : CairnDisk) (w : Bytes) :
    (cairnLoadSuper w).eval d = (⟨true, load w (superOf d)⟩, settle d) :=
  exec_none.mp (exec_cairnLoadSuper Faults.none d w)

theorem same_of_settled (h : d' = d ∨ d' = settle d) : SameStore d d' := by
  rcases h with rfl | rfl
  · exact .refl d'
  · exact .settle d

theorem cairnLoadSuper_same (h : (cairnLoadSuper w).Exec K d a d') : SameStore d d' := by
  rcases cairnLoadSuper_cases h with ⟨-, rfl⟩ | ⟨-, -, hd⟩
  · exact .settle d
  · exact same_of_settled hd

theorem reads_of_load_failed (hf : formatted d = true)
    (h : (cairnLoadSuper w).Exec K d a d') (hv : a.value = false) : K.reads := by
  obtain ⟨s, d₁, hs, hk⟩ := exec_bind.mp h
  obtain ⟨-, rfl | ⟨hK, -⟩⟩ := exec_rw_read.mp hs
  · have hmagic : startsWith (load w (d superSector)) superMagic = true := by
      rw [startsWith_load (by decide)]
      exact hf
    simp only [if_true, hmagic] at hk
    obtain ⟨rfl, -⟩ := hk
    cases hv
  · exact hK

/-- What follows the load of the superblock runs on the settled disk, or the load fails. -/
theorem exec_withSuper {A : Type} {x : A} {p : Answer Bool → Program Sector A} {g : Answer Bool → A}
    (h : (cairnLoadSuper w >>= fun r => if r.value then p r else pure (g r)).Exec K d x d') :
    (p ⟨true, load w (superOf d)⟩).Exec K (settle d) x d' ∨
      (∃ r, x = g r) ∧ K.Possible ∧ (d' = d ∨ d' = settle d) := by
  obtain ⟨r, d1, hr, h⟩ := exec_bind.mp h
  rcases cairnLoadSuper_cases hr with ⟨rfl, rfl⟩ | ⟨hv, hK, hd⟩
  · rw [if_pos rfl] at h
    exact .inl h
  · rw [if_neg (by simp [hv])] at h
    obtain ⟨rfl, rfl⟩ := h
    exact .inr ⟨⟨r, rfl⟩, hK, hd⟩

end

section
variable {v : ℕ} {b : Bytes}

theorem u32At_load_head (hns : ns < nsMax) :
    u32At (load w (superOf d)) (nsEntryOff ns + nsOffHead) = head d ns := heads_load hns

theorem u32At_load_count (hns : ns < nsMax) :
    u32At (load w (superOf d)) (nsEntryOff ns + nsOffCount) = count d ns := counts_load hns

theorem take_image (g : Bytes → Bytes)
    (hg : ∀ b c : Bytes, (∀ i < sectorSize, b i = c i) → ∀ i < sectorSize, g b i = g c i)
    (s : Sector) : take sectorSize (g (load w s)) = take sectorSize (g (bytes s)) :=
  take_congr fun i hi => hg _ _ (fun _ hj => load_of_lt hj) i hi

def flagged (d : CairnDisk) (ns v : ℕ) : CairnDisk :=
  update (settle d) superSector
    (take sectorSize (putU32 (bytes (superOf d)) (nsEntryOff ns + nsOffRevoked) v))

theorem cairnNsSetRevoked_cases {a : Answer Status} {revoked : Bool} (hns : ns < nsMax)
    (h : (cairnNsSetRevoked w ns revoked).Exec K d a d') :
    a.value = .ok ∧ d' = flagged d ns (if revoked then 1 else 0) ∨
      a.value = .ioFailure ∧ K.Possible ∧ (SameStore d d' ∨
        K.landed ∧ d' = flagged d ns (if revoked then 1 else 0)) := by
  rw [cairnNsSetRevoked, if_neg (by omega)] at h
  rcases exec_withSuper h with h | ⟨⟨r, rfl⟩, hK, hd⟩
  · obtain ⟨s, d2, hs, rfl, rfl⟩ := exec_bind.mp h
    rw [exec_rw_write, take_image (fun b => putU32 b _ _) fun _ _ h => putU32_congr h] at hs
    rcases hs with ⟨rfl, rfl⟩ | ⟨rfl, ⟨hK, rfl⟩ | ⟨hK, rfl⟩⟩
    · exact .inl ⟨rfl, rfl⟩
    · exact .inr ⟨rfl, .inr (.inl hK), .inl (.settle d)⟩
    · exact .inr ⟨rfl, .inr (.inr hK), .inr ⟨hK, rfl⟩⟩
  · exact .inr ⟨rfl, hK, .inl (same_of_settled hd)⟩

theorem superOf_flagged : superOf (flagged d ns v) =
    take sectorSize (putU32 (bytes (superOf d)) (nsEntryOff ns + nsOffRevoked) v) := by
  apply superOf_update
  rw [startsWith_putU32 (by rw [length_superMagic, nsEntryOff]; omega)]
  exact superOf_magic d

theorem settle_update_slot (d : CairnDisk) (slot : ℕ) (b : Sector) :
    settle (update (settle d) (commitFirstSector + slot) b) =
      update (settle d) (commitFirstSector + slot) b := by
  apply settle_of_formatted
  rw [formatted, update_of_ne (slot_ne_super slot).symm, settle_super]
  exact superOf_magic d

theorem superOf_update_slot (d : CairnDisk) (slot : ℕ) (b : Sector) :
    superOf (update (settle d) (commitFirstSector + slot) b) = superOf d := by
  refine superOf_of_magic ?_ (superOf_magic d)
  rw [update_of_ne (slot_ne_super slot).symm, settle_super]

end

section
variable {input : Bytes} {len sender : ℕ} {intent derived : UInt32} {revClass : UInt8}

def commitSector (h : CommitHeader) (value : Bytes) (len : ℕ) : Sector :=
  take sectorSize (buildCommit (fun _ => 0) h value len)

theorem take_buildCommit (w : Bytes) (h : CommitHeader) (value : Bytes) (len : ℕ) :
    take sectorSize (buildCommit w h value len) = commitSector h value len := by
  refine take_congr fun i hi => ?_
  have hz : ∀ j < sectorSize, zeroFill w sectorSize j = zeroFill (fun _ => 0) sectorSize j := by
    intro j hj
    rw [zeroFill_of_lt hj, zeroFill_of_lt hj]
  simp only [buildCommit, copy, encode_congr h _ hz i hi]

theorem commitSector_of_lt {i : ℕ} (hi : i < valueOff) :
    bytes (commitSector h value len) i = h.encode (zeroFill (fun _ => 0) sectorSize) i := by
  have hs : i < sectorSize := Nat.lt_of_lt_of_le hi (by decide)
  rw [commitSector, bytes_take hs, buildCommit, copy_of_outside (.inl hi)]

theorem isCommit_commitSector : isCommit (bytes (commitSector h value len)) = true := by
  rw [isCommit_congr fun i hi => commitSector_of_lt (Nat.lt_of_lt_of_le hi (by decide))]
  exact isCommit_encode h _

theorem header_commitSector :
    header (bytes (commitSector h value len)) = header (h.encode fun _ => 0) := by
  rw [header_congr fun i hi => commitSector_of_lt (Nat.lt_of_lt_of_le hi (by decide)),
    header_encode, header_encode]

def newCommit (d : CairnDisk) (input : Bytes) (ns len sender : ℕ) (intent derived : UInt32)
    (revClass : UInt8) : Sector :=
  let len := min len (valueMax - 1)
  commitSector (commitHeader (next d) (head d ns) ns (count d ns) len sender intent derived
    revClass input) input len

def committed (d : CairnDisk) (input : Bytes) (ns len sender : ℕ) (intent derived : UInt32)
    (revClass : UInt8) : CairnDisk :=
  update
    (update (settle d) (commitFirstSector + next d)
      (newCommit d input ns len sender intent derived revClass))
    superSector (take sectorSize (advanceSuper (bytes (superOf d)) ns (next d) (count d ns)))

theorem advanceSuper_congr {next count : ℕ} (b c : Bytes) (h : ∀ i < sectorSize, b i = c i) :
    ∀ i < sectorSize, advanceSuper b ns next count i = advanceSuper c ns next count i :=
  putU32_congr (putU32_congr (putU32_congr h))

theorem cairnCommit_cases {a : Answer Status} (hns : ns < nsMax)
    (h : (cairnCommit input w ns len sender intent derived revClass).Exec K d a d') :
    next d < commitSlots ∧ a.value = .ok ∧
        d' = committed d input ns len sender intent derived revClass ∨
      a.value = .ioFailure ∧ (K.Possible ∨ commitSlots ≤ next d) ∧ SameStore d d' ∨
      a.value = .ioFailure ∧ K.landed ∧ next d < commitSlots ∧
        d' = committed d input ns len sender intent derived revClass := by
  rcases exec_withSuper h with h | ⟨⟨r, rfl⟩, hK, hd⟩
  · simp only [next_load, u32At_load_head hns, u32At_load_count hns, slotAvailable,
      decide_eq_true_eq] at h
    by_cases hn : next d < commitSlots
    · rw [if_pos hn] at h
      obtain ⟨s, d2, hs, h⟩ := exec_bind.mp h
      rw [exec_rw_write, take_buildCommit] at hs
      have hslot : ∀ b, SameStore d (update (settle d) (commitFirstSector + next d) b) :=
        fun b => (SameStore.settle d).trans
          (SameStore.update_slot _ (SameStore.settle d).next_eq.le b)
      rcases hs with ⟨rfl, rfl⟩ | ⟨rfl, hl⟩
      · simp only [if_true] at h
        rcases exec_withSuper h with h | ⟨⟨t, rfl⟩, hK, hd⟩
        · simp only [superOf_update_slot, settle_update_slot] at h
          obtain ⟨u, d4, hu, rfl, rfl⟩ := exec_bind.mp h
          rw [exec_rw_write, take_image (fun b => advanceSuper b _ _ _) advanceSuper_congr] at hu
          rcases hu with ⟨rfl, rfl⟩ | ⟨rfl, ⟨hK, rfl⟩ | ⟨hK, rfl⟩⟩
          · exact .inl ⟨hn, rfl, rfl⟩
          · exact .inr (.inl ⟨rfl, .inl (.inr (.inl hK)), hslot _⟩)
          · exact .inr (.inr ⟨rfl, hK, hn, rfl⟩)
        · exact .inr (.inl ⟨rfl, .inl hK, (hslot _).trans (same_of_settled hd)⟩)
      · obtain ⟨rfl, rfl⟩ := h
        rcases hl with ⟨hK, rfl⟩ | ⟨hK, rfl⟩
        · exact .inr (.inl ⟨rfl, .inl (.inr (.inl hK)), .settle d⟩)
        · exact .inr (.inl ⟨rfl, .inl (.inr (.inr hK)), hslot _⟩)
    · rw [if_neg hn] at h
      obtain ⟨rfl, rfl⟩ := h
      exact .inr (.inl ⟨rfl, .inr (by omega), .settle d⟩)
  · exact .inr (.inl ⟨rfl, .inl hK, same_of_settled hd⟩)

end

section
variable {steps cur walked : ℕ}

@[simp] theorem record_settle (d : CairnDisk) (slot : ℕ) : record (settle d) slot = record d slot := by
  rw [record, record, settle_of_ne d (slot_ne_super slot)]

def walkBack (rec : ℕ → Bytes) : ℕ → ℕ → ℕ → Option (ℕ × ℕ)
  | 0, cur, walked => some (cur, walked)
  | steps + 1, cur, walked =>
    if cur = noSlot then some (cur, walked)
    else if isCommit (rec cur) then walkBack rec steps (header (rec cur)).parent (walked + 1)
    else none

theorem rollbackWalk_cases {a : Answer (Option (ℕ × ℕ))}
    (h : (rollbackWalk steps cur walked w).Exec K d a d') :
    d' = d ∧ (a.value = walkBack (record d) steps cur walked ∨ a.value = none ∧ K.reads) := by
  induction steps generalizing cur walked w with
  | zero =>
    obtain ⟨rfl, rfl⟩ := h
    exact ⟨rfl, .inl rfl⟩
  | succ steps ih =>
    rw [rollbackWalk] at h
    rw [walkBack]
    by_cases hc : cur = noSlot
    · rw [if_pos hc] at h ⊢
      obtain ⟨rfl, rfl⟩ := h
      exact ⟨rfl, .inl rfl⟩
    · rw [if_neg hc] at h ⊢
      obtain ⟨r, d1, hr, h⟩ := exec_bind.mp h
      obtain ⟨hd, ha⟩ := exec_rw_read.mp hr
      subst d1
      rcases ha with rfl | ⟨hK, rfl⟩
      · simp only [Bool.true_and, isCommit_window, parent_window] at h
        by_cases hm : isCommit (record d cur) = true
        · rw [if_pos hm] at h ⊢
          exact ih h
        · rw [if_neg hm] at h ⊢
          obtain ⟨rfl, rfl⟩ := h
          exact ⟨rfl, .inl rfl⟩
      · obtain ⟨rfl, rfl⟩ := h
        exact ⟨rfl, .inr ⟨rfl, hK⟩⟩

variable (steps walked) in
theorem Chain.walkBack_eq {good : ℕ → ℕ → Bytes → Prop} {rec : ℕ → Bytes} {l : List ℕ}
    (h : Chain commitLinks good rec cur l) (hv : ∀ s k r, good s k r → isCommit r = true)
    (hl : ∀ s ∈ l, s < noSlot) :
    walkBack rec steps cur walked =
      some ((l.drop steps).headD noSlot, walked + (l.length - (l.drop steps).length)) := by
  induction h generalizing steps walked with
  | nil => cases steps <;> simp [walkBack, commitLinks]
  | @cons slot rest hg hd hc ih =>
    have hs : slot ≠ noSlot := Nat.ne_of_lt (hl slot List.mem_cons_self)
    cases steps with
    | zero => simp [walkBack]
    | succ steps =>
      have := ih steps (walked + 1)
        fun s h => hl s (List.mem_cons_of_mem slot h)
      rw [walkBack, if_neg hs, if_pos (hv _ _ _ hg)]
      rw [show (header (rec slot)).parent = commitLinks.parent (rec slot) from rfl, this]
      simp only [List.drop_succ_cons, List.length_cons, List.length_drop]
      congr 2
      omega

def retreated (d : CairnDisk) (ns cur walked : ℕ) : CairnDisk :=
  update (settle d) superSector
    (take sectorSize (retreatSuper (bytes (superOf d)) ns cur (count d ns) walked))

theorem retreatSuper_congr {count : ℕ} (b c : Bytes) (h : ∀ i < sectorSize, b i = c i) :
    ∀ i < sectorSize, retreatSuper b ns cur count walked i = retreatSuper c ns cur count walked i :=
  putU32_congr (putU32_congr h)

theorem cairnRollback_cases {a : Answer Status} (hns : ns < nsMax)
    (h : (cairnRollback w ns steps).Exec K d a d') :
    a.value = .unavailable ∧ head d ns = noSlot ∧ SameStore d d' ∨
      (∃ cur walked, head d ns ≠ noSlot ∧
        walkBack (record d) steps (head d ns) 0 = some (cur, walked) ∧
        (a.value = .ok ∨ a.value = .ioFailure ∧ K.landed) ∧ d' = retreated d ns cur walked) ∨
      a.value = .ioFailure ∧
        (K.Possible ∨ walkBack (record d) steps (head d ns) 0 = none) ∧ SameStore d d' := by
  rcases exec_withSuper h with h | ⟨⟨r, rfl⟩, hK, hd⟩
  · simp only [u32At_load_head hns, u32At_load_count hns] at h
    by_cases hh : head d ns = noSlot
    · rw [if_pos hh] at h
      obtain ⟨rfl, rfl⟩ := h
      exact .inl ⟨rfl, hh, .settle d⟩
    · rw [if_neg hh] at h
      obtain ⟨s, d2, hs, h⟩ := exec_bind.mp h
      obtain ⟨hd, hw⟩ := rollbackWalk_cases hs
      subst d2
      simp only [show record (settle d) = record d from funext (record_settle d)] at hw
      cases hv : s.value with
      | none =>
        rw [hv] at h hw
        obtain ⟨rfl, rfl⟩ := h
        refine .inr (.inr ⟨rfl, ?_, .settle d⟩)
        rcases hw with hw | ⟨-, hK⟩
        · exact .inr hw.symm
        · exact .inl (.inl hK)
      | some end_ =>
        obtain ⟨cur, walked⟩ := end_
        rw [hv] at h hw
        have hw' : walkBack (record d) steps (head d ns) 0 = some (cur, walked) := by
          simpa [eq_comm] using hw
        rcases exec_withSuper h with h | ⟨⟨t, rfl⟩, hK, hd⟩
        · simp only [superOf_settle, settle_settle] at h
          obtain ⟨u, d4, hu, rfl, rfl⟩ := exec_bind.mp h
          rw [exec_rw_write, take_image (fun b => retreatSuper b _ _ _ _) retreatSuper_congr] at hu
          rcases hu with ⟨rfl, rfl⟩ | ⟨rfl, ⟨hK, rfl⟩ | ⟨hK, rfl⟩⟩
          · exact .inr (.inl ⟨cur, walked, hh, hw', .inl rfl, rfl⟩)
          · exact .inr (.inr ⟨rfl, .inl (.inr (.inl hK)), .settle d⟩)
          · exact .inr (.inl ⟨cur, walked, hh, hw', .inr ⟨rfl, hK⟩, rfl⟩)
        · exact .inr (.inr ⟨rfl, .inl hK, (SameStore.settle d).trans (same_of_settled hd)⟩)
  · exact .inr (.inr ⟨rfl, .inl hK, same_of_settled hd⟩)

end

section
variable {m v cur walked : ℕ}

theorem update_super_slot (d : CairnDisk) (s : Sector) (slot : ℕ) :
    update d superSector s (commitFirstSector + slot) = d (commitFirstSector + slot) :=
  update_of_ne (slot_ne_super slot) _ _

theorem flagged_slot (d : CairnDisk) (ns v slot : ℕ) :
    flagged d ns v (commitFirstSector + slot) = d (commitFirstSector + slot) := by
  rw [flagged, update_super_slot, settle_of_ne d (slot_ne_super slot)]

theorem next_flagged : next (flagged d ns v) = next d := by
  rw [next_of_super superOf_flagged, u32At_putU32_of_disjoint]
  · rfl
  · simp only [nsEntryOff, nsOffRevoked, offNext]
    omega

theorem head_flagged (hm : m < nsMax) : head (flagged d ns v) m = head d m := by
  rw [head_of_super superOf_flagged hm, heads, u32At_putU32_of_disjoint]
  · rfl
  · simp only [nsEntryOff, nsOffRevoked, nsOffHead]
    omega

theorem count_flagged (hm : m < nsMax) : count (flagged d ns v) m = count d m := by
  rw [count_of_super superOf_flagged hm, counts, u32At_putU32_of_disjoint]
  · rfl
  · simp only [nsEntryOff, nsOffRevoked, nsOffCount]
    omega

theorem revoked_flagged (hm : m < nsMax) :
    revoked (flagged d ns v) m = if m = ns then v % 2 ^ 32 else revoked d m := by
  rw [revoked_of_super superOf_flagged hm]
  split
  · next h => rw [h, u32At_putU32_self]
  · rw [u32At_putU32_of_disjoint]
    · rfl
    · simp only [nsEntryOff, nsOffRevoked]
      omega

theorem flagged_extends : Extends d (flagged d ns v) :=
  ⟨next_flagged.ge, fun slot _ => flagged_slot d ns v slot⟩

theorem flagged_refMove (hi : StoreInv d) (hm : m < nsMax) :
    RefMove d (flagged d ns v) m (liveChain d m) :=
  RefMove.still hi hm (head_flagged hm) (count_flagged hm)

theorem superOf_retreated : superOf (retreated d ns cur walked) =
    take sectorSize (retreatSuper (bytes (superOf d)) ns cur (count d ns) walked) := by
  apply superOf_update
  rw [retreatSuper, startsWith_putU32, startsWith_putU32]
  · exact superOf_magic d
  all_goals
    rw [length_superMagic, nsEntryOff]
    omega

theorem retreated_slot (d : CairnDisk) (ns cur walked slot : ℕ) :
    retreated d ns cur walked (commitFirstSector + slot) = d (commitFirstSector + slot) := by
  rw [retreated, update_super_slot, settle_of_ne d (slot_ne_super slot)]

theorem next_retreated : next (retreated d ns cur walked) = next d := by
  rw [next_of_super superOf_retreated, retreatSuper, u32At_putU32_of_disjoint,
    u32At_putU32_of_disjoint]
  · rfl
  all_goals
    simp only [nsEntryOff, nsOffHead, nsOffCount, offNext]
    omega

theorem head_retreated (hm : m < nsMax) : head (retreated d ns cur walked) m =
    if m = ns then cur % 2 ^ 32 else head d m := by
  rw [head_of_super superOf_retreated hm, heads, retreatSuper, u32At_putU32_of_disjoint]
  · split
    · next h => rw [h, u32At_putU32_self]
    · rw [u32At_putU32_of_disjoint]
      · rfl
      · simp only [nsEntryOff, nsOffHead]
        omega
  · simp only [nsEntryOff, nsOffHead, nsOffCount]
    omega

theorem count_retreated (hm : m < nsMax) : count (retreated d ns cur walked) m =
    if m = ns then (count d ns - walked) % 2 ^ 32 else count d m := by
  rw [count_of_super superOf_retreated hm, counts, retreatSuper]
  split
  · next h => rw [h, u32At_putU32_self]
  · rw [u32At_putU32_of_disjoint, u32At_putU32_of_disjoint]
    · rfl
    all_goals
      simp only [nsEntryOff, nsOffHead, nsOffCount]
      omega

theorem revoked_retreated (hm : m < nsMax) :
    revoked (retreated d ns cur walked) m = revoked d m := by
  rw [revoked_of_super superOf_retreated hm, retreatSuper, u32At_putU32_of_disjoint,
    u32At_putU32_of_disjoint]
  · rfl
  all_goals
    simp only [nsEntryOff, nsOffHead, nsOffCount, nsOffRevoked]
    omega

theorem retreated_extends : Extends d (retreated d ns cur walked) :=
  ⟨next_retreated.ge, fun slot _ => retreated_slot d ns cur walked slot⟩

section
variable (hi : StoreInv d)
include hi

theorem StoreInv.lt_noSlot (hns : ns < nsMax) : ∀ slot ∈ liveChain d ns, slot < noSlot :=
  fun slot hs => (hi.below ns hns slot hs).trans_le (hi.next_le.trans (by decide))

theorem StoreInv.headD_lt (hns : ns < nsMax) (k : ℕ) :
    ((liveChain d ns).drop k).headD noSlot < 2 ^ 32 := by
  cases h : (liveChain d ns).drop k with
  | nil => decide
  | cons slot rest =>
    have hs : slot ∈ liveChain d ns :=
      List.mem_of_mem_drop (h ▸ List.mem_cons_self : slot ∈ (liveChain d ns).drop k)
    exact (StoreInv.lt_noSlot hi hns slot hs).trans (by decide)

theorem StoreInv.length_le (hns : ns < nsMax) : (liveChain d ns).length ≤ commitSlots :=
  ((hi.chain ns hns).length_le (hi.below ns hns)).trans hi.next_le

theorem StoreInv.walkBack_eq (hns : ns < nsMax) (steps : ℕ) :
    walkBack (record d) steps (head d ns) 0 = some (((liveChain d ns).drop steps).headD noSlot,
      (liveChain d ns).length - ((liveChain d ns).drop steps).length) := by
  have h := Chain.walkBack_eq steps 0 (hi.chain ns hns)
    (fun _ _ _ hg => hg.commit) (StoreInv.lt_noSlot hi hns)
  rwa [Nat.zero_add] at h

theorem retreated_refMove (hns : ns < nsMax) {steps : ℕ}
    (hw : walkBack (record d) steps (head d ns) 0 = some (cur, walked)) (hm : m < nsMax) :
    RefMove d (retreated d ns cur walked) m
      ((liveChain d m).drop (if m = ns then steps else 0)) := by
  rw [StoreInv.walkBack_eq hi hns steps, Option.some.injEq, Prod.mk.injEq] at hw
  obtain ⟨hcur, hwalked⟩ := hw
  have hlen : (liveChain d ns).length ≤ 255 := StoreInv.length_le hi hns
  refine RefMove.back _ ?_ ?_
  · rw [head_retreated hm]
    split
    · next h =>
        rw [h, ← hcur]
        exact Nat.mod_eq_of_lt (StoreInv.headD_lt hi hns steps)
    · rw [List.drop_zero, hi.head_eq hm]
  · rw [count_retreated hm]
    split
    · next h =>
        rw [h, hi.count_eq ns hns, ← hwalked]
        simp only [List.length_drop]
        omega
    · rw [List.drop_zero, hi.count_eq m hm]

end

end

section
variable {m : ℕ} {input : Bytes} {len sender : ℕ} {intent derived : UInt32} {revClass : UInt8}

theorem superOf_committed : superOf (committed d input ns len sender intent derived revClass) =
    take sectorSize (advanceSuper (bytes (superOf d)) ns (next d) (count d ns)) := by
  apply superOf_update
  rw [advanceSuper, startsWith_putU32, startsWith_putU32, startsWith_putU32]
  · exact superOf_magic d
  all_goals
    simp only [length_superMagic, nsEntryOff, offNext]
    omega

theorem committed_slot (slot : ℕ) :
    committed d input ns len sender intent derived revClass (commitFirstSector + slot) =
      if slot = next d then newCommit d input ns len sender intent derived revClass
      else d (commitFirstSector + slot) := by
  rw [committed, update_super_slot]
  split
  · next h => rw [h, update_self]
  · next h =>
      rw [update_of_ne (by omega), settle_of_ne d (slot_ne_super slot)]

theorem next_committed (hn : next d < commitSlots) :
    next (committed d input ns len sender intent derived revClass) = next d + 1 := by
  have hn' : next d < 255 := hn
  rw [next_of_super superOf_committed, advanceSuper, u32At_putU32_of_disjoint,
    u32At_putU32_of_disjoint, u32At_putU32_self]
  · omega
  all_goals
    simp only [nsEntryOff, nsOffHead, nsOffCount, offNext]
    omega

theorem head_committed (hn : next d < commitSlots) (hm : m < nsMax) :
    head (committed d input ns len sender intent derived revClass) m =
      if m = ns then next d else head d m := by
  have hn' : next d < 255 := hn
  rw [head_of_super superOf_committed hm, heads, advanceSuper, u32At_putU32_of_disjoint]
  · split
    · next h =>
        rw [h, u32At_putU32_self]
        omega
    · rw [u32At_putU32_of_disjoint, u32At_putU32_of_disjoint]
      · rfl
      all_goals
        simp only [nsEntryOff, nsOffHead, offNext]
        omega
  · simp only [nsEntryOff, nsOffHead, nsOffCount]
    omega

theorem count_committed (hm : m < nsMax) :
    count (committed d input ns len sender intent derived revClass) m =
      if m = ns then (count d ns + 1) % 2 ^ 32 else count d m := by
  rw [count_of_super superOf_committed hm, counts, advanceSuper]
  split
  · next h => rw [h, u32At_putU32_self]
  · rw [u32At_putU32_of_disjoint, u32At_putU32_of_disjoint, u32At_putU32_of_disjoint]
    · rfl
    all_goals
      simp only [nsEntryOff, nsOffHead, nsOffCount, offNext]
      omega

theorem revoked_committed (hm : m < nsMax) :
    revoked (committed d input ns len sender intent derived revClass) m = revoked d m := by
  rw [revoked_of_super superOf_committed hm, advanceSuper, u32At_putU32_of_disjoint,
    u32At_putU32_of_disjoint, u32At_putU32_of_disjoint]
  · rfl
  all_goals
    simp only [nsEntryOff, nsOffHead, nsOffCount, nsOffRevoked, offNext]
    omega

theorem committed_extends (hn : next d < commitSlots) :
    Extends d (committed d input ns len sender intent derived revClass) := by
  refine ⟨by rw [next_committed hn]; omega, fun slot hs => ?_⟩
  rw [committed_slot, if_neg (by omega)]

theorem committed_refMove (hi : StoreInv d) (hn : next d < commitSlots) (hns : ns < nsMax)
    (hm : m < nsMax) :
    RefMove d (committed d input ns len sender intent derived revClass) m
      (if m = ns then next d :: liveChain d m else liveChain d m) := by
  have hn' : next d < 255 := hn
  have hlen : (liveChain d ns).length ≤ 255 := StoreInv.length_le hi hns
  have hns' : ns < 8 := hns
  by_cases h : m = ns
  · subst h
    rw [if_pos rfl]
    have hrec : record (committed d input m len sender intent derived revClass) (next d) =
        bytes (newCommit d input m len sender intent derived revClass) := by
      rw [record, committed_slot, if_pos rfl]
    have hhead := hi.head_eq hm
    have hlt := StoreInv.headD_lt hi hm 0
    rw [List.drop_zero] at hlt
    refine RefMove.push 0 (next d) le_rfl ?_ ?_ ?_ ?_ ?_
    · rw [next_committed hn]
      omega
    · rw [head_committed hn hm, if_pos rfl]
    · rw [count_committed hm, if_pos rfl, hi.count_eq m hm, List.drop_zero]
      omega
    · rw [hrec, newCommit]
      refine ⟨isCommit_commitSector, ?_, ?_, ?_⟩
      all_goals
        rw [header_commitSector, header_encode]
        simp only [commitHeader, hi.count_eq m hm, List.drop_zero]
        omega
    · rw [hrec, newCommit, header_commitSector, header_encode, List.drop_zero]
      simp only [commitHeader]
      rw [hhead]
      exact Nat.mod_eq_of_lt hlt
  · rw [if_neg h]
    refine RefMove.still hi hm ?_ ?_
    · rw [head_committed hn hm, if_neg h]
    · rw [count_committed hm, if_neg h]

end

end Dezh.CairnOutcomes

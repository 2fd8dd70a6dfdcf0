import Dezh.MissionScan
import Dezh.MissionUndo

/-!
# A whole mission rollback

The rollback visits the eight namespaces in order and publishes all moved
references with one superblock write. A cut is the read failure that ends the
walk over a namespace early; an execution without read failures has none. For
given cuts the staged result is a function of the store, and publishing it moves
every reference back along its chain and then at most one record forward.
-/
namespace Dezh.MissionPublish
open Function BlockProgram Program ByteLayout CairnFormat CairnService SfarService CairnStore
open CairnOutcomes MissionScan MissionUndo

variable {slot free : ℕ} {action : List UInt8}

section
variable {s : Staging} {b c : Bytes} {m n : ℕ}

/-- Does the rollback move the reference of `ns`? -/
def moved (s : Staging) (ns : ℕ) : Prop := 0 < s.undone ns ∨ 0 < s.appended ns

instance (s : Staging) (ns : ℕ) : Decidable (moved s ns) :=
  inferInstanceAs (Decidable (_ ∨ _))

theorem publishEntry_of_moved (h : moved s m) : publishEntry s b m =
    putU32 (putU32 b (nsEntryOff m + nsOffHead) (s.newHead m)) (nsEntryOff m + nsOffCount)
      (s.count m - s.undone m + s.appended m) := if_pos h

theorem publishEntry_of_not_moved (h : ¬ moved s m) : publishEntry s b m = b := if_neg h

theorem publishEntry_congr (ns : ℕ) (h : ∀ i < n, b i = c i) :
    ∀ i < n, publishEntry s b ns i = publishEntry s c ns i := by
  unfold publishEntry
  split
  · exact putU32_congr (putU32_congr h)
  · exact h

theorem publishSuper_congr (s : Staging) (b c : Bytes) (h : ∀ i < n, b i = c i) :
    ∀ i < n, publishSuper s b i = publishSuper s c i := by
  have key : ∀ l : List ℕ, ∀ b c : Bytes, (∀ i < n, b i = c i) →
      ∀ i < n, l.foldl (publishEntry s) b i = l.foldl (publishEntry s) c i := by
    intro l
    induction l with
    | nil => exact fun _ _ h => h
    | cons ns l ih => exact fun b c h => ih _ _ (publishEntry_congr ns h)
  exact putU32_congr (key _ b c h)

theorem u32At_publishEntry_of_disjoint {o ns : ℕ}
    (h : o + 4 ≤ nsEntryOff ns + nsOffHead ∨ nsEntryOff ns + nsOffCount + 4 ≤ o) :
    u32At (publishEntry s b ns) o = u32At b o := by
  simp only [nsOffHead, nsOffCount] at h
  unfold publishEntry
  split
  · simp only [nsOffHead, nsOffCount]
    rw [u32At_putU32_of_disjoint (by omega), u32At_putU32_of_disjoint (by omega)]
  · rfl

theorem u32At_foldl_publishEntry {o : ℕ}
    (h : ∀ ns < n, o + 4 ≤ nsEntryOff ns + nsOffHead ∨ nsEntryOff ns + nsOffCount + 4 ≤ o) :
    u32At ((List.range n).foldl (publishEntry s) b) o = u32At b o := by
  induction n with
  | zero => rfl
  | succ n ih =>
    rw [List.range_succ, List.foldl_append, List.foldl_cons, List.foldl_nil,
      u32At_publishEntry_of_disjoint (h n (by omega)), ih fun ns hns => h ns (by omega)]

theorem heads_publishEntry_self : heads (publishEntry s b m) m =
    if moved s m then s.newHead m % 2 ^ 32 else heads b m := by
  by_cases h : moved s m
  · rw [publishEntry_of_moved h, if_pos h, heads]
    simp only [nsOffHead, nsOffCount]
    rw [u32At_putU32_of_disjoint (by omega), u32At_putU32_self]
  · rw [publishEntry_of_not_moved h, if_neg h]

theorem counts_publishEntry_self : counts (publishEntry s b m) m =
    if moved s m then (s.count m - s.undone m + s.appended m) % 2 ^ 32 else counts b m := by
  by_cases h : moved s m
  · rw [publishEntry_of_moved h, if_pos h, counts, u32At_putU32_self]
  · rw [publishEntry_of_not_moved h, if_neg h]

theorem heads_publishEntry_of_ne (h : m ≠ n) : heads (publishEntry s b n) m = heads b m := by
  refine u32At_publishEntry_of_disjoint ?_
  simp only [nsEntryOff, nsOffHead, nsOffCount]
  omega

theorem counts_publishEntry_of_ne (h : m ≠ n) : counts (publishEntry s b n) m = counts b m := by
  refine u32At_publishEntry_of_disjoint ?_
  simp only [nsEntryOff, nsOffHead, nsOffCount]
  omega

theorem foldl_publishEntry {field : Bytes → ℕ → ℕ} {value : ℕ}
    (hself : ∀ b, field (publishEntry s b m) m = if moved s m then value else field b m)
    (hne : ∀ b k, m ≠ k → field (publishEntry s b k) m = field b m) :
    field ((List.range n).foldl (publishEntry s) b) m =
      if m < n ∧ moved s m then value else field b m := by
  induction n with
  | zero => simp
  | succ n ih =>
    rw [List.range_succ, List.foldl_append, List.foldl_cons, List.foldl_nil]
    by_cases h : m = n
    · subst h
      rw [hself, ih]
      simp
    · rw [hne _ _ h, ih]
      simp only [show m < n + 1 ↔ m < n by omega]

theorem next_publishSuper : u32At (publishSuper s b) offNext = s.nextFree % 2 ^ 32 :=
  u32At_putU32_self

theorem heads_publishSuper (hm : m < nsMax) : heads (publishSuper s b) m =
    if moved s m then s.newHead m % 2 ^ 32 else heads b m := by
  rw [heads, publishSuper, u32At_putU32_of_disjoint]
  · refine (foldl_publishEntry (fun _ => heads_publishEntry_self)
      fun _ _ => heads_publishEntry_of_ne).trans ?_
    simp only [hm, true_and]
  · simp only [nsEntryOff, nsOffHead, offNext]
    omega

theorem counts_publishSuper (hm : m < nsMax) : counts (publishSuper s b) m =
    if moved s m then (s.count m - s.undone m + s.appended m) % 2 ^ 32 else counts b m := by
  rw [counts, publishSuper, u32At_putU32_of_disjoint]
  · refine (foldl_publishEntry (fun _ => counts_publishEntry_self)
      fun _ _ => counts_publishEntry_of_ne).trans ?_
    simp only [hm, true_and]
  · simp only [nsEntryOff, nsOffCount, offNext]
    omega

theorem revoked_publishSuper :
    u32At (publishSuper s b) (nsEntryOff m + nsOffRevoked) =
      u32At b (nsEntryOff m + nsOffRevoked) := by
  rw [publishSuper, u32At_putU32_of_disjoint, u32At_foldl_publishEntry]
  · intro ns _
    simp only [nsEntryOff, nsOffHead, nsOffCount, nsOffRevoked]
    omega
  · simp only [nsEntryOff, nsOffRevoked, offNext]
    omega

theorem startsWith_publishSuper :
    startsWith (publishSuper s b) superMagic = startsWith b superMagic := by
  have key : ∀ n, startsWith ((List.range n).foldl (publishEntry s) b) superMagic =
      startsWith b superMagic := by
    intro n
    induction n with
    | zero => rfl
    | succ n ih =>
      rw [List.range_succ, List.foldl_append, List.foldl_cons, List.foldl_nil, ← ih,
        publishEntry]
      split
      · rw [startsWith_putU32, startsWith_putU32]
        all_goals
          rw [length_superMagic, nsEntryOff]
          omega
      · rfl
  rw [publishSuper, startsWith_putU32 (by decide), key]

end

section
variable {rec rec' : ℕ → Bytes} {ahd : UInt32} {l : List ℕ}

theorem undoRun_congr (h : ∀ slot ∈ l, rec' slot = rec slot) :
    undoRun rec' ahd l = undoRun rec ahd l := by
  induction l with
  | nil => rfl
  | cons slot l ih =>
    have hl := ih fun s hs => h s (List.mem_cons_of_mem slot hs)
    simp only [undoRun, List.takeWhile_cons, h slot List.mem_cons_self] at hl ⊢
    rw [hl]

theorem standing_congr (h : ∀ slot ∈ l, rec' slot = rec slot) :
    standing rec' ahd l = standing rec ahd l := by
  induction l with
  | nil => rfl
  | cons slot l ih =>
    have hl := ih fun s hs => h s (List.mem_cons_of_mem slot hs)
    simp only [standing, List.dropWhile_cons, h slot List.mem_cons_self] at hl ⊢
    rw [hl]

theorem mem_of_mem_standing (h : slot ∈ standing rec ahd l) : slot ∈ l :=
  (List.dropWhile_suffix _).subset h

theorem verdict_congr (h : ∀ slot ∈ l, rec' slot = rec slot) :
    verdict rec' ahd l = verdict rec ahd l := by
  rw [verdict, verdict, standing_congr h]
  cases hs : standing rec ahd l with
  | nil => rfl
  | cons slot rest =>
    simp only
    rw [h slot (mem_of_mem_standing (hs ▸ List.mem_cons_self))]

theorem drop_undoRun : l.drop (undoRun rec ahd l).length = standing rec ahd l := by
  induction l with
  | nil => rfl
  | cons slot l ih =>
    simp only [undoRun, standing, List.takeWhile_cons, List.dropWhile_cons] at ih ⊢
    split
    · exact ih
    · rfl

variable (rec ahd l) in
theorem length_undoRun_le : (undoRun rec ahd l).length ≤ l.length :=
  (List.takeWhile_sublist _).length_le

theorem retractable_of_standing {rest : List ℕ}
    (h : standing rec ahd l = slot :: rest) : retractable ahd (rec slot) = false := by
  induction l with
  | nil => cases h
  | cons first l ih =>
    rw [standing, List.dropWhile_cons] at h
    split at h
    · exact ih h
    · next hr =>
        obtain ⟨rfl, -⟩ := List.cons_eq_cons.mp h
        exact Bool.eq_false_iff.mpr hr

theorem of_verdict_compensate (h : verdict rec ahd l = .compensate slot action) :
    (∃ rest, standing rec ahd l = slot :: rest) ∧ ofMission ahd (rec slot) = true ∧
      RevClass.ofByte (rec slot offRevclass) = .compensatable ∧
      extractCompensation (rec slot) 96 = some action := by
  rw [verdict] at h
  cases hs : standing rec ahd l with
  | nil => simp [hs] at h
  | cons first rest =>
    simp only [hs, verdictAt] at h
    split at h
    · next hm =>
        split at h
        · next hc =>
            split at h
            · next hx =>
                simp only [Verdict.compensate.injEq] at h
                obtain ⟨rfl, rfl⟩ := h
                exact ⟨⟨rest, rfl⟩, hm, hc, hx⟩
            · cases h
        · cases h
        · cases h
    · cases h

end

section
variable (store : CairnDisk) (ahd : UInt32) (sender : ℕ) (cut : ℕ → Option ℕ)

def undoNs (p : Staging × CairnDisk) (ns : ℕ) : Staging × CairnDisk :=
  let chain := liveChain store ns
  match cut ns with
  | some j => (retreat p.1 ns j ((chain.drop j).headD noSlot), p.2)
  | none =>
    let s := retreat p.1 ns (undoRun (record store) ahd chain).length
      ((standing (record store) ahd chain).headD noSlot)
    let v := verdict (record store) ahd chain
    (conclude s ns v, concludeDisk p.2 ahd sender ns s v)

def undoFrom (ns n : ℕ) (p : Staging × CairnDisk) : Staging × CairnDisk :=
  (List.range' ns n).foldl (undoNs store ahd sender cut) p

/-- Cuts come from read failures and fall inside the retractable run. -/
def Cuts (K : Faults) : Prop :=
  ∀ ns j, cut ns = some j →
    K.reads ∧ j ≤ (undoRun (record store) ahd (liveChain store ns)).length

variable {store ahd sender cut} {cut' : ℕ → Option ℕ}

theorem undoFrom_congr (ns n : ℕ) (h : ∀ m, ns ≤ m → cut' m = cut m) (p : Staging × CairnDisk) :
    undoFrom store ahd sender cut' ns n p = undoFrom store ahd sender cut ns n p := by
  induction n generalizing ns p with
  | zero => rfl
  | succ n ih =>
    have hn : undoNs store ahd sender cut' p ns = undoNs store ahd sender cut p ns := by
      simp only [undoNs, h ns le_rfl]
    have := ih (ns + 1) (fun m hm => h m (by omega)) (undoNs store ahd sender cut p ns)
    simpa only [undoFrom, List.range'_succ, List.foldl_cons, hn] using this

theorem concludeDisk_same {d : CairnDisk} {ns : ℕ} {s : Staging} {v : Verdict}
    (hd : SameStore store d) (hfree : next store ≤ s.nextFree) :
    SameStore store (concludeDisk d ahd sender ns s v) := by
  cases v with
  | compensate slot action =>
    simp only [concludeDisk]
    split
    · exact hd.trans (.update_slot d (hd.next_eq ▸ hfree) _)
    · exact hd
  | _ => exact hd

theorem nextFree_le_conclude {ns : ℕ} {s : Staging} {v : Verdict} :
    s.nextFree ≤ (conclude s ns v).nextFree := by
  cases v with
  | compensate slot action =>
    simp only [conclude]
    split
    · exact Nat.le_succ _
    · exact le_rfl
  | _ => exact le_rfl

theorem rollbackFrom_cases {K : Faults} {d d' : CairnDisk} {fuel n ns : ℕ} {s : Staging} {w : Bytes}
    {a : Walk} (hi : StoreInv store) (hd : SameStore store d) (hfree : next store ≤ s.nextFree)
    (hn : ns + n ≤ nsMax) (hs : ∀ m, ns ≤ m → m < nsMax → s.newHead m = head store m)
    (h : (rollbackFrom fuel ahd sender n ns s w).Exec K d a d') :
    a = .running ∧ fuel ≤ commitSlots ∧ SameStore store d' ∨
      (∃ w', a = .aborted w') ∧ (K.lost ∨ K.landed) ∧ SameStore store d' ∨
      ∃ cut w', Cuts store ahd cut K ∧
        a = .finished (undoFrom store ahd sender cut ns n (s, d)).1 w' ∧
        d' = (undoFrom store ahd sender cut ns n (s, d)).2 := by
  induction n generalizing ns s w d with
  | zero =>
    obtain ⟨rfl, rfl⟩ := h
    exact .inr (.inr ⟨fun _ => none, w, fun _ _ hj => (nomatch hj), rfl, rfl⟩)
  | succ n ih =>
    have hns : ns < nsMax := by omega
    have hrec : ∀ slot ∈ liveChain store ns, record d slot = record store slot :=
      fun slot hm => hd.record_eq (hi.below ns hns slot hm)
    obtain ⟨r, d1, hr, hk⟩ := exec_bind.mp h
    rw [hs ns le_rfl hns] at hr
    have hchain := (hi.chain ns hns).congr hrec
    have hcases := rollbackChain_cases hchain (fun _ _ _ hg => hg.commit)
      (StoreInv.lt_noSlot hi hns) (hs ns le_rfl hns) hr
    rw [undoRun_congr hrec, standing_congr hrec, verdict_congr hrec] at hcases
    have key : ∀ (c : Option ℕ) (s1 : Staging) (w1 : Bytes),
        (∀ j, c = some j → K.reads ∧
          j ≤ (undoRun (record store) ahd (liveChain store ns)).length) →
        undoNs store ahd sender (fun _ => c) (s, d) ns = (s1, d1) →
        SameStore store d1 → next store ≤ s1.nextFree →
        (∀ m, ns + 1 ≤ m → m < nsMax → s1.newHead m = head store m) →
        (rollbackFrom fuel ahd sender n (ns + 1) s1 w1).Exec K d1 a d' →
        a = .running ∧ fuel ≤ commitSlots ∧ SameStore store d' ∨
          (∃ w', a = .aborted w') ∧ (K.lost ∨ K.landed) ∧ SameStore store d' ∨
          ∃ cut w', Cuts store ahd cut K ∧
            a = .finished (undoFrom store ahd sender cut ns (n + 1) (s, d)).1 w' ∧
            d' = (undoFrom store ahd sender cut ns (n + 1) (s, d)).2 := by
      intro c s1 w1 hc hu hd1 hf1 hs1 h
      rcases ih hd1 hf1 (by omega) hs1 h with h | h | ⟨cut, w', hcut, rfl, rfl⟩
      · exact .inl h
      · exact .inr (.inl h)
      · have hstep : undoFrom store ahd sender (update cut ns c) ns (n + 1) (s, d) =
            undoFrom store ahd sender cut (ns + 1) n (s1, d1) := by
          have hone : undoNs store ahd sender (update cut ns c) (s, d) ns = (s1, d1) := by
            rw [← hu]
            simp only [undoNs, update_self]
          have hrest : undoFrom store ahd sender (update cut ns c) (ns + 1) n (s1, d1) =
              undoFrom store ahd sender cut (ns + 1) n (s1, d1) :=
            undoFrom_congr _ _ (fun m hm => update_of_ne (show m ≠ ns by omega) _ _) _
          rw [← hrest]
          simp only [undoFrom, List.range'_succ, List.foldl_cons, hone]
        refine .inr (.inr ⟨update cut ns c, w', ?_, ?_, ?_⟩)
        · intro m j hj
          by_cases hm : m = ns
          · subst hm
            rw [update_self] at hj
            exact hc j hj
          · rw [update_of_ne hm] at hj
            exact hcut m j hj
        · rw [hstep]
        · rw [hstep]
    rcases hcases with ⟨rfl, hf, rfl⟩ | ⟨hK, j, hj, ⟨w1, rfl⟩, rfl⟩ | hcon
    · obtain ⟨rfl, rfl⟩ := hk
      exact .inl ⟨rfl, hf.trans (StoreInv.length_le hi hns), hd⟩
    · refine key (some j) _ w1 ?_ rfl hd hfree ?_ hk
      · intro j' hj'
        cases hj'
        exact ⟨hK, hj⟩
      · intro m hm hm'
        rw [← hs m (by omega) hm']
        exact update_of_ne (by omega) _ _
    · rcases hcon with ⟨⟨w1, rfl⟩, rfl⟩ | ⟨⟨w1, rfl⟩, -, -, hl⟩
      · refine key none _ w1 (fun _ hj => (nomatch hj)) rfl ?_ ?_ ?_ hk
        · exact concludeDisk_same hd hfree
        · refine le_trans ?_ nextFree_le_conclude
          exact hfree
        · intro m hm hm'
          rw [← hs m (by omega) hm', newHead_conclude (by omega)]
          exact update_of_ne (by omega) _ _
      · obtain ⟨rfl, rfl⟩ := hk
        refine .inr (.inl ⟨⟨w1, rfl⟩, ?_, ?_⟩)
        · exact hl.imp (·.1) (·.1)
        · rcases hl with ⟨-, rfl⟩ | ⟨-, rfl⟩
          · exact hd
          · exact concludeDisk_same hd hfree

end

section
variable {s : Staging} {ns m : ℕ} {v : Verdict}

theorem count_conclude : (conclude s ns v).count = s.count := by
  cases v with
  | compensate slot action =>
    simp only [conclude]
    split <;> rfl
  | _ => rfl

theorem undone_conclude : (conclude s ns v).undone = s.undone := by
  cases v with
  | compensate slot action =>
    simp only [conclude]
    split <;> rfl
  | _ => rfl

theorem appended_conclude_of_ne (h : m ≠ ns) : (conclude s ns v).appended m = s.appended m := by
  cases v with
  | compensate slot action =>
    simp only [conclude]
    split
    · exact update_of_ne h _ _
    · rfl
  | _ => rfl

variable (s ns v) in
theorem conclude_cases (d : CairnDisk) (ahd : UInt32) (sender : ℕ) :
    (∃ slot action, v = .compensate slot action ∧ s.nextFree < commitSlots ∧
      conclude s ns v = s.compensate ns slot action ∧
      concludeDisk d ahd sender ns s v = update d (commitFirstSector + s.nextFree)
        (compensationSector ahd sender ns slot action (header (record d slot)).derived s.nextFree
          (s.generation ns))) ∨
    (conclude s ns v).newHead = s.newHead ∧ (conclude s ns v).appended = s.appended ∧
      (conclude s ns v).nextFree = s.nextFree ∧ concludeDisk d ahd sender ns s v = d := by
  cases v with
  | compensate slot action =>
    by_cases h : slotAvailable s.nextFree = true
    · refine .inl ⟨slot, action, rfl, of_decide_eq_true h, ?_, ?_⟩
      · simp only [conclude, h, if_true]
      · simp only [concludeDisk, h, if_true]
    · refine .inr ?_
      simp only [conclude, concludeDisk, h]
      exact ⟨rfl, rfl, rfl, rfl⟩
  | _ => exact .inr ⟨rfl, rfl, rfl, rfl⟩

end

section
variable (store : CairnDisk) (ahd : UInt32) (sender : ℕ)

/-- How the rollback has left one namespace. -/
inductive NsDone (p : Staging × CairnDisk) (ns : ℕ) : Prop
  | back (k : ℕ) :
      k ≤ (undoRun (record store) ahd (liveChain store ns)).length →
      p.1.newHead ns = ((liveChain store ns).drop k).headD noSlot →
      p.1.undone ns = k → p.1.appended ns = 0 → NsDone p ns
  | push (slot : ℕ) (action : List UInt8) (free : ℕ) :
      verdict (record store) ahd (liveChain store ns) = .compensate slot action →
      next store ≤ free → free < p.1.nextFree → p.1.newHead ns = free →
      p.1.undone ns = (undoRun (record store) ahd (liveChain store ns)).length →
      p.1.appended ns = 1 →
      p.2 (commitFirstSector + free) = compensationSector ahd sender ns slot action
        (header (record store slot)).derived free
        (count store ns - (undoRun (record store) ahd (liveChain store ns)).length + 1) →
      NsDone p ns

/-- The staged state once the namespaces below `n` have been visited. -/
structure Staged (n : ℕ) (p : Staging × CairnDisk) : Prop where
  count_eq : ∀ m < nsMax, p.1.count m = count store m
  later : ∀ m, n ≤ m → m < nsMax →
    p.1.newHead m = head store m ∧ p.1.undone m = 0 ∧ p.1.appended m = 0
  free_le : next store ≤ p.1.nextFree
  free_cap : p.1.nextFree ≤ commitSlots
  frame : ∀ sector, sector < commitFirstSector + next store ∨
    commitFirstSector + p.1.nextFree ≤ sector → p.2 sector = settle store sector
  done : ∀ m < n, NsDone store ahd sender p m

variable {store ahd sender} {cut : ℕ → Option ℕ} {K : Faults} {n : ℕ} {p q : Staging × CairnDisk}

theorem NsDone.mono {m : ℕ} (h : NsDone store ahd sender p m) (hh : q.1.newHead m = p.1.newHead m)
    (hu : q.1.undone m = p.1.undone m) (ha : q.1.appended m = p.1.appended m)
    (hf : p.1.nextFree ≤ q.1.nextFree)
    (hd : ∀ free < p.1.nextFree, q.2 (commitFirstSector + free) = p.2 (commitFirstSector + free)) :
    NsDone store ahd sender q m := by
  cases h with
  | back k hk h1 h2 h3 => exact .back k hk (hh.trans h1) (hu.trans h2) (ha.trans h3)
  | push slot action free hv hle hlt h1 h2 h3 h4 =>
    exact .push slot action free hv hle (hlt.trans_le hf) (hh.trans h1) (hu.trans h2)
      (ha.trans h3) ((hd free hlt).trans h4)

theorem Staged.advance (h : Staged store ahd sender n p) (hcount : q.1.count = p.1.count)
    (hother : ∀ m, m ≠ n → q.1.newHead m = p.1.newHead m ∧ q.1.undone m = p.1.undone m ∧
      q.1.appended m = p.1.appended m)
    (hfree : p.1.nextFree ≤ q.1.nextFree) (hcap : q.1.nextFree ≤ commitSlots)
    (hdisk : ∀ sector, sector < commitFirstSector + p.1.nextFree ∨
      commitFirstSector + q.1.nextFree ≤ sector → q.2 sector = p.2 sector)
    (hdone : NsDone store ahd sender q n) : Staged store ahd sender (n + 1) q := by
  have hle := h.free_le
  refine ⟨fun m hm => ?_, fun m hm hm' => ?_, hle.trans hfree, hcap, fun sector hs => ?_,
    fun m hm => ?_⟩
  · rw [hcount]
    exact h.count_eq m hm
  · obtain ⟨h1, h2, h3⟩ := hother m (by omega)
    rw [h1, h2, h3]
    exact h.later m (by omega) hm'
  · rw [hdisk sector (by omega)]
    exact h.frame sector (by omega)
  · by_cases hmn : m = n
    · exact hmn ▸ hdone
    · obtain ⟨h1, h2, h3⟩ := hother m hmn
      exact (h.done m (by omega)).mono h1 h2 h3 hfree fun free hf => hdisk _ (.inl (by omega))

theorem Staged.retreat (h : Staged store ahd sender n p) (hn : n < nsMax) {j : ℕ}
    (hj : j ≤ (undoRun (record store) ahd (liveChain store n)).length) :
    Staged store ahd sender (n + 1)
      (retreat p.1 n j (((liveChain store n).drop j).headD noSlot), p.2) := by
  obtain ⟨-, hundone, happ⟩ := h.later n le_rfl hn
  refine h.advance rfl (fun m hm => ?_) le_rfl h.free_cap (fun _ _ => rfl) ?_
  · exact ⟨update_of_ne hm _ _, update_of_ne hm _ _, rfl⟩
  · refine .back j hj (update_self _ _ _) ?_ happ
    simp only [MissionUndo.retreat, update_self, hundone, Nat.zero_add]

theorem Staged.conclude (hi : StoreInv store) (h : Staged store ahd sender n p) (hn : n < nsMax)
    {s : Staging} (hs : s = MissionUndo.retreat p.1 n
      (undoRun (record store) ahd (liveChain store n)).length
      ((standing (record store) ahd (liveChain store n)).headD noSlot))
    {v : Verdict} (hv : v = verdict (record store) ahd (liveChain store n)) :
    Staged store ahd sender (n + 1) (conclude s n v, concludeDisk p.2 ahd sender n s v) := by
  obtain ⟨-, hundone, happ⟩ := h.later n le_rfl hn
  have hsu : s.undone n = (undoRun (record store) ahd (liveChain store n)).length := by
    simp only [hs, MissionUndo.retreat, update_self, hundone, Nat.zero_add]
  have hother : ∀ m, m ≠ n → (MissionUndo.conclude s n v).newHead m = p.1.newHead m ∧
      (MissionUndo.conclude s n v).undone m = p.1.undone m ∧
      (MissionUndo.conclude s n v).appended m = p.1.appended m := by
    intro m hm
    rw [newHead_conclude hm, undone_conclude, appended_conclude_of_ne hm, hs]
    exact ⟨update_of_ne hm _ _, update_of_ne hm _ _, rfl⟩
  have hcount : (MissionUndo.conclude s n v).count = p.1.count := by
    rw [count_conclude, hs]
    rfl
  have hfree : s.nextFree = p.1.nextFree := by
    rw [hs]
    rfl
  rcases conclude_cases s n v p.2 ahd sender with
    ⟨slot, action, hva, hlt, hcs, hcd⟩ | ⟨h1, h2, h3, h4⟩
  · have hslot : header (record p.2 slot) = header (record store slot) := by
      obtain ⟨⟨rest, hrest⟩, -⟩ := of_verdict_compensate (hv ▸ hva)
      have hb := hi.below n hn slot (mem_of_mem_standing (hrest ▸ List.mem_cons_self))
      rw [record, h.frame _ (.inl (by omega)), settle_of_ne store (slot_ne_super slot)]
      rfl
    have hgen : s.generation n = count store n -
        (undoRun (record store) ahd (liveChain store n)).length + 1 := by
      rw [Staging.generation, hsu, ← h.count_eq n hn, hs]
      rfl
    have hnext : (MissionUndo.conclude s n v).nextFree = p.1.nextFree + 1 := by
      rw [hcs, ← hfree]
      rfl
    rw [hfree] at hlt hcd
    rw [hslot, hgen] at hcd
    refine h.advance hcount hother ?_ ?_ (fun sector hsec => ?_) ?_
    · exact hnext ▸ Nat.le_succ _
    · exact hnext ▸ hlt
    · simp only [hnext] at hsec
      show concludeDisk p.2 ahd sender n s v sector = p.2 sector
      rw [hcd, update_of_ne (by omega)]
    · refine .push slot action p.1.nextFree (hv ▸ hva) h.free_le ?_ ?_ ?_ ?_ ?_
      · exact hnext ▸ Nat.lt_succ_self _
      · simp only [hcs, Staging.compensate, update_self, hfree]
      · exact undone_conclude.symm ▸ hsu
      · simp only [hcs, Staging.compensate, update_self]
        rw [hs]
        exact congrArg (· + 1) happ
      · simp only [hcd, update_self]
  · refine h.advance hcount hother ?_ ?_ (fun _ _ => ?_) ?_
    · exact (h3.trans hfree).ge
    · exact (h3.trans hfree).le.trans h.free_cap
    · exact congrFun h4 _
    · refine .back _ le_rfl ?_ (undone_conclude.symm ▸ hsu) ?_
      · rw [drop_undoRun]
        simp only [h1]
        rw [hs]
        exact update_self _ _ _
      · simp only [h2]
        rw [hs]
        exact happ

theorem Staged.step (hi : StoreInv store) (h : Staged store ahd sender n p) (hn : n < nsMax)
    (hcut : Cuts store ahd cut K) :
    Staged store ahd sender (n + 1) (undoNs store ahd sender cut p n) := by
  cases hc : cut n with
  | some j =>
    simp only [undoNs, hc]
    exact h.retreat hn (hcut n j hc).2
  | none =>
    simp only [undoNs, hc]
    exact h.conclude hi hn rfl rfl

theorem Staged.undoFrom (hi : StoreInv store) (h : Staged store ahd sender 0 p)
    (hcut : Cuts store ahd cut K) (hn : n ≤ nsMax) :
    Staged store ahd sender n (undoFrom store ahd sender cut 0 n p) := by
  rw [MissionPublish.undoFrom, ← List.range_eq_range']
  induction n with
  | zero => exact h
  | succ n ih =>
    rw [List.range_succ, List.foldl_append, List.foldl_cons, List.foldl_nil]
    exact (ih (by omega)).step hi (by omega) hcut

end

section
variable {store : CairnDisk} {ahd : UInt32} {sender : ℕ} {cut : ℕ → Option ℕ} {K : Faults}
  {w : Bytes} {d' : CairnDisk} {p : Staging × CairnDisk} {m : ℕ}

def initial (store : CairnDisk) (w : Bytes) : Staging where
  newHead := heads (load w (superOf store))
  count := counts (load w (superOf store))
  nextFree := next store

variable (ahd sender w) in
theorem staged_initial (hi : StoreInv store) :
    Staged store ahd sender 0 (initial store w, settle store) where
  count_eq := fun _ hm => counts_load hm
  later := fun _ _ hm => ⟨heads_load hm, rfl, rfl⟩
  free_le := le_rfl
  free_cap := hi.next_le
  frame := fun _ _ => rfl
  done := fun _ hm => absurd hm (Nat.not_lt_zero _)

def undone (store : CairnDisk) (ahd : UInt32) (sender : ℕ) (cut : ℕ → Option ℕ) (w : Bytes) :
    Staging × CairnDisk :=
  undoFrom store ahd sender cut 0 nsMax (initial store w, settle store)

def published (store : CairnDisk) (p : Staging × CairnDisk) : CairnDisk :=
  update p.2 superSector (take sectorSize (publishSuper p.1 (bytes (superOf store))))

variable (sender w) in
theorem staged_undone (hi : StoreInv store) (hcut : Cuts store ahd cut K) :
    Staged store ahd sender nsMax (undone store ahd sender cut w) :=
  (staged_initial ahd sender w hi).undoFrom hi hcut le_rfl

section
variable (h : Staged store ahd sender nsMax p)
include h

theorem Staged.super_eq : p.2 superSector = superOf store := by
  rw [h.frame superSector (.inl (by simp only [superSector, commitFirstSector]; omega)),
    settle_super]

theorem Staged.superOf_eq : superOf p.2 = superOf store :=
  superOf_of_magic h.super_eq (superOf_magic store)

theorem Staged.settle_eq : settle p.2 = p.2 := by
  apply settle_of_formatted
  rw [formatted, h.super_eq]
  exact superOf_magic store

theorem Staged.same : SameStore store p.2 := by
  refine ⟨h.superOf_eq, fun slot hs => ?_⟩
  rw [h.frame _ (.inl (by omega)), settle_of_ne store (slot_ne_super slot)]

end

/-- The last part of the rollback: reload the superblock, stage the moved
references and write it. -/
def publish (s : Staging) (w : Bytes) : Program Sector (Option (Answer RollbackReply)) := do
  let u ← cairnLoadSuper w
  if u.value then
    let v ← rw (publishSuper s u.window) superSector true
    if v.value then pure (some ⟨{ status := .ok, report := some s }, v.window⟩)
    else pure (some ⟨{ status := .ioFailure }, v.window⟩)
  else pure (some ⟨{ status := .ioFailure }, u.window⟩)

theorem publish_cases {a : Option (Answer RollbackReply)} (hp : Staged store ahd sender nsMax p)
    (h : (publish p.1 w).Exec K p.2 a d') :
    ∃ r, a = some r ∧
      (r.value.status ≠ .ok ∧ SameStore store d' ∧ K.Possible ∨
        (r.value.status = .ok ∧ r.value.report = some p.1 ∨ r.value.status ≠ .ok ∧ K.landed) ∧
          d' = published store p) := by
  rcases exec_withSuper h with h | ⟨⟨u, rfl⟩, hK, hd⟩
  · obtain ⟨x, d2, hx, hk⟩ := exec_bind.mp h
    rw [exec_rw_write, take_image (publishSuper _) (publishSuper_congr _), hp.superOf_eq,
      hp.settle_eq] at hx
    rcases hx with ⟨rfl, rfl⟩ | ⟨rfl, hl⟩
    · obtain ⟨rfl, rfl⟩ := hk
      exact ⟨_, rfl, .inr ⟨.inl ⟨rfl, rfl⟩, rfl⟩⟩
    · obtain ⟨rfl, rfl⟩ := hk
      rcases hl with ⟨hK, rfl⟩ | ⟨hK, rfl⟩
      · exact ⟨_, rfl, .inl ⟨by simp, hp.same, .inr (.inl hK)⟩⟩
      · exact ⟨_, rfl, .inr ⟨.inr ⟨by simp, hK⟩, rfl⟩⟩
  · exact ⟨_, rfl, .inl ⟨by simp, hp.same.trans (same_of_settled hd), hK⟩⟩

/-- How a mission rollback ends: refused, with the superblock not loaded, denied, or with the
end of its walks. -/
theorem exec_sfarRollback {fuel caps : ℕ} {a : Option (Answer RollbackReply)}
    (h : (sfarRollback fuel ahd caps sender w).Exec K store a d') :
    (∃ r, a = some r ∧ r.value.status ≠ .ok ∧
        (ahd = 0 ∧ d' = store ∨ K.Possible ∧ (d' = store ∨ d' = settle store))) ∨
      ahd ≠ 0 ∧ ∃ t, (sfarTouchedNs ahd (initial store w).newHead (load w (superOf store))).Exec K (settle store)
          t (settle store) ∧
        ((∃ r, a = some r ∧ r.value.status = .denied) ∧ sfarAuthorized t.value caps = false ∧
            d' = settle store ∨
          (t.value != 0 && !sfarAuthorized t.value caps) = false ∧ ∃ x d1,
            (rollbackFrom fuel ahd sender nsMax 0 (initial store w) t.window).Exec K (settle store) x d1 ∧
            match x with
            | .running => a = none ∧ d' = d1
            | .aborted v => a = some ⟨{ status := .ioFailure }, v⟩ ∧ d' = d1
            | .finished s v => (publish s v).Exec K d1 a d') := by
  rw [sfarRollback] at h
  by_cases h0 : ahd = 0
  · rw [if_pos h0] at h
    exact .inl ⟨_, h.1, by simp, .inl ⟨h0, h.2⟩⟩
  rw [if_neg h0] at h
  rcases exec_withSuper h with h | ⟨⟨r, rfl⟩, hK, hd⟩
  swap
  · exact .inl ⟨_, rfl, by simp, .inr ⟨hK, hd⟩⟩
  simp only [next_load] at h
  obtain ⟨t, d1, ht, h⟩ := exec_bind.mp h
  obtain rfl : d1 = settle store := (scanFrom_cases (local_noteTouched ahd) ht).1
  refine .inr ⟨h0, t, ht, ?_⟩
  split_ifs at h with hden
  · exact .inl ⟨⟨_, h.1, rfl⟩, denied_iff.mp hden, h.2⟩
  · obtain ⟨x, d1, hx, h⟩ := exec_bind.mp h
    refine .inr ⟨Bool.eq_false_of_not_eq_true hden, x, d1, hx, ?_⟩
    cases x <;> exact h

theorem sfarRollback_cases {fuel caps : ℕ} {a : Option (Answer RollbackReply)}
    (hi : StoreInv store) (h : (sfarRollback fuel ahd caps sender w).Exec K store a d') :
    a = none ∧ fuel ≤ commitSlots ∧ SameStore store d' ∨ ∃ r, a = some r ∧
        (r.value.status ≠ .ok ∧ SameStore store d' ∧
            (K.Possible ∨ ahd = 0 ∨ r.value.status = .denied ∧
              ∃ ns < nsMax, Touches store ahd ns ∧ holdsNs caps ns = false) ∨ ahd ≠ 0 ∧
            (∀ ns < nsMax, Touches store ahd ns → K.reads ∨ holdsNs caps ns = true) ∧
            ∃ cut, Cuts store ahd cut K ∧
              (r.value.status = .ok ∧
                  r.value.report = some (undone store ahd sender cut w).1 ∨
                r.value.status ≠ .ok ∧ K.landed) ∧
              d' = published store (undone store ahd sender cut w)) := by
  rcases exec_sfarRollback h with ⟨r, rfl, hok, ⟨h0, rfl⟩ | ⟨hK, hd⟩⟩ | ⟨h0, t, ht, hrest⟩
  · exact .inr ⟨r, rfl, .inl ⟨hok, .refl d', .inr (.inl h0)⟩⟩
  · exact .inr ⟨r, rfl, .inl ⟨hok, same_of_settled hd, .inl hK⟩⟩
  have hheads : ∀ ns < nsMax, heads (load w (superOf store)) ns = head (settle store) ns := by
    intro ns hns
    rw [heads_load hns, (SameStore.settle store).head_eq]
  have htouched := (sfarTouchedNs_cases hheads ht).2
  have htouches : ∀ ns < nsMax, Touches (settle store) ahd ns ↔ Touches store ahd ns := by
    intro ns hns
    rw [Touches, (SameStore.settle store).liveChain_eq hi hns]
    simp only [record_settle]
    rfl
  rcases hrest with ⟨⟨r, rfl, hr⟩, hauth, rfl⟩ | ⟨hden, x, d1, hwalk, hk⟩
  · refine .inr ⟨r, rfl, .inl ⟨by simp [hr], .settle store, .inr (.inr ⟨hr, ?_⟩)⟩⟩
    rw [Bool.eq_false_iff, ne_eq, sfarAuthorized_iff] at hauth
    push Not at hauth
    obtain ⟨ns, hns, hbit, hno⟩ := hauth
    exact ⟨ns, hns, (htouches ns hns).mp ((htouched ns hns).1 hbit), Bool.eq_false_iff.mpr hno⟩
  · have hauth : sfarAuthorized t.value caps = true := by
      rw [← Bool.not_eq_false, ← denied_iff, hden]
      decide
    have hcover : ∀ ns < nsMax, Touches store ahd ns → K.reads ∨ holdsNs caps ns = true :=
      fun ns hns htch => ((htouched ns hns).2 ((htouches ns hns).mpr htch)).imp_right
        (sfarAuthorized_iff.mp hauth ns hns)
    have hst := staged_initial ahd sender w hi
    rcases rollbackFrom_cases hi (.settle store) le_rfl (by simp)
        (fun m _ hm => (hst.later m (Nat.zero_le _) hm).1) hwalk with
      ⟨rfl, hf, hs⟩ | ⟨⟨w', rfl⟩, hK, hs⟩ | ⟨cut, w', hcut, rfl, rfl⟩
    · obtain ⟨rfl, rfl⟩ := hk
      exact .inl ⟨rfl, hf, hs⟩
    · obtain ⟨rfl, rfl⟩ := hk
      exact .inr ⟨_, rfl, .inl ⟨by simp, hs, .inl (.inr hK)⟩⟩
    · have hstaged := staged_undone sender w hi hcut
      obtain ⟨r, rfl, hr⟩ := publish_cases hstaged hk
      refine .inr ⟨r, rfl, ?_⟩
      rcases hr with ⟨hok, hs, hK⟩ | ⟨hr, hd⟩
      · exact .inl ⟨hok, hs, .inl hK⟩
      · exact .inr ⟨h0, hcover, cut, hcut, hr, hd⟩

theorem superOf_published : superOf (published store p) =
    take sectorSize (publishSuper p.1 (bytes (superOf store))) := by
  apply superOf_update
  rw [startsWith_publishSuper]
  exact superOf_magic store

theorem published_slot (slot : ℕ) :
    published store p (commitFirstSector + slot) = p.2 (commitFirstSector + slot) :=
  update_super_slot _ _ _

theorem Staged.next_published (h : Staged store ahd sender nsMax p) :
    next (published store p) = p.1.nextFree := by
  have hcap : p.1.nextFree ≤ 255 := h.free_cap
  rw [next_of_super superOf_published, next_publishSuper]
  omega

theorem head_published (hm : m < nsMax) : head (published store p) m =
    if moved p.1 m then p.1.newHead m % 2 ^ 32 else head store m := by
  rw [head_of_super superOf_published hm, heads_publishSuper hm]
  rfl

theorem count_published (hm : m < nsMax) : count (published store p) m =
    if moved p.1 m then (p.1.count m - p.1.undone m + p.1.appended m) % 2 ^ 32
    else count store m := by
  rw [count_of_super superOf_published hm, counts_publishSuper hm]
  rfl

theorem revoked_published (hm : m < nsMax) : revoked (published store p) m = revoked store m := by
  rw [revoked_of_super superOf_published hm, revoked_publishSuper]
  rfl

theorem Staged.published_extends (h : Staged store ahd sender nsMax p) :
    Extends store (published store p) := by
  refine ⟨h.free_le.trans_eq h.next_published.symm, fun slot hs => ?_⟩
  rw [published_slot, h.same.slots slot hs]

theorem Staged.refMove_back (hi : StoreInv store) (h : Staged store ahd sender nsMax p)
    (hm : m < nsMax) {k : ℕ} (hk : k ≤ (undoRun (record store) ahd (liveChain store m)).length)
    (hhead : p.1.newHead m = ((liveChain store m).drop k).headD noSlot)
    (hundone : p.1.undone m = k) (happ : p.1.appended m = 0) :
    RefMove store (published store p) m ((liveChain store m).drop k) := by
  have hlen : (liveChain store m).length ≤ 255 := StoreInv.length_le hi hm
  have hrun := hk.trans (length_undoRun_le _ _ _)
  refine .back k ?_ ?_
  · rw [head_published hm]
    split
    · rw [hhead]
      exact Nat.mod_eq_of_lt (StoreInv.headD_lt hi hm k)
    · next hmv =>
        have hk0 : k = 0 := by
          simp only [moved] at hmv
          omega
        rw [hk0, List.drop_zero, hi.head_eq hm]
  · rw [count_published hm, List.length_drop]
    split
    · rw [h.count_eq m hm, hi.count_eq m hm, hundone, happ]
      omega
    · next hmv =>
        simp only [moved] at hmv
        rw [hi.count_eq m hm]
        omega

theorem compensationSector_good {derived generation ns : ℕ}
    (hfree : free < 2 ^ 32) (hns : ns < nsMax) (hgen : generation < 2 ^ 16) :
    GoodRecord ns free generation
      (bytes (compensationSector ahd sender ns slot action derived free generation)) := by
  have hns' : ns < 8 := hns
  rw [compensationSector]
  refine ⟨isCommit_commitSector, ?_, ?_, ?_⟩
  all_goals
    rw [header_commitSector, header_encode]
    simp only [compensationHeader]
    omega

theorem parent_compensationSector {derived generation ns : ℕ} (hslot : slot < 2 ^ 32) :
    (header (bytes (compensationSector ahd sender ns slot action derived free generation))).parent =
      slot := by
  rw [compensationSector, header_commitSector, header_encode]
  exact Nat.mod_eq_of_lt hslot

theorem header_compensationSector (ahd : UInt32) (sender ns slot : ℕ) (action : List UInt8)
    (derived free generation : ℕ) :
    let h := header (bytes (compensationSector ahd sender ns slot action derived free generation))
    h.intent = ahd.toNat ∧ h.revClass = RevClass.reversible.code ∧ h.status = statusCompensation := by
  rw [compensationSector, header_commitSector, header_encode]
  exact ⟨Nat.mod_eq_of_lt ahd.toNat_lt, rfl, rfl⟩

theorem Staged.refMove_push (hi : StoreInv store) (h : Staged store ahd sender nsMax p)
    (hm : m < nsMax) (hv : verdict (record store) ahd (liveChain store m) = .compensate slot action)
    (hle : next store ≤ free) (hlt : free < p.1.nextFree) (hhead : p.1.newHead m = free)
    (hundone : p.1.undone m = (undoRun (record store) ahd (liveChain store m)).length)
    (happ : p.1.appended m = 1)
    (hrec : p.2 (commitFirstSector + free) = compensationSector ahd sender m slot action
      (header (record store slot)).derived free
      (count store m - (undoRun (record store) ahd (liveChain store m)).length + 1)) :
    RefMove store (published store p) m (free :: standing (record store) ahd (liveChain store m)) := by
  have hlen : (liveChain store m).length ≤ 255 := StoreInv.length_le hi hm
  have hcap : p.1.nextFree ≤ 255 := h.free_cap
  have hrun := length_undoRun_le (record store) ahd (liveChain store m)
  have hmv : moved p.1 m := .inr (by omega)
  obtain ⟨⟨rest, hrest⟩, -⟩ := of_verdict_compensate hv
  have hslot : slot < 2 ^ 32 := by
    have hs : slot ∈ liveChain store m := mem_of_mem_standing (hrest ▸ List.mem_cons_self)
    exact (StoreInv.lt_noSlot hi hm slot hs).trans (by decide)
  have hr : record (published store p) free = bytes (compensationSector ahd sender m slot action
      (header (record store slot)).derived free
      (count store m - (undoRun (record store) ahd (liveChain store m)).length + 1)) := by
    rw [record, published_slot, hrec]
  rw [hi.count_eq m hm] at hr
  rw [← drop_undoRun]
  refine .push _ free hle ?_ ?_ ?_ ?_ ?_
  · rw [h.next_published]
    exact hlt
  · rw [head_published hm, if_pos hmv, hhead]
    omega
  · rw [count_published hm, if_pos hmv, h.count_eq m hm, hi.count_eq m hm, hundone, happ,
      List.length_drop]
    omega
  · rw [hr, List.length_drop]
    exact compensationSector_good (by omega) hm (by omega)
  · rw [hr, parent_compensationSector hslot, drop_undoRun, hrest]
    rfl

theorem Staged.refMove (hi : StoreInv store) (h : Staged store ahd sender nsMax p)
    (hm : m < nsMax) : ∃ l, RefMove store (published store p) m l := by
  cases h.done m hm with
  | back k hk h1 h2 h3 => exact ⟨_, h.refMove_back hi hm hk h1 h2 h3⟩
  | push slot action free hv hle hlt h1 h2 h3 h4 =>
    exact ⟨_, h.refMove_push hi hm hv hle hlt h1 h2 h3 h4⟩

theorem Staged.storeInv (hi : StoreInv store) (h : Staged store ahd sender nsMax p) :
    StoreInv (published store p) :=
  hi.move h.published_extends (h.next_published.trans_le h.free_cap) fun _ hm => h.refMove hi hm

end

section
variable {K : Faults} {d d' : CairnDisk} {ahd : UInt32} {fuel caps sender : ℕ} {w : Bytes}
  {a : Option (Answer RollbackReply)}

section
variable {s : Staging}

theorem next_published_any : next (published d (s, settle d)) = s.nextFree % 2 ^ 32 := by
  rw [next_of_super superOf_published, next_publishSuper]

theorem published_slot_any (slot : ℕ) :
    published d (s, settle d) (commitFirstSector + slot) = d (commitFirstSector + slot) :=
  (published_slot slot).trans (settle_of_ne d (slot_ne_super slot))

theorem publish_disk (h : (publish s w).Exec K d a d') :
    a ≠ none ∧ (d' = d ∨ d' = settle d ∨ d' = published d (s, settle d)) := by
  rcases exec_withSuper h with h | ⟨⟨r, rfl⟩, -, hd⟩
  · obtain ⟨x, d2, hx, hk⟩ := exec_bind.mp h
    obtain ⟨ha, rfl⟩ : a ≠ none ∧ d' = d2 := by
      split at hk <;> exact ⟨hk.1 ▸ Option.some_ne_none _, hk.2⟩
    rw [exec_rw_write, take_image (publishSuper _) (publishSuper_congr _)] at hx
    rcases hx with ⟨-, rfl⟩ | ⟨-, ⟨-, rfl⟩ | ⟨-, rfl⟩⟩
    · exact ⟨ha, .inr (.inr rfl)⟩
    · exact ⟨ha, .inr (.inl rfl)⟩
    · exact ⟨ha, .inr (.inr rfl)⟩
  · exact ⟨Option.some_ne_none _, hd.imp_right .inl⟩

end

theorem sfarRollback_extends (h : (sfarRollback fuel ahd caps sender w).Exec K d a d') :
    Extends d d' := by
  rcases exec_sfarRollback h with
    ⟨-, -, -, ⟨-, rfl⟩ | ⟨-, hd⟩⟩ | ⟨-, t, -, ⟨-, -, rfl⟩ | ⟨-, x, d1, hwalk, hk⟩⟩
  · exact (SameStore.refl d').toExtends
  · exact (same_of_settled hd).toExtends
  · exact (SameStore.settle d).toExtends
  obtain ⟨hfill, hgrow⟩ := rollbackFrom_frame hwalk
  have hsame : SameStore d d1 := hfill.same
  cases x with
  | running | aborted v =>
    obtain ⟨-, rfl⟩ := hk
    exact hsame.toExtends
  | finished s v =>
    rcases (publish_disk hk).2 with rfl | rfl | rfl
    · exact hsame.toExtends
    · exact (hsame.trans (.settle d1)).toExtends
    · have hnext : next d < 2 ^ 32 := u32At_lt
      have hgrow' : next d ≤ s.nextFree ∧ (s.nextFree = next d ∨ s.nextFree ≤ 255) := hgrow s v rfl
      refine ⟨?_, fun slot hs => ?_⟩
      · rw [next_published_any]
        omega
      · rw [published_slot_any, hsame.slots slot hs]

end

end Dezh.MissionPublish

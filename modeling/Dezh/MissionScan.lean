import Mathlib.Data.Nat.Bitwise
import Dezh.CairnOutcomes

/-!
# The bounded scans over live chains

The authority check, the forecast and the provenance graph are one walk with
different accumulators. The walk never writes. It folds over the live chain of
every namespace, and a read failure cuts the fold of one namespace short.
-/
namespace Dezh.MissionScan
open Function BlockProgram Program ByteLayout ParentChain CairnFormat CairnService SfarService CairnStore
open CairnOutcomes

variable {A : Type} {K : Faults} {d d' : CairnDisk} {w : Bytes}

/-- An accumulator that looks at the 512 bytes of the record only. -/
def Local (note : ℕ → Bytes → A → A) : Prop :=
  ∀ slot (s : Sector) (w : Bytes) acc, note slot (load w s) acc = note slot (bytes s) acc

theorem scanChain_cases {note : ℕ → Bytes → A → A} (hnote : Local note) {guard cur : ℕ} {acc : A}
    {a : Answer A} (h : (scanChain note guard cur acc w).Exec K d a d') :
    d' = d ∧ ∃ k, (K.reads ∨ (follow commitLinks (record d) guard cur).length ≤ k) ∧
      a.value = ((follow commitLinks (record d) guard cur).take k).foldl
        (fun acc slot => note slot (record d slot) acc) acc := by
  induction guard generalizing cur acc w with
  | zero =>
    obtain ⟨rfl, rfl⟩ := h
    exact ⟨rfl, 0, .inr le_rfl, rfl⟩
  | succ guard ih =>
    rw [scanChain] at h
    rw [follow]
    by_cases hc : cur = noSlot
    · rw [if_pos hc] at h
      obtain ⟨rfl, rfl⟩ := h
      exact ⟨rfl, 0, .inr (by simp [commitLinks, hc]), by simp⟩
    · have hc' : cur ≠ commitLinks.stop := hc
      rw [if_neg hc] at h
      rw [if_neg hc']
      obtain ⟨r, d1, hr, hk⟩ := exec_bind.mp h
      obtain ⟨hd, hr'⟩ := exec_rw_read.mp hr
      subst d1
      rcases hr' with rfl | ⟨hK, rfl⟩
      · simp only [Bool.true_and, isCommit_window, parent_window,
          hnote cur (d (commitFirstSector + cur)) w acc] at hk
        by_cases hm : isCommit (record d cur) = true
        · have hm' : commitLinks.valid (record d cur) = true := hm
          rw [if_pos hm] at hk
          rw [if_pos hm']
          obtain ⟨hd, k, hlen, hval⟩ := ih hk
          refine ⟨hd, k + 1, hlen.imp_right Nat.succ_le_succ, ?_⟩
          exact hval
        · have hm' : ¬ commitLinks.valid (record d cur) = true := hm
          rw [if_neg hm] at hk
          rw [if_neg hm']
          obtain ⟨rfl, rfl⟩ := hk
          exact ⟨rfl, 0, .inr le_rfl, rfl⟩
      · obtain ⟨rfl, rfl⟩ := hk
        exact ⟨rfl, 0, .inl hK, by simp⟩

def scanned (note : ℕ → ℕ → Bytes → A → A) (rec : ℕ → Bytes) (chain : ℕ → List ℕ) (ns n : ℕ)
    (acc : A) : A :=
  (List.range' ns n).foldl
    (fun acc m => (chain m).foldl (fun acc slot => note m slot (rec slot) acc) acc) acc

theorem scanned_congr {note : ℕ → ℕ → Bytes → A → A} {rec : ℕ → Bytes} {c c' : ℕ → List ℕ}
    {ns n : ℕ} (h : ∀ m, ns ≤ m → m < ns + n → c m = c' m) (acc : A) :
    scanned note rec c ns n acc = scanned note rec c' ns n acc := by
  refine List.foldl_ext _ _ acc fun b m hm => ?_
  rw [List.mem_range'_1] at hm
  rw [h m hm.1 hm.2]

theorem scanFrom_cases {note : ℕ → ℕ → Bytes → A → A} (hnote : ∀ ns, Local (note ns))
    {heads : ℕ → ℕ} {n ns : ℕ} {acc : A} {a : Answer A}
    (h : (scanFrom note heads n ns acc w).Exec K d a d') :
    d' = d ∧ ∃ k : ℕ → ℕ,
      (∀ m, K.reads ∨ (follow commitLinks (record d) commitSlots (heads m)).length ≤ k m) ∧
      a.value = scanned note (record d)
        (fun m => (follow commitLinks (record d) commitSlots (heads m)).take (k m)) ns n acc := by
  induction n generalizing ns acc w with
  | zero =>
    obtain ⟨rfl, rfl⟩ := h
    exact ⟨rfl, fun m => (follow commitLinks (record d') commitSlots (heads m)).length,
      fun m => .inr le_rfl, rfl⟩
  | succ n ih =>
    obtain ⟨r, d1, hr, hk⟩ := exec_bind.mp h
    obtain ⟨hd, k0, hlen0, hval0⟩ := scanChain_cases (hnote ns) hr
    subst d1
    obtain ⟨hd, k, hlen, hval⟩ := ih hk
    refine ⟨hd, update k ns k0, fun m => ?_, ?_⟩
    · by_cases hm : m = ns
      · subst hm
        rw [update_self]
        exact hlen0
      · rw [update_of_ne hm]
        exact hlen m
    · rw [hval, hval0]
      have hrest : ∀ acc, scanned note (record d)
          (fun m => (follow commitLinks (record d) commitSlots (heads m)).take (k m)) (ns + 1) n acc =
          scanned note (record d)
            (fun m => (follow commitLinks (record d) commitSlots (heads m)).take
              (update k ns k0 m)) (ns + 1) n acc :=
        scanned_congr fun m hm _ => by rw [update_of_ne (by omega)]
      rw [hrest]
      simp only [scanned, List.range'_succ, List.foldl_cons, update_self]

section
variable {ahd : UInt32} {rec : ℕ → Bytes} {l : List ℕ} {caps touched m n : ℕ}

theorem local_noteTouched (ahd : UInt32) (ns : ℕ) : Local (noteTouched ahd ns) := by
  intro slot s w acc
  have h : ofMission ahd (load w s) = ofMission ahd (bytes s) :=
    congrArg (fun h : CommitHeader => h.intent == ahd.toNat) header_load
  simp only [noteTouched, h]

theorem and_one_shiftLeft_ne_zero (x i : ℕ) : (x &&& 1 <<< i != 0) = x.testBit i := by
  rw [Nat.one_shiftLeft, Nat.and_two_pow]
  cases x.testBit i <;> simp

theorem testBit_noteTouched {ns slot : ℕ} {b : Bytes} :
    (noteTouched ahd ns slot b touched).testBit m =
      (touched.testBit m || (ofMission ahd b && decide (m = ns))) := by
  unfold noteTouched
  cases ofMission ahd b with
  | false => simp
  | true =>
    rw [if_pos rfl, Nat.testBit_or, Nat.one_shiftLeft, Nat.testBit_two_pow]
    simp [eq_comm]

theorem testBit_foldl_noteTouched {ns : ℕ} :
    (l.foldl (fun acc slot => noteTouched ahd ns slot (rec slot) acc) touched).testBit m =
      (touched.testBit m || (l.any fun slot => ofMission ahd (rec slot)) && decide (m = ns)) := by
  induction l generalizing touched with
  | nil => simp
  | cons slot l ih =>
    rw [List.foldl_cons, ih, testBit_noteTouched, List.any_cons]
    cases touched.testBit m <;> cases ofMission ahd (rec slot) <;> simp

theorem testBit_scanned {chain : ℕ → List ℕ} (ns touched : ℕ) :
    (scanned (noteTouched ahd) rec chain ns n touched).testBit m =
      (touched.testBit m || (decide (ns ≤ m ∧ m < ns + n) &&
        (chain m).any fun slot => ofMission ahd (rec slot))) := by
  induction n generalizing ns touched with
  | zero => simp [scanned]
  | succ n ih =>
    have h := ih (ns + 1) ((chain ns).foldl
      (fun acc slot => noteTouched ahd ns slot (rec slot) acc) touched)
    simp only [scanned, List.range'_succ, List.foldl_cons] at h ⊢
    rw [h, testBit_foldl_noteTouched]
    by_cases hm : m = ns
    · subst hm
      have h1 : ¬ (m + 1 ≤ m ∧ m < m + 1 + n) := by omega
      have h2 : m ≤ m ∧ m < m + (n + 1) := by omega
      rw [decide_eq_false h1, decide_eq_true h2]
      simp
    · have h1 : (ns + 1 ≤ m ∧ m < ns + 1 + n) ↔ (ns ≤ m ∧ m < ns + (n + 1)) := by omega
      rw [decide_eq_decide.mpr h1, decide_eq_false hm, Bool.and_false, Bool.or_false]

/-- A namespace that carries a live effect of the mission. -/
def Touches (d : CairnDisk) (ahd : UInt32) (ns : ℕ) : Prop :=
  ∃ slot ∈ liveChain d ns, ofMission ahd (record d slot) = true

instance (d : CairnDisk) (ahd : UInt32) (ns : ℕ) : Decidable (Touches d ahd ns) :=
  inferInstanceAs (Decidable (∃ slot ∈ liveChain d ns, ofMission ahd (record d slot) = true))

theorem sfarTouchedNs_cases {a : Answer ℕ} {heads : ℕ → ℕ} (hh : ∀ ns < nsMax, heads ns = head d ns)
    (h : (sfarTouchedNs ahd heads w).Exec K d a d') :
    d' = d ∧ ∀ ns < nsMax, (a.value.testBit ns = true → Touches d ahd ns) ∧
      (Touches d ahd ns → K.reads ∨ a.value.testBit ns = true) := by
  obtain ⟨hd, k, hk, hval⟩ := scanFrom_cases (local_noteTouched ahd) h
  refine ⟨hd, fun ns hns => ?_⟩
  have hbit : a.value.testBit ns = ((liveChain d ns).take (k ns)).any
      fun slot => ofMission ahd (record d slot) := by
    have hlt : decide (0 ≤ ns ∧ ns < 0 + nsMax) = true := by simpa using hns
    rw [hval, testBit_scanned, hh ns hns, hlt, Nat.zero_testBit, Bool.false_or, Bool.true_and]
    rfl
  constructor
  · intro ht
    rw [hbit, List.any_eq_true] at ht
    obtain ⟨slot, hs, hm⟩ := ht
    exact ⟨slot, List.mem_of_mem_take hs, hm⟩
  · rintro ⟨slot, hs, hm⟩
    rcases hk ns with hK | hle
    · exact .inl hK
    · right
      have hle' : (liveChain d ns).length ≤ k ns := by rwa [hh ns hns] at hle
      rw [hbit, List.any_eq_true, List.take_of_length_le hle']
      exact ⟨slot, hs, hm⟩

theorem sfarAuthorized_iff : sfarAuthorized touched caps = true ↔
    ∀ ns < nsMax, touched.testBit ns = true → holdsNs caps ns = true := by
  simp only [sfarAuthorized, sfarMissing, List.isEmpty_iff, List.filter_eq_nil_iff,
    List.mem_range, and_one_shiftLeft_ne_zero, Bool.and_eq_true, not_and, Bool.not_eq_true,
    Bool.not_eq_false']

theorem denied_iff : (touched != 0 && !sfarAuthorized touched caps) = true ↔
    sfarAuthorized touched caps = false := by
  rw [Bool.and_eq_true, Bool.not_eq_true', bne_iff_ne, and_iff_right_iff_imp]
  rintro h rfl
  have : sfarAuthorized 0 caps = true := sfarAuthorized_iff.mpr (by simp)
  rw [h] at this
  exact absurd this (by decide)

end

end Dezh.MissionScan

import Dezh.MissionAuthority
import Dezh.MissionIdentity
import Dezh.NamespaceSecrets

/-!
# Every store request comes to an end

Each walk of the storage daemon follows parent links it has just read, so nothing
about the data bounds it. The ledger views stop after eight records, the mission
scans after 255, a rollback after the number of steps in the request. The mission
rollback has no such bound: on a chain that runs into a cycle of the mission's
reversible effects it goes round for ever. On a well-formed store its walk over a
namespace ends within 256 iterations. The copy of a read is as long as the record says,
and where it comes to the end of the mapped memory the daemon is gone.
-/
namespace Dezh.RequestTermination
open BlockProgram Program ByteLayout CairnFormat CairnService SfarService CairnStore CairnOutcomes
open BlockDaemon MissionScan MissionPublish MissionIdentity MissionUndo MissionAuthority
open NamespaceSecrets StoreRuns DaemonWalks

variable {K : Faults} {d d' : CairnDisk} {w : Bytes} {ahd : UInt32} {sender ns cur n : ℕ}

theorem forall_run_iff {A : Type} {p : Program Sector A} {Q : A → Prop} :
    (∀ f : Schedule, f.Within K → Q (p.run f d).1) ↔ ∀ a d', p.Exec K d a d' → Q a := by
  constructor
  · intro h a d' hx
    obtain ⟨f, hf, hrun⟩ := hx.exists_run
    have := h f hf
    rwa [hrun] at this
  · exact fun h f hf => h _ _ (exec_run p hf)

/-! ### The copy of a read -/

/-- The read of a namespace comes to a record that is longer than the memory behind the
window: the sender may use the namespace, its revocation is not seen, and its head is a
record with that length. -/
def Unmapped (K : Faults) (d : CairnDisk) (r : Request) : Prop :=
  cairnNsAllowed r.cairnNs r.caps = true ∧ (K.reads ∨ revoked d r.cairnNs = 0) ∧
    head d r.cairnNs ≠ noSlot ∧ isCommit (record d (head d r.cairnNs)) = true ∧
    mappedBytes < valueOff + (header (record d (head d r.cairnNs))).len

theorem copyValue_eq_none {a : Answer Status} :
    copyValue a = none ↔ a.value = .ok ∧ mappedBytes < valueOff + u32At a.window offLen := by
  unfold copyValue
  split_ifs with hok
  · dsimp only
    split_ifs with hlen
    · exact iff_of_false nofun fun h => absurd h.2 (by omega)
    · exact iff_of_true rfl ⟨hok, by omega⟩
  · exact iff_of_false nofun fun h => hok h.1

theorem formatted_of_head (hns : ns < nsMax) (hne : head d ns ≠ noSlot) : formatted d = true := by
  by_contra hf
  refine hne ?_
  rw [head, superOf, if_neg hf]
  exact (freshSuper_entry ns hns).1

theorem len_window {slot : ℕ} : u32At (load w (d (commitFirstSector + slot))) offLen =
    (header (record d slot)).len := congrArg CommitHeader.len header_load

theorem cairnGet_ok {a : Answer Status} (hns : ns < nsMax)
    (h : (cairnGet w ns).Exec K d a d') (hok : a.value = .ok) :
    head d ns ≠ noSlot ∧ isCommit (record d (head d ns)) = true ∧
      u32At a.window offLen = (header (record d (head d ns))).len := by
  obtain ⟨r, d1, hr, hk⟩ := exec_bind.mp h
  rcases exec_withSuper hr with hr | ⟨⟨b, rfl⟩, -⟩
  swap
  · obtain ⟨rfl, -⟩ := hk
    cases hok
  simp only [u32At_load_head hns] at hr
  split_ifs at hr with hne
  · obtain ⟨rfl, -⟩ := hr
    simp only [if_true] at hk
    obtain ⟨rfl, -⟩ := hk
    cases hok
  obtain ⟨c, d3, hc, hr⟩ := exec_bind.mp hr
  obtain ⟨rfl, rfl | ⟨-, rfl⟩⟩ := exec_rw_read.mp hc
  swap
  · obtain ⟨rfl, -⟩ := hr
    obtain ⟨rfl, -⟩ := hk
    cases hok
  simp only [Bool.true_and, isCommit_window, record_settle] at hr
  split_ifs at hr with hcommit
  · obtain ⟨rfl, -⟩ := hr
    simp only [if_neg hne] at hk
    obtain ⟨rfl, -⟩ := hk
    refine ⟨hne, hcommit, ?_⟩
    rw [← record_settle d]
    exact len_window
  · obtain ⟨rfl, -⟩ := hr
    obtain ⟨rfl, -⟩ := hk
    cases hok

theorem exec_cairnGet (hns : ns < nsMax) (hne : head d ns ≠ noSlot)
    (hcommit : isCommit (record d (head d ns)) = true) :
    ∃ v, (cairnGet w ns).Exec K d ⟨.ok, load v (d (commitFirstSector + head d ns))⟩ (settle d) := by
  have hsec : settle d (commitFirstSector + head d ns) = d (commitFirstSector + head d ns) :=
    settle_of_ne d (slot_ne_super _)
  refine ⟨load w (superOf d), exec_bind.mpr ⟨⟨some (head d ns),
    load (load w (superOf d)) (d (commitFirstSector + head d ns))⟩, settle d, ?_, ?_⟩⟩
  · refine exec_bind.mpr ⟨_, _, exec_cairnLoadSuper K d w, ?_⟩
    simp only [if_true, u32At_load_head hns, if_neg hne]
    refine exec_bind.mpr ⟨_, _, exec_rw_read.mpr ⟨rfl, .inl rfl⟩, ?_⟩
    rw [hsec]
    simp only [Bool.true_and, isCommit_window, hcommit, if_true]
    exact ⟨rfl, rfl⟩
  · simp only [if_neg hne]
    exact ⟨rfl, rfl⟩

/-- A read is left without an answer exactly if its copy runs into unmapped memory. -/
theorem exec_get_none (r : Request) :
    (∃ d', (dispatch n .cairnGet r w).Exec K d none d') ↔ Unmapped K d r := by
  constructor
  · rintro ⟨d', h⟩
    obtain ⟨a, ha, hx⟩ := exec_delivered.mp h
    obtain ⟨hok, hlen⟩ := copyValue_eq_none.mp ha.symm
    rcases gated_cases hx with ⟨hden, -⟩ | ⟨hall, f, d1, hf, hs, hflag, hget⟩
    · rw [hden] at hok
      cases hok
    have hns := (lt_of_allowed hall).1
    obtain ⟨hne, hcommit, hl⟩ := cairnGet_ok hns hget hok
    rw [hs.head_eq] at hne hcommit hl
    have hset : settle d = d := settle_of_formatted (formatted_of_head hns hne)
    obtain ⟨b, d2, hb, hf⟩ := exec_bind.mp hf
    obtain ⟨rfl, rfl⟩ := hf
    rcases cairnLoadSuper_cases hb with ⟨rfl, rfl⟩ | ⟨hv, -, hd⟩
    · rw [hset] at hcommit hl
      simp only [Bool.true_and, hns, decide_true, revoked_load hns] at hflag
      exact ⟨hall, .inr (by simpa using hflag), hne, hcommit, hl ▸ hlen⟩
    · rw [hset, or_self] at hd
      subst hd
      exact ⟨hall, .inl (reads_of_load_failed (formatted_of_head hns hne) hb hv), hne, hcommit, hl ▸ hlen⟩
  · rintro ⟨hall, hgate, hne, hcommit, hlen⟩
    have hns := (lt_of_allowed hall).1
    -- the flag is not set, or the read that would show it fails
    obtain ⟨f, d1, hf, hflag, hd⟩ : ∃ f d1, (cairnNsRevoked w r.cairnNs).Exec K d f d1 ∧
        f.value = false ∧ (d1 = d ∨ d1 = settle d) := by
      rcases hgate with hK | hrev
      · refine ⟨_, d, exec_bind.mpr ⟨_, d, exec_bind.mpr ⟨_, d, exec_rw_read.mpr
          ⟨rfl, .inr ⟨hK, rfl⟩⟩, rfl, rfl⟩, rfl, rfl⟩, rfl, .inl rfl⟩
      · refine ⟨_, settle d, exec_bind.mpr ⟨_, _, exec_cairnLoadSuper K d w, rfl, rfl⟩, ?_, .inr rfl⟩
        simp [revoked_load hns, hrev]
    have hset : settle d = d := settle_of_formatted (formatted_of_head hns hne)
    obtain rfl : d1 = d := by rcases hd with rfl | rfl <;> [rfl; exact hset]
    obtain ⟨v, hget⟩ := exec_cairnGet (K := K) (w := f.window) hns hne hcommit
    have hkill : copyValue ⟨.ok, load v (d1 (commitFirstSector + head d1 r.cairnNs))⟩ = none :=
      copyValue_eq_none.mpr ⟨rfl, hlen.trans_eq (congrArg (valueOff + ·) len_window.symm)⟩
    refine ⟨settle d1, exec_delivered.mpr ⟨_, hkill.symm, exec_bind.mpr ⟨f, d1, hf, ?_⟩⟩⟩
    rw [if_neg (by simp [hflag]), if_pos hall]
    exact hget

/-! ### The walk of a mission rollback -/

/-- The walk of a rollback from `cur` is left within `n` iterations: at the end of the
chain, or at a record that is no reversible effect of the mission. -/
def Left (d : CairnDisk) (ahd : UInt32) : ℕ → ℕ → Prop
  | 0, _ => False
  | n + 1, cur => cur = noSlot ∨
    (isCommit (record d cur) && retractable ahd (record d cur)) = false ∨
      Left d ahd n (header (record d cur)).parent

theorem exec_chain_running {s : Staging} :
    (∃ d', (rollbackChain ahd sender ns n cur s w).Exec K d .running d') ↔ ¬ Left d ahd n cur := by
  induction n generalizing cur s w with
  | zero => exact iff_of_true ⟨d, rfl, rfl⟩ id
  | succ n ih =>
    rw [Left]
    by_cases hc : cur = noSlot
    · rw [rollbackChain, if_pos hc]
      exact iff_of_false (by rintro ⟨_, h, -⟩; cases h) fun h => h (.inl hc)
    constructor
    · rintro ⟨d', h⟩ hleft
      rcases (exec_rollbackChain_succ hc).mp h with ⟨hm, h⟩ | ⟨-, h, -⟩ | ⟨-, h, -⟩
      · rcases visit_cases h with ⟨hr, w', h⟩ | ⟨-, h⟩
        · rcases hleft with hleft | hleft | hleft
          · exact hc hleft
          · simp [hm, hr] at hleft
          · exact ih.mp ⟨d', h⟩ hleft
        · rcases h with ⟨⟨_, h⟩, -⟩ | ⟨⟨_, h⟩, -⟩ <;> cases h
      · cases h
      · cases h
    · intro hleft
      simp only [not_or, Bool.not_eq_false, Bool.and_eq_true] at hleft
      obtain ⟨-, ⟨hm, hr⟩, hleft⟩ := hleft
      obtain ⟨d', h⟩ := ih.mpr hleft
      refine ⟨d', (exec_rollbackChain_succ hc).mpr (.inl ⟨hm, ?_⟩)⟩
      rw [retractable, Bool.and_eq_true, beq_iff_eq] at hr
      simp only [visit, ofMission_window, hr.1, if_true, revClass_window, hr.2, parent_window]
      exact h

theorem exec_walk_running {s : Staging} {first m : ℕ} :
    (∃ d', (rollbackFrom n ahd sender m first s w).Exec K d .running d') ↔
      ∃ k < m, ∃ s₁ w₁ d₁, (rollbackFrom n ahd sender k first s w).Exec K d (.finished s₁ w₁) d₁ ∧
        ¬ Left d₁ ahd n (s₁.newHead (first + k)) := by
  induction m generalizing first s w d with
  | zero => exact iff_of_false (by rintro ⟨_, h, -⟩; cases h) fun ⟨k, hk, _⟩ => by omega
  | succ m ih =>
    constructor
    · rintro ⟨d', h⟩
      obtain ⟨x, d1, hx, h⟩ := exec_bind.mp h
      cases x with
      | running => exact ⟨0, by omega, s, w, d, ⟨rfl, rfl⟩, exec_chain_running.mp ⟨d1, hx⟩⟩
      | aborted w1 => cases h.1
      | finished s1 w1 =>
        obtain ⟨k, hk, s₁, w₁, d₁, hwalk, hleft⟩ := ih.mp ⟨d', h⟩
        refine ⟨k + 1, by omega, s₁, w₁, d₁, exec_bind.mpr ⟨_, d1, hx, hwalk⟩, ?_⟩
        rwa [Nat.add_right_comm] at hleft
    · rintro ⟨k, hk, s₁, w₁, d₁, hwalk, hleft⟩
      cases k with
      | zero =>
        obtain ⟨hfin, rfl⟩ := hwalk
        cases hfin
        obtain ⟨d', h⟩ := exec_chain_running.mpr hleft
        exact ⟨d', exec_bind.mpr ⟨_, d', h, rfl, rfl⟩⟩
      | succ k =>
        obtain ⟨x, d1, hx, h⟩ := exec_bind.mp hwalk
        cases x with
        | running | aborted w1 => cases h.1
        | finished s1 w1 =>
          obtain ⟨d', hrun⟩ := ih.mpr ⟨k, by omega, s₁, w₁, d₁, h,
            by rwa [Nat.add_right_comm]⟩
          exact ⟨d', exec_bind.mpr ⟨_, d1, hx, hrun⟩⟩

/-- The rollback of a request has been admitted and has walked over the first `ns`
namespaces; the disk is now `d₁`. -/
def Walked (K : Faults) (n : ℕ) (r : Request) (w : Bytes) (d : CairnDisk) (ns : ℕ) (s : Staging)
    (d₁ : CairnDisk) : Prop :=
  ∃ t v, (sfarTouchedNs r.sandIntent (initial d w).newHead (load w (superOf d))).Exec K (settle d)
      t (settle d) ∧ (t.value != 0 && !sfarAuthorized t.value r.caps) = false ∧
    (rollbackFrom n r.sandIntent r.sender ns 0 (initial d w) t.window).Exec K (settle d)
      (.finished s v) d₁

/-- Every walk of the rollback is left within `n` iterations, on the disk that it meets. -/
def Leaves (K : Faults) (n : ℕ) (r : Request) (w : Bytes) (d : CairnDisk) : Prop :=
  r.sandIntent ≠ 0 → ∀ ns < nsMax, ∀ s d₁, Walked K n r w d ns s d₁ →
    Left d₁ r.sandIntent n (s.newHead ns)

theorem exec_rollback_none (r : Request) :
    (∃ d', (dispatch n .sfarRollback r w).Exec K d none d') ↔ ¬ Leaves K n r w d := by
  have hmap : (∃ d', (dispatch n .sfarRollback r w).Exec K d none d') ↔
      ∃ d', (sfarRollback n r.sandIntent r.caps r.sender w).Exec K d none d' := by
    refine exists_congr fun d' => exec_bind.trans ⟨?_, fun h => ⟨none, d', h, rfl, rfl⟩⟩
    rintro ⟨a, d1, ha, hnone, rfl⟩
    rwa [Option.map_eq_none_iff.mp hnone.symm] at ha
  rw [hmap, Leaves]
  push Not
  by_cases h0 : r.sandIntent = 0
  · rw [sfarRollback, if_pos h0]
    exact iff_of_false (by rintro ⟨_, h, -⟩; cases h) fun h => h.1 h0
  constructor
  · rintro ⟨d', h⟩
    refine ⟨h0, ?_⟩
    rcases exec_sfarRollback h with
      ⟨_, hsome, -⟩ | ⟨-, t, ht, ⟨⟨_, hsome, -⟩, -⟩ | ⟨hden, x, d1, hx, h⟩⟩
    · cases hsome
    · cases hsome
    cases x with
    | aborted w1 => cases h.1
    | finished s1 w1 => exact absurd rfl (publish_disk h).1
    | running =>
      obtain ⟨ns, hns, s₁, w₁, d₁, hwalk, hleft⟩ := exec_walk_running.mp ⟨d1, hx⟩
      rw [Nat.zero_add] at hleft
      exact ⟨ns, hns, s₁, d₁, ⟨t, w₁, ht, hden, hwalk⟩, hleft⟩
  · rintro ⟨-, ns, hns, s₁, d₁, ⟨t, w₁, ht, hden, hwalk⟩, hleft⟩
    rw [← Nat.zero_add ns] at hleft
    obtain ⟨d', h⟩ := exec_walk_running.mpr ⟨ns, hns, s₁, w₁, d₁, hwalk, hleft⟩
    refine ⟨d', ?_⟩
    rw [sfarRollback, if_neg h0]
    refine exec_bind.mpr ⟨_, _, exec_cairnLoadSuper K d w, ?_⟩
    simp only [if_true, next_load]
    refine exec_bind.mpr ⟨t, _, ht, ?_⟩
    rw [if_neg (by simp [hden])]
    exact exec_bind.mpr ⟨_, d', h, rfl, rfl⟩

/-! ### All requests -/

theorem exec_answered_isSome {p : Program Sector (Answer Status)} {a : Option (Answer Status)}
    (h : (answered p).Exec K d a d') : a.isSome = true := by
  obtain ⟨b, rfl, -⟩ := exec_answered.mp h
  rfl

/-- What an answer to a request takes, if a walk may have `n` iterations. -/
def Answerable (K : Faults) (n : ℕ) (r : Request) (w : Bytes) (d : CairnDisk) : Op → Prop
  | .cairnGet => ¬ Unmapped K d r
  | .sfarRollback => Leaves K n r w d
  | _ => True

theorem dispatch_answers_iff {op : Op} (r : Request) :
    (∀ a d', (dispatch n op r w).Exec K d a d' → a.isSome = true) ↔ Answerable K n r w d op := by
  have hnone : ∀ {op : Op}, (∀ a d', (dispatch n op r w).Exec K d a d' → a.isSome = true) ↔
      ¬ ∃ d', (dispatch n op r w).Exec K d none d' := by
    refine ⟨fun h ⟨d', hx⟩ => absurd (h none d' hx) (by decide), fun h a d' hx => ?_⟩
    cases a with
    | none => exact absurd ⟨d', hx⟩ h
    | some a => rfl
  cases op with
  | cairnGet => exact hnone.trans (not_congr (exec_get_none r))
  | sfarRollback => exact hnone.trans ((not_congr (exec_rollback_none r)).trans not_not)
  | _ => exact iff_of_true (fun a d' h => exec_answered_isSome h) trivial

theorem serve_answers_iff {r : Request} {Q : Op → Prop}
    (hQ : ∀ op, (∀ a d', (dispatch n op r w).Exec K d a d' → a.isSome = true) ↔ Q op) :
    (∀ f : Schedule, f.Within K → ((serve n r w).run f d).1.isSome = true) ↔
      (r.wellFormed = true → ∀ op, r.op = some op → Q op) := by
  rw [forall_run_iff (Q := fun a : Option Reply => a.isSome = true)]
  unfold serve
  split_ifs with hw
  · cases hop : r.op with
    | none => exact iff_of_true (by rintro a d' ⟨rfl, -⟩; rfl) (by simp)
    | some op =>
      simp only [hw, true_imp_iff, Option.some.injEq, forall_eq', ← hQ op]
      refine ⟨fun h a d' hx => ?_, fun h a d' hx => ?_⟩
      · have := h _ d' (exec_bind.mpr ⟨a, d', hx, rfl, rfl⟩)
        rwa [Option.isSome_map] at this
      · obtain ⟨b, d1, hb, rfl, -⟩ := exec_bind.mp hx
        rw [Option.isSome_map]
        exact h b d1 hb
  · exact iff_of_true (by rintro a d' ⟨rfl, -⟩; rfl) fun h => absurd h hw

/-- With at most 256 iterations in a walk, every store request makes at most seventeen
accesses for every commit slot, whatever the disk contains and whatever fails. It is
answered in every run with the given faults exactly if the copy of a read finds the whole
value mapped, and every walk of a mission rollback is left within its iterations. On a
well-formed store 256 iterations are enough. -/
theorem request_terminates (K : Faults) (n : ℕ) (r : Request)
    (hr : ∀ op, r.op = some op → isStoreOp op = true) (w : Bytes) (d : CairnDisk) :
    (n ≤ commitSlots + 1 → (serve n r w).Takes (17 * commitSlots)) ∧
      ((∀ f : Schedule, f.Within K → ((serve n r w).run f d).1.isSome = true) ↔
        (r.wellFormed = true → ∀ op, r.op = some op → Answerable K n r w d op)) ∧
      (StoreInv d → commitSlots < n → Leaves K n r w d) := by
  refine ⟨fun hn => ?_, serve_answers_iff fun op => dispatch_answers_iff r, fun hd hn => ?_⟩
  · unfold serve
    split
    · split
      · trivial
      · next op hop =>
          have hstore := stays_store (Q := fun _ => True) (P := fun _ _ => True) (w := w)
            (fun _ => trivial) (fun _ => trivial) (hr op hop) (fun _ _ _ => trivial) n r
          have hbound : accessBound = 4335 := rfl
          have hscan : scanBound = 2040 := rfl
          have hwithin := hstore.mono (m := accessBound) (by
            simp only [commitSlots, nsMax] at *
            omega)
          refine (hwithin.andThen le_rfl fun _ => ?_).takes
          trivial
    · trivial
  · by_contra hleaves
    obtain ⟨d', h⟩ := (exec_rollback_none r).mpr hleaves
    obtain ⟨a, d1, ha, hnone, rfl⟩ := exec_bind.mp h
    rcases sfarRollback_cases hd ha with ⟨-, hfuel, -⟩ | ⟨b, rfl, -⟩
    · omega
    · cases hnone

/-- A plain request ends within eight accesses, all below the Cairn region. -/
theorem plain_answered (r : Request) (hr : ∀ op, r.op = some op → plain op = true)
    (w : Bytes) (f : Schedule) (d : CairnDisk) :
    (serve (commitSlots + 1) r w).Stays (· < superSector) (fun s _ => s < superSector) 8 ∧
      ((serve (commitSlots + 1) r w).run f d).1.isSome = true := by
  unfold serve
  split
  · split
    · exact ⟨trivial, rfl⟩
    · next op hop =>
        have hp := hr op hop
        refine ⟨(stays_plain hp (fun _ h => h) (fun _ _ => legacy_below) (fun _ _ _ h => h) _
          r).andThen le_rfl fun _ => trivial, ?_⟩
        rw [run_bind]
        have hanswer : Answerable .all (commitSlots + 1) r w d op := by
          cases op <;> trivial
        exact Option.isSome_map.trans
          ((dispatch_answers_iff r).mpr hanswer _ _ (exec_run _ (Schedule.Within.all f)))
  · exact ⟨trivial, rfl⟩

theorem plain_answered_pset :
    (serve (commitSlots + 1) ⟨typedWord 4 1 0 0, 1, 0, fun _ => 0⟩ fun _ => 0).Stays
        (· < superSector) (fun s _ => s < superSector) 8 ∧
      ((serve (commitSlots + 1) ⟨typedWord 4 1 0 0, 1, 0, fun _ => 0⟩ fun _ => 0).run .clean
        blank).1.isSome = true :=
  plain_answered _ (fun _ h => by cases h; rfl) _ .clean blank

/-! ### A cycle -/

/-- The rollback of a mission, with every capability. -/
def rollbackRequest (mission : ℕ) : Request where
  word := typedWord 52 mission 0 0
  sender := 1
  caps := allCairnNsCaps
  input := fun _ => 0

def loopHeader : CommitHeader where
  slot := 0
  parent := 0
  ns := 0
  hash := 0
  actor := 1
  flags := 1
  len := 0
  intent := 1
  derived := 0
  revClass := 0
  status := statusCommitted
  generation := 1

def oneRecord (h : CommitHeader) : CairnDisk :=
  Function.update
    (Function.update blank superSector
      (take sectorSize (putU32 (bytes freshSuper) (nsEntryOff 0 + nsOffHead) 0)))
    commitFirstSector (commitSector h (fun _ => 0) 0)

def cyclic : CairnDisk := oneRecord loopHeader

theorem head_cyclic : head cyclic 0 = 0 := by decide +kernel

theorem record_cyclic : isCommit (record cyclic 0) = true ∧ ofMission 1 (record cyclic 0) = true ∧
    RevClass.ofByte (record cyclic 0 offRevclass) = .reversible ∧
    (header (record cyclic 0)).parent = 0 := by decide +kernel

theorem not_left_cyclic (n : ℕ) : ¬ Left cyclic 1 n 0 := by
  induction n with
  | zero => exact id
  | succ n ih =>
    obtain ⟨hcommit, hmission, hclass, hparent⟩ := record_cyclic
    rw [Left, hparent]
    simp [hcommit, retractable, hmission, hclass, ih, noSlot]

/-- The rollback of no mission is answered on that disk, whatever fails. -/
theorem request_terminates_cyclic :
    (serve (commitSlots + 1) (rollbackRequest 0) fun _ => 0).Takes (17 * commitSlots) ∧
      ∀ f, f.Within .all →
        ((serve (commitSlots + 1) (rollbackRequest 0) fun _ => 0).run f cyclic).1.isSome = true := by
  have hop : (rollbackRequest 0).op = some .sfarRollback := by decide
  have h := request_terminates .all (commitSlots + 1) (rollbackRequest 0)
    (fun op h => by
      rw [hop] at h
      exact Option.some.inj h ▸ rfl) (fun _ => 0) cyclic
  refine ⟨h.1 le_rfl, h.2.1.mpr fun _ op h => ?_⟩
  rw [hop] at h
  obtain rfl := Option.some.inj h
  exact fun h0 => absurd (by decide) h0

/-- On that disk the daemon never answers: however many iterations it is given,
the rollback is still running. -/
theorem cycle_never_answered :
    (rollbackRequest 1).op = some .sfarRollback ∧
      ∀ fuel w, ((serve fuel (rollbackRequest 1) w).eval cyclic).1 = none := by
  have hop : (rollbackRequest 1).op = some .sfarRollback := by decide
  have hintent : (rollbackRequest 1).sandIntent = 1 := by decide
  have hset : settle cyclic = cyclic := settle_of_formatted (by decide +kernel)
  refine ⟨hop, fun fuel w => ?_⟩
  have hnone : ∃ d', (dispatch fuel .sfarRollback (rollbackRequest 1) w).Exec .none cyclic none d' := by
    refine (exec_rollback_none _).mpr fun hleaves => ?_
    have hscan := exec_eval .none (sfarTouchedNs (rollbackRequest 1).sandIntent
      (initial cyclic w).newHead (load w (superOf cyclic))) (settle cyclic)
    rw [(scanFrom_cases (local_noteTouched _) hscan).1] at hscan
    have hauth (t : ℕ) : (t != 0 && !sfarAuthorized t allCairnNsCaps) = false := by
      rw [sfarAuthorized_iff.mpr fun ns hns _ => holdsNs_allCairnNsCaps ns hns]
      exact Bool.and_false _
    have hleft := hleaves (by rw [hintent]; decide) 0 (by decide) (initial cyclic w) (settle cyclic)
      ⟨_, _, hscan, hauth _, rfl, rfl⟩
    rw [hintent, hset, show (initial cyclic w).newHead 0 = 0 from
      (heads_load (by decide)).trans head_cyclic] at hleft
    exact not_left_cyclic fuel hleft
  obtain ⟨d', h⟩ := hnone
  rw [serve, if_pos (by decide), hop]
  simp only
  rw [eval_bind, exec_none.mp h]
  rfl

end Dezh.RequestTermination

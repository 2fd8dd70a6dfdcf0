import Dezh.DaemonAccess

/-!
# The values of one namespace

The values of a namespace are the value bytes of the allocated records that name
it, live or retracted. Two disks are equal up to the values of a namespace when
they agree everywhere else. Such disks have the same superblock and the same
headers, so the same chains, and they differ in one sector exactly when that
sector holds a nonempty value of the namespace.
-/
namespace Dezh.NamespaceSecrets
open Function BlockProgram Program ByteLayout ParentChain CairnFormat CairnService SfarService CairnStore
open CairnOutcomes MissionScan MissionUndo MissionPublish StoreRuns MissionExact BlockDaemon
open DaemonAccess DaemonWalks

variable {R W : Set ℕ} {d d' e : CairnDisk} {ns m : ℕ} {w : Bytes}
variable {sector slot : ℕ} {flag : Bool} {A : Type}

/-- An allocated record that names the namespace. -/
structure Owned (d : CairnDisk) (ns slot : ℕ) : Prop where
  lt : slot < next d
  commit : isCommit (record d slot) = true
  ns_eq : (header (record d slot)).ns = ns

def publicSectors (d : CairnDisk) (ns : ℕ) : Set ℕ :=
  {s | ∀ slot, Owned d ns slot → s ≠ commitFirstSector + slot}

/-- The sector holds a nonempty value of the namespace. -/
def Exposes (d : CairnDisk) (ns sector : ℕ) : Prop :=
  ∃ slot, sector = commitFirstSector + slot ∧ Owned d ns slot ∧ 0 < (header (record d slot)).len

/-- Byte `i` of a sector belongs to a value of the namespace. -/
def ValueByte (d : CairnDisk) (ns sector i : ℕ) : Prop :=
  ∃ slot, sector = commitFirstSector + slot ∧ Owned d ns slot ∧ valueOff ≤ i ∧
    i < valueOff + (header (record d slot)).len

/-- The disks agree on every byte that is not a value of the namespace. -/
def SecretEq (ns : ℕ) (d e : CairnDisk) : Prop :=
  ∀ sector (i : Fin sectorSize), ¬ ValueByte d ns sector i → e sector i = d sector i

theorem super_public : superSector ∈ publicSectors d ns :=
  fun slot _ h => slot_ne_super slot h.symm

theorem below_public (h : sector ∈ below) : sector ∈ publicSectors d ns := by
  intro slot _ hs
  have hlt : sector < 1600 := h
  simp only [commitFirstSector] at hs
  omega

theorem next_public : commitFirstSector + next d ∈ publicSectors d ns := by
  intro slot ho hs
  have := ho.lt
  omega

theorem chain_public (hi : StoreInv d) (hm : m < nsMax) (hne : m ≠ ns)
    (hs : slot ∈ liveChain d m) : commitFirstSector + slot ∈ publicSectors d ns := by
  intro slot' ho h
  obtain rfl : slot = slot' := by omega
  obtain ⟨depth, hg⟩ := (hi.chain m hm).exists_good hs
  exact hne (hg.ns_eq.symm.trans ho.ns_eq)

theorem owned_of_live (hi : StoreInv d) (hns : ns < nsMax)
    (hs : slot ∈ liveChain d ns) : Owned d ns slot := by
  obtain ⟨depth, hg⟩ := (hi.chain ns hns).exists_good hs
  exact ⟨hi.below ns hns slot hs, hg.commit, hg.ns_eq⟩

theorem not_public_of_owned (h : Owned d ns slot) : commitFirstSector + slot ∉ publicSectors d ns :=
  fun hp => hp slot h rfl

namespace SecretEq

theorem refl (ns : ℕ) (d : CairnDisk) : SecretEq ns d d := fun _ _ _ => rfl

variable (h : SecretEq ns d e)
include h

theorem sector_eq (hs : ∀ i : Fin sectorSize, ¬ ValueByte d ns sector i) :
    e sector = d sector := funext fun i => h sector i (hs i)

theorem public_eq (hs : sector ∈ publicSectors d ns) : e sector = d sector := by
  refine h.sector_eq ?_
  rintro i ⟨slot, rfl, ho, -⟩
  exact hs slot ho rfl

theorem superOf_eq : superOf e = superOf d := by
  unfold superOf formatted
  rw [h.public_eq super_public]

theorem next_eq : next e = next d := by rw [next, next, h.superOf_eq]

theorem head_eq (m : ℕ) : head e m = head d m := by rw [head, head, h.superOf_eq]

theorem count_eq (m : ℕ) : count e m = count d m := by rw [count, count, h.superOf_eq]

theorem revoked_eq (m : ℕ) : revoked e m = revoked d m := by rw [revoked, revoked, h.superOf_eq]

theorem record_eq {i : ℕ} (hi : i < valueOff) : record e slot i = record d slot i := by
  have hs : i < sectorSize := Nat.lt_of_lt_of_le hi (by decide)
  rw [record, record, bytes_of_lt hs, bytes_of_lt hs]
  refine h _ ⟨i, hs⟩ ?_
  rintro ⟨slot', -, -, hle, -⟩
  exact absurd hi (Nat.not_lt.mpr hle)

theorem header_eq (slot : ℕ) : header (record e slot) = header (record d slot) :=
  header_congr fun _ hi => h.record_eq (Nat.lt_of_lt_of_le hi (by decide))

theorem isCommit_eq (slot : ℕ) : isCommit (record e slot) = isCommit (record d slot) :=
  isCommit_congr fun _ hi => h.record_eq (Nat.lt_of_lt_of_le hi (by decide))

theorem ofMission_eq (ahd : UInt32) (slot : ℕ) :
    ofMission ahd (record e slot) = ofMission ahd (record d slot) :=
  congrArg (fun b : CommitHeader => b.intent == ahd.toNat) (h.header_eq slot)

theorem liveChain_eq (m : ℕ) : liveChain e m = liveChain d m := by
  rw [liveChain, liveChain, h.head_eq]
  exact follow_congr (fun s => congrArg CommitHeader.parent (h.header_eq s)) h.isCommit_eq

theorem touches_iff (ahd : UInt32) (m : ℕ) : Touches e ahd m ↔ Touches d ahd m := by
  simp only [Touches, h.liveChain_eq, h.ofMission_eq]

theorem storeInv (hi : StoreInv d) : StoreInv e := by
  refine .of_chains (h.next_eq.trans_le hi.next_le) fun m hm => ⟨liveChain d m, ?_, ?_, ?_⟩
  · rw [h.head_eq]
    refine (hi.chain m hm).map (fun s _ => congrArg CommitHeader.parent (h.header_eq s)) ?_
    intro s _ k hg
    exact ⟨(h.isCommit_eq s).trans hg.commit, by rw [h.header_eq, hg.slot_eq],
      by rw [h.header_eq, hg.ns_eq], by rw [h.header_eq, hg.generation_eq]⟩
  · intro slot hs
    rw [h.next_eq]
    exact hi.below m hm slot hs
  · rw [h.count_eq]
    exact hi.count_eq m hm

end SecretEq

theorem sector_eq_iff : (∀ e, SecretEq ns d e → e sector = d sector) ↔ ¬ Exposes d ns sector := by
  constructor
  · rintro hall ⟨slot, rfl, ho, hlen⟩
    have hoff : valueOff < sectorSize := by decide
    have hflip : SecretEq ns d (update d (commitFirstSector + slot)
        (update (d (commitFirstSector + slot)) ⟨valueOff, hoff⟩
          (d (commitFirstSector + slot) ⟨valueOff, hoff⟩ + 1))) := by
      intro s i hv
      by_cases hs : s = commitFirstSector + slot
      · subst hs
        rw [update_self]
        refine update_of_ne ?_ _ _
        rintro rfl
        exact hv ⟨slot, rfl, ho, le_rfl, Nat.lt_add_of_pos_right hlen⟩
      · rw [update_of_ne hs]
    have hsame := congrFun (hall _ hflip) ⟨valueOff, hoff⟩
    rw [update_self, update_self] at hsame
    exact absurd hsame (by simp)
  · intro hno e he
    refine he.sector_eq ?_
    rintro i ⟨slot, rfl, ho, hle, hlt⟩
    exact hno ⟨slot, rfl, ho, by omega⟩

section
variable {K : Faults} {a : Answer Status} {caps : ℕ}

/-- The store keeps its ledger and every namespace but `m` keeps its entry. -/
structure OnlyTouches (d d' : CairnDisk) (m : ℕ) : Prop where
  ext : Extends d d'
  inv : StoreInv d → StoreInv d'
  entry : ∀ ns < nsMax, ns ≠ m →
    head d' ns = head d ns ∧ count d' ns = count d ns ∧ revoked d' ns = revoked d ns

theorem OnlyTouches.of_same (h : SameStore d d') : OnlyTouches d d' m :=
  ⟨h.toExtends, h.storeInv, fun ns _ _ => ⟨h.head_eq ns, h.count_eq ns, h.revoked_eq ns⟩⟩

theorem OnlyTouches.after {d1 : CairnDisk} (h : SameStore d d1) (h' : OnlyTouches d1 d' m) :
    OnlyTouches d d' m := by
  refine ⟨extends_trans h.toExtends h'.ext, fun hi => h'.inv (h.storeInv hi), fun ns hns hne => ?_⟩
  obtain ⟨h1, h2, h3⟩ := h'.entry ns hns hne
  exact ⟨h1.trans (h.head_eq ns), h2.trans (h.count_eq ns), h3.trans (h.revoked_eq ns)⟩

theorem onlyTouches_commit {input : Bytes} {len sender : ℕ} {intent derived : UInt32}
    {revClass : UInt8} (hm : m < nsMax)
    (h : (cairnCommit input w m len sender intent derived revClass).Exec K d a d') :
    OnlyTouches d d' m := by
  have hprog : (Mutation.commit input w ⟨m, hm⟩ len sender intent derived revClass).program.Exec K d
      (some a.value) d' := exec_bind.mpr ⟨a, d', h, rfl, rfl⟩
  have hcommit : next d < commitSlots →
      d' = committed d input m len sender intent derived revClass → OnlyTouches d d' m := by
    rintro hn rfl
    refine ⟨committed_extends hn, fun hi => Mutation.storeInv hi hprog, fun ns hns hne => ?_⟩
    rw [head_committed hn hns, count_committed hns, revoked_committed hns, if_neg hne, if_neg hne]
    exact ⟨rfl, rfl, rfl⟩
  rcases cairnCommit_cases hm h with ⟨hn, -, hd⟩ | ⟨-, -, hs⟩ | ⟨-, -, hn, hd⟩
  · exact hcommit hn hd
  · exact .of_same hs
  · exact hcommit hn hd

theorem onlyTouches_rollback {steps : ℕ} (hm : m < nsMax)
    (h : (cairnRollback w m steps).Exec K d a d') : OnlyTouches d d' m := by
  have hprog : (Mutation.rollback w ⟨m, hm⟩ steps).program.Exec K d (some a.value) d' :=
    exec_bind.mpr ⟨a, d', h, rfl, rfl⟩
  rcases cairnRollback_cases hm h with ⟨-, -, hs⟩ | ⟨cur, walked, -, -, -, rfl⟩ | ⟨-, -, hs⟩
  · exact .of_same hs
  · refine ⟨retreated_extends, fun hi => Mutation.storeInv hi hprog, fun ns hns hne => ?_⟩
    rw [head_retreated hns, count_retreated hns, revoked_retreated hns, if_neg hne, if_neg hne]
    exact ⟨rfl, rfl, rfl⟩
  · exact .of_same hs

theorem onlyTouches_setRevoked (hm : m < nsMax)
    (h : (cairnNsSetRevoked w m flag).Exec K d a d') : OnlyTouches d d' m := by
  have hprog : (Mutation.setRevoked w ⟨m, hm⟩ flag).program.Exec K d (some a.value) d' :=
    exec_bind.mpr ⟨a, d', h, rfl, rfl⟩
  have hflag : d' = flagged d m (if flag then 1 else 0) → OnlyTouches d d' m := by
    rintro rfl
    refine ⟨flagged_extends, fun hi => Mutation.storeInv hi hprog, fun ns hns hne => ?_⟩
    rw [head_flagged hns, count_flagged hns, revoked_flagged hns, if_neg hne]
    exact ⟨rfl, rfl, rfl⟩
  rcases cairnNsSetRevoked_cases hm h with ⟨-, hd⟩ | ⟨-, -, hs | ⟨-, hd⟩⟩
  · exact hflag hd
  · exact .of_same hs
  · exact hflag hd

/-- Behind the load of the superblock nothing is written. -/
theorem same_of_loaded {n : ℕ} {k : Answer Bool → Program Sector A} {b : A}
    (h : (cairnLoadSuper w >>= k).Exec K d b d')
    (hk : ∀ r, (k r).Stays (fun _ => True) (fun _ _ => False) n) : SameStore d d' := by
  obtain ⟨r, d1, hr, hx⟩ := exec_bind.mp h
  rw [((hk r).emits d1).disk_eq hx]
  exact cairnLoadSuper_same hr

theorem ledgerView_same {b : Answer (Status × List (ℕ × CommitHeader))}
    (h : (ledgerView w m).Exec K d b d') : SameStore d d' := by
  refine same_of_loaded (n := 8) h fun r => ?_
  split
  · exact stays_ledgerWalk (fun _ => trivial) 8 _ _
  · trivial

theorem sfarPlan_same {ahd : UInt32} {b : Answer PlanReply}
    (h : (sfarPlan ahd caps w).Exec K d b d') : SameStore d d' := by
  unfold sfarPlan at h
  split at h
  · rw [h.2]
    exact .refl d
  · refine same_of_loaded (n := scanBound + scanBound) h fun r => ?_
    split
    · refine (stays_scanFrom (fun _ => trivial) nsMax 0 0 _).bind fun t => ?_
      split
      · trivial
      · refine (stays_scanFrom (fun _ => trivial) nsMax 0 _ _).andThen le_rfl fun p => ?_
        split
        all_goals trivial
    · trivial

theorem tbar_same {ahd : UInt32} {b : Answer TbarReply}
    (h : (tbar ahd caps w).Exec K d b d') : SameStore d d' := by
  unfold tbar at h
  split at h
  · rw [h.2]
    exact .refl d
  · refine same_of_loaded (n := scanBound + scanBound) h fun r => ?_
    split
    · refine (stays_scanFrom (fun _ => trivial) nsMax 0 0 _).bind fun t => ?_
      split
      · trivial
      · split
        · exact (stays_scanFrom (fun _ => trivial) nsMax 0 _ _).andThen le_rfl fun _ => trivial
        · trivial
    · trivial

theorem withHead_same {failed : Status → A} {k : ℕ → Bytes → Answer A} {b : Answer A}
    (h : (withHead w m failed k).Exec K d b d') : SameStore d d' := by
  rw [withHead, cairnLoadHead, bind_assoc] at h
  refine same_of_loaded (n := 1) h fun r => Stays.andThen (n := 1) ?_ le_rfl fun x => ?_
  · split
    · dsimp only
      split
      · trivial
      · refine (stays_rw_read trivial).andThen le_rfl fun s => ?_
        split
        all_goals trivial
    · trivial
  · split
    · trivial
    · split
      all_goals trivial

theorem statusOnly_same {status : A → Status} {p : Program Sector (Answer A)}
    (hp : ∀ b d', p.Exec K d b d' → SameStore d d') (h : (statusOnly status p).Exec K d a d') :
    SameStore d d' := by
  obtain ⟨b, d1, hb, -, rfl⟩ := exec_bind.mp h
  exact hp b d' hb

theorem gated_cases {k : Bytes → Program Sector (Answer Status)}
    (h : (gated m caps w k).Exec K d a d') :
    a.value = .denied ∧ SameStore d d' ∨
      cairnNsAllowed m caps = true ∧ ∃ f d1, (cairnNsRevoked w m).Exec K d f d1 ∧
        SameStore d d1 ∧ f.value = false ∧ (k f.window).Exec K d1 a d' := by
  obtain ⟨f, d1, hf, hk⟩ := exec_bind.mp h
  have hs : SameStore d d1 := by
    obtain ⟨r, d2, hr, -, rfl⟩ := exec_bind.mp hf
    exact cairnLoadSuper_same hr
  split at hk
  · obtain ⟨rfl, rfl⟩ := hk
    exact .inl ⟨rfl, hs⟩
  · next hflag =>
      split at hk
      · next hall => exact .inr ⟨hall, f, d1, hf, hs, Bool.eq_false_of_not_eq_true hflag, hk⟩
      · obtain ⟨rfl, rfl⟩ := hk
        exact .inl ⟨rfl, hs⟩

theorem lt_of_allowed (h : cairnNsAllowed m caps = true) : m < nsMax ∧
    holdsNs caps m = true := by
  rw [cairnNsAllowed, Bool.and_eq_true, decide_eq_true_eq] at h
  exact h

end

section
variable {K : Faults} {fuel caps : ℕ} {op : Op} {r : Request} {w : Bytes} {a : Answer Status}
  {b : Option (Answer Status)} {k : Bytes → Program Sector (Answer Status)}

/-- The operations that reach at most the namespace they name. The raw block
accesses and the mission operations are not among them. -/
def guarded : Op → Bool
  | .bwrite | .bread | .sfarPlan | .sfarRollback | .tbar => false
  | _ => true

theorem exec_answered {p : Program Sector (Answer Status)} :
    (answered p).Exec K d b d' ↔ ∃ a, b = some a ∧ p.Exec K d a d' := by
  rw [answered, exec_bind]
  constructor
  · rintro ⟨a, d1, h, rfl, rfl⟩
    exact ⟨a, rfl, h⟩
  · rintro ⟨a, rfl, h⟩
    exact ⟨a, d', h, rfl, rfl⟩

theorem exec_delivered {p : Program Sector (Answer Status)} :
    (delivered p).Exec K d b d' ↔ ∃ a, b = copyValue a ∧ p.Exec K d a d' := by
  rw [delivered, exec_bind]
  constructor
  · rintro ⟨a, d1, h, rfl, rfl⟩
    exact ⟨a, rfl, h⟩
  · rintro ⟨a, rfl, h⟩
    exact ⟨a, d', h, rfl, rfl⟩

theorem plain_same (hop : plain op = true)
    (h : (dispatch fuel op r w).Exec K d b d') : SameStore d d' := by
  have hframe : ∀ sector, ¬ sector < 1600 → d' sector = d sector :=
    fun sector hs => (confined_plain hop fuel r).frame h hs
  have hsuper : d' superSector = d superSector := hframe _ (by decide)
  refine ⟨?_, fun slot _ => hframe _ (by simp only [commitFirstSector]; omega)⟩
  unfold superOf formatted
  rw [hsuper]

def gatedOp : Op → Bool
  | .cairnCommit | .cairnGet | .cairnLog | .cairnRollback | .cairnVerify | .sandLog
  | .sandInfo => true
  | _ => false

def alters : Op → Bool
  | .cairnCommit | .cairnRollback | .nsRevoke | .nsGrant => true
  | _ => false

theorem gated_same (hk : ∀ d1 w1, (k w1).Exec K d1 a d' → SameStore d1 d')
    (h : (gated m caps w k).Exec K d a d') : SameStore d d' := by
  rcases gated_cases h with ⟨-, hs⟩ | ⟨-, f, d1, -, hs, -, hx⟩
  · exact hs
  · exact hs.trans (hk d1 f.window hx)

theorem gated_effect (hk : m < nsMax → ∀ d1 w1, (k w1).Exec K d1 a d' → OnlyTouches d1 d' m)
    (h : (gated m caps w k).Exec K d a d') :
    OnlyTouches d d' m ∧ (cairnNsAllowed m caps = false → SameStore d d') := by
  rcases gated_cases h with ⟨-, hs⟩ | ⟨hall, f, d1, -, hs, -, hx⟩
  · exact ⟨.of_same hs, fun _ => hs⟩
  · refine ⟨.after hs (hk (lt_of_allowed hall).1 d1 f.window hx), fun hno => ?_⟩
    rw [hall] at hno
    cases hno

theorem setRevoked_effect (h : (setRevoked m caps w flag).Exec K d a d') :
    OnlyTouches d d' m ∧ (cairnNsAllowed m caps = false → SameStore d d') := by
  unfold setRevoked at h
  split at h
  · next hall =>
      refine ⟨onlyTouches_setRevoked (lt_of_allowed hall).1 h, fun hno => ?_⟩
      rw [hall] at hno
      cases hno
  · obtain ⟨-, rfl⟩ := h
    exact ⟨.of_same (.refl d'), fun _ => .refl d'⟩

theorem dispatch_same (hop : guarded op = true)
    (halter : alters op = false) (h : (dispatch fuel op r w).Exec K d b d') : SameStore d d' := by
  by_cases hplain : plain op = true
  · exact plain_same hplain h
  cases op with
  | cairnInit =>
    obtain ⟨a, -, hx⟩ := exec_answered.mp h
    obtain ⟨s, d1, hs, -, rfl⟩ := exec_bind.mp hx
    exact cairnLoadSuper_same hs
  | cairnStatus =>
    obtain ⟨a, -, hx⟩ := exec_answered.mp h
    refine statusOnly_same (fun b d' hb => ?_) hx
    obtain ⟨s, d1, hs, hk⟩ := exec_bind.mp hb
    have hd : d' = d1 := by
      split at hk
      · exact hk.2
      · exact hk.2
    rw [hd]
    exact cairnLoadSuper_same hs
  | cairnGet =>
    obtain ⟨a, -, hx⟩ := exec_delivered.mp h
    exact gated_same (fun _ _ hc => withHead_same hc) hx
  | cairnVerify =>
    obtain ⟨a, -, hx⟩ := exec_answered.mp h
    exact gated_same (fun _ _ hc => withHead_same hc) hx
  | cairnLog | sandLog =>
    obtain ⟨a, -, hx⟩ := exec_answered.mp h
    exact gated_same (fun _ _ hc => statusOnly_same (fun _ _ => ledgerView_same) hc) hx
  | sandInfo =>
    obtain ⟨a, -, hx⟩ := exec_answered.mp h
    exact gated_same (fun _ _ hc => statusOnly_same (fun _ _ => withHead_same) hc) hx
  | cairnCommit | cairnRollback | nsRevoke | nsGrant => cases halter
  | bwrite | bread | sfarPlan | sfarRollback | tbar => cases hop
  | _ => exact absurd rfl hplain

theorem dispatch_effect (hop : guarded op = true)
    (h : (dispatch fuel op r w).Exec K d b d') :
    OnlyTouches d d' r.cairnNs ∧
      (cairnNsAllowed r.cairnNs r.caps = false → SameStore d d') := by
  cases halter : alters op with
  | false =>
    have hs := dispatch_same hop halter h
    exact ⟨.of_same hs, fun _ => hs⟩
  | true =>
    cases op with
    | cairnCommit =>
      obtain ⟨a, -, hx⟩ := exec_answered.mp h
      exact gated_effect (fun hm _ _ hc => onlyTouches_commit hm hc) hx
    | cairnRollback =>
      obtain ⟨a, -, hx⟩ := exec_answered.mp h
      exact gated_effect (fun hm _ _ hc => onlyTouches_rollback hm hc) hx
    | nsRevoke | nsGrant =>
      obtain ⟨a, -, hx⟩ := exec_answered.mp h
      exact setRevoked_effect hx
    | _ => cases halter

theorem confined_cairnNsRevoked (hR : superSector ∈ R) (hW : superSector ∈ W) :
    (cairnNsRevoked w m).Confined R W d :=
  (confined_cairnLoadSuper hR hW).bind fun _ _ _ => trivial

theorem confined_gated (hk : cairnNsAllowed m caps = true → ∀ d1 w1, SameStore d d1 →
      (k w1).Confined (publicSectors d ns) (publicSectors d ns) d1) :
    (gated m caps w k).Confined (publicSectors d ns) (publicSectors d ns) d := by
  refine (confined_cairnNsRevoked super_public super_public).bind fun f d1 hf => ?_
  obtain ⟨s, d2, hs, -, rfl⟩ := exec_bind.mp hf
  split
  · trivial
  · split
    · next hall => exact hk hall d1 _ (cairnLoadSuper_same hs)
    · trivial

theorem confined_setRevoked :
    (setRevoked m caps w flag).Confined (publicSectors d ns) (publicSectors d ns) d := by
  unfold setRevoked
  split
  · exact confined_cairnNsSetRevoked super_public super_public
  · trivial

variable (fuel w) in
theorem confined_guarded (hi : StoreInv d) (hop : guarded op = true)
    (hns : gatedOp op = true → r.cairnNs ≠ ns ∨ cairnNsAllowed r.cairnNs r.caps = false) :
    (dispatch fuel op r w).Confined (publicSectors d ns) (publicSectors d ns) d := by
  by_cases hplain : plain op = true
  · exact (confined_plain hplain fuel r).mono (fun _ => below_public) fun _ => below_public
  have hchain : gatedOp op = true → cairnNsAllowed r.cairnNs r.caps = true → ∀ d1, SameStore d d1 →
      ∀ slot ∈ liveChain d1 r.cairnNs, commitFirstSector + slot ∈ publicSectors d ns := by
    intro hgate hall d1 hs slot hslot
    have hm := (lt_of_allowed hall).1
    rw [hs.liveChain_eq hi hm] at hslot
    refine chain_public hi hm ((hns hgate).resolve_right ?_) hslot
    rw [hall]
    decide
  cases op with
  | cairnInit =>
    exact confined_answered ((confined_cairnLoadSuper super_public super_public).bind
      fun _ _ _ => trivial)
  | cairnStatus =>
    refine confined_answered (confined_statusOnly
      ((confined_cairnLoadSuper super_public super_public).bind fun s _ _ => ?_))
    split <;> trivial
  | cairnCommit =>
    refine confined_answered (confined_gated fun _ d1 w1 hs => ?_)
    refine confined_cairnCommit super_public super_public ?_
    rw [hs.next_eq]
    exact next_public
  | cairnRollback =>
    refine confined_answered (confined_gated fun hall d1 w1 hs => ?_)
    exact confined_cairnRollback (hs.storeInv hi) (lt_of_allowed hall).1 super_public super_public
      (hchain rfl hall d1 hs)
  | cairnGet =>
    refine confined_delivered (confined_gated fun hall d1 w1 hs => ?_)
    exact confined_withHead (hs.storeInv hi) (lt_of_allowed hall).1 super_public super_public
      (hchain rfl hall d1 hs)
  | cairnVerify =>
    refine confined_answered (confined_gated fun hall d1 w1 hs => ?_)
    exact confined_withHead (hs.storeInv hi) (lt_of_allowed hall).1 super_public super_public
      (hchain rfl hall d1 hs)
  | cairnLog | sandLog =>
    refine confined_answered (confined_gated fun hall d1 w1 hs => confined_statusOnly ?_)
    exact confined_ledgerView (hs.storeInv hi) (lt_of_allowed hall).1 super_public super_public
      (hchain rfl hall d1 hs)
  | sandInfo =>
    refine confined_answered (confined_gated fun hall d1 w1 hs => confined_statusOnly ?_)
    exact confined_withHead (hs.storeInv hi) (lt_of_allowed hall).1 super_public super_public
      (hchain rfl hall d1 hs)
  | nsRevoke | nsGrant => exact confined_answered confined_setRevoked
  | bwrite | bread | sfarPlan | sfarRollback | tbar => cases hop
  | _ => exact absurd rfl hplain

end

section
variable {K : Faults} {ahd : UInt32} {sender caps fuel : ℕ} {p : Staging × CairnDisk}

theorem clear_of_no_effect {rec : ℕ → Bytes} {l : List ℕ}
    (h : ∀ slot ∈ l, ofMission ahd (rec slot) = false) :
    undoRun rec ahd l = [] ∧ standing rec ahd l = l ∧ verdict rec ahd l = .clear := by
  cases l with
  | nil => exact ⟨rfl, rfl, rfl⟩
  | cons slot rest =>
    have hm := h slot List.mem_cons_self
    have hr : ¬ retractable ahd (rec slot) = true := by simp [retractable, hm]
    have hs : standing rec ahd (slot :: rest) = slot :: rest := List.dropWhile_cons_of_neg hr
    refine ⟨List.takeWhile_cons_of_neg hr, hs, ?_⟩
    simp [verdict, hs, verdictAt, hm]

theorem no_effect_of_not_touches (h : ¬ Touches d ahd ns) :
    ∀ slot ∈ liveChain d ns, ofMission ahd (record d slot) = false := by
  intro slot hs
  by_contra hm
  exact h ⟨slot, hs, Bool.not_eq_false _ ▸ hm⟩

theorem published_entry (hst : Staged d ahd sender nsMax p) (hns : ns < nsMax)
    (h : ¬ Touches d ahd ns) : head (published d p) ns = head d ns ∧
      count (published d p) ns = count d ns ∧ revoked (published d p) ns = revoked d ns := by
  obtain ⟨hrun, -, hverdict⟩ := clear_of_no_effect (no_effect_of_not_touches h)
  have hidle : ¬ moved p.1 ns := by
    cases hst.done ns hns with
    | back k hk h1 h2 h3 =>
      rw [hrun, List.length_nil] at hk
      simp only [moved]
      omega
    | push slot action free hv =>
      rw [hverdict] at hv
      cases hv
  rw [head_published hns, count_published hns, revoked_published hns, if_neg hidle, if_neg hidle]
  exact ⟨rfl, rfl, rfl⟩

theorem sfarRollback_untouched {a : Option (Answer RollbackReply)} (hi : StoreInv d)
    (hns : ns < nsMax) (ht : ¬ Touches d ahd ns)
    (h : (sfarRollback fuel ahd caps sender w).Exec K d a d') :
    StoreInv d' ∧ head d' ns = head d ns ∧ count d' ns = count d ns ∧
      revoked d' ns = revoked d ns := by
  have hsame : SameStore d d' → StoreInv d' ∧ head d' ns = head d ns ∧ count d' ns = count d ns ∧
      revoked d' ns = revoked d ns :=
    fun hs => ⟨hs.storeInv hi, hs.head_eq ns, hs.count_eq ns, hs.revoked_eq ns⟩
  rcases sfarRollback_cases hi h with ⟨-, -, hs⟩ | ⟨r, -, ⟨-, hs, -⟩ | ⟨-, -, cut, hcut, -, rfl⟩⟩
  · exact hsame hs
  · exact hsame hs
  · have hst := staged_undone sender w hi hcut
    exact ⟨hst.storeInv hi, published_entry hst hns ht⟩

end

end Dezh.NamespaceSecrets

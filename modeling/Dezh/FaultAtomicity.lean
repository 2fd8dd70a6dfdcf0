import Dezh.MissionAuthority
import Dezh.Revocation

/-!
# Answers under I/O failures

A request that changes the store is truthful under a class of failures when on
every pattern of such failures the answer OK means that the store is what the
failure-free execution leaves, and any other answer means that the store is
unchanged. Failed writes leave their sector unchanged.
-/
namespace Dezh.FaultAtomicity
open BlockProgram Program ByteLayout CairnFormat CairnService SfarService CairnStore
open CairnOutcomes MissionPublish StoreRuns MissionExact RollbackRepeat
open MissionAuthority BlockDaemon DaemonAccess NamespaceSecrets Revocation

variable {K : Faults} {d d' : CairnDisk} {ns fuel caps : ℕ} {w : Bytes} {r : Request} {op : Op}

def mutates : Op → Bool
  | .cairnCommit | .cairnRollback | .sfarRollback | .nsRevoke | .nsGrant => true
  | _ => false

/-- On every pattern of failures of the class there is an answer, OK means done and
anything else means unchanged. -/
def Truthful (K : Faults) (p : Program Sector (Option (Answer Status))) (d : CairnDisk) : Prop :=
  ∀ f : Schedule, f.Within K → ∃ a, (p.run f d).1 = some a ∧
    (a.value = .ok → logical (p.run f d).2 = logical (p.eval d).2) ∧
    (a.value ≠ .ok → logical (p.run f d).2 = logical d)

theorem truthful_iff {p : Program Sector (Option (Answer Status))} : Truthful K p d ↔
    ∀ b d', p.Exec K d b d' → ∃ a, b = some a ∧
      (a.value = .ok → logical d' = logical (p.eval d).2) ∧
      (a.value ≠ .ok → logical d' = logical d) := by
  constructor
  · intro h b d' hx
    obtain ⟨f, hf, hrun⟩ := hx.exists_run
    have := h f hf
    rwa [hrun] at this
  · intro h f hf
    exact h _ _ (exec_run p hf)

def Sound (d : CairnDisk) (r : Request) : Op → Prop
  | .cairnCommit => ¬ (revoked d r.cairnNs ≠ 0 ∧ cairnNsAllowed r.cairnNs r.caps = true ∧
      next d < commitSlots)
  | .cairnRollback => ¬ (revoked d r.cairnNs ≠ 0 ∧ cairnNsAllowed r.cairnNs r.caps = true ∧
      head d r.cairnNs ≠ noSlot)
  | .sfarRollback => r.sandIntent = 0 ∨ ∀ ns < nsMax, ¬ UndoableHead d r.sandIntent ns
  | _ => True

section
variable {a : Answer Status} {k : Bytes → Program Sector (Answer Status)}

theorem gated_outcome (h : (gated ns caps w k).Exec K d a d') :
    a.value = .denied ∧ SameStore d d' ∨
      cairnNsAllowed ns caps = true ∧ (revoked d ns = 0 ∨ K.reads) ∧
        ∃ d₁ w₁, (d₁ = d ∨ d₁ = settle d) ∧ (k w₁).Exec K d₁ a d' := by
  rcases gated_cases h with hdenied | ⟨hall, f, d₁, hf, -, hflag, hk⟩
  · exact .inl hdenied
  obtain ⟨s, d2, hs, rfl, rfl⟩ := exec_bind.mp hf
  have hns := (lt_of_allowed hall).1
  refine .inr ⟨hall, ?_, d₁, s.window, ?_, hk⟩
  · rcases cairnLoadSuper_cases hs with ⟨rfl, -⟩ | ⟨hv, -, -⟩
    · simp only [Bool.true_and, revoked_load hns, decide_eq_true hns, bne_eq_false_iff_eq] at hflag
      exact .inl hflag
    · by_cases hform : formatted d = true
      · exact .inr (reads_of_load_failed hform hs hv)
      · refine .inl ?_
        by_contra hrev
        exact hform (formatted_of_revoked hns hrev)
  · rcases cairnLoadSuper_cases hs with ⟨-, hd⟩ | ⟨-, -, hd⟩
    · exact .inr hd
    · exact hd

theorem eval_gated_revoked (hns : ns < nsMax) (h : revoked d ns ≠ 0) :
    ((gated ns caps w k).eval d).2 = settle d := by
  have hflag : ((cairnNsRevoked w ns).eval d) = (⟨true, load w (superOf d)⟩, settle d) := by
    rw [cairnNsRevoked, eval_bind, eval_cairnLoadSuper]
    simp [revoked_load hns, hns, h]
  rw [gated, eval_bind, hflag]
  rfl

theorem exec_gated_unread (hK : K.reads) (hall : cairnNsAllowed ns caps = true)
    (h : (k (reported w false)).Exec K d a d') : (gated ns caps w k).Exec K d a d' := by
  have hload : (cairnLoadSuper w).Exec K d ⟨false, reported w false⟩ d :=
    exec_bind.mpr ⟨_, d, exec_rw_read.mpr ⟨rfl, .inr ⟨hK, rfl⟩⟩, rfl, rfl⟩
  refine exec_bind.mpr ⟨⟨false, _⟩, d, exec_bind.mpr ⟨_, _, hload, rfl, rfl⟩, ?_⟩
  simp only [Bool.false_eq_true, if_false, if_pos hall]
  exact h

/-- An operation with one possible result: unless a failed write has landed, OK
means the result and anything else means the same store. -/
def Decisive (k : Bytes → Program Sector (Answer Status)) (d result : CairnDisk)
    (possible : Prop) : Prop :=
  ∀ K : Faults, ¬ K.landed → ∀ w₁ d₁ a d', (d₁ = d ∨ d₁ = settle d) → (k w₁).Exec K d₁ a d' →
    a.value = .ok ∧ possible ∧ d' = result ∨
      a.value ≠ .ok ∧ SameStore d d' ∧ (K.Possible ∨ ¬ possible)

variable {result : CairnDisk} {possible : Prop}

theorem truthful_gated (hi : StoreInv d) (hK : ¬ K.landed)
    (hk : ns < nsMax → Decisive k d result possible)
    (hs : K.reads → ¬ (revoked d ns ≠ 0 ∧ cairnNsAllowed ns caps = true ∧ possible)) :
    Truthful K (answered (gated ns caps w k)) d := by
  refine truthful_iff.mpr fun b d' h => ?_
  obtain ⟨a, rfl, hx⟩ := exec_answered.mp h
  refine ⟨a, rfl, ?_⟩
  rcases gated_outcome hx with ⟨hv, hsame⟩ | ⟨hall, hflag, d₁, w₁, hd, hx⟩
  · rw [hv]
    exact ⟨fun hok => (nomatch hok), fun _ => hsame.logical_eq hi⟩
  have hns := (lt_of_allowed hall).1
  rcases hk hns K hK w₁ d₁ a d' hd hx with ⟨hv, hposs, rfl⟩ | ⟨hv, hsame, -⟩
  swap
  · exact ⟨fun hok => absurd hok hv, fun _ => hsame.logical_eq hi⟩
  refine ⟨fun _ => congrArg logical ?_, fun hno => absurd hv hno⟩
  have hclear : revoked d ns = 0 := by
    by_contra hrev
    exact hs (hflag.resolve_left hrev) ⟨hrev, hall, hposs⟩
  have hload : (cairnNsRevoked w ns).eval d = (⟨false, load w (superOf d)⟩, settle d) := by
    rw [cairnNsRevoked, eval_bind, eval_cairnLoadSuper]
    simp [revoked_load hns, hclear]
  have heval : (answered (gated ns caps w k)).eval d =
      (some ((k (load w (superOf d))).eval (settle d)).1,
        ((k (load w (superOf d))).eval (settle d)).2) := by
    rw [answered, eval_bind, gated, eval_bind, hload]
    simp only [Bool.false_eq_true, if_false, if_pos hall, eval_pure]
  rw [heval]
  rcases hk hns .none id (load w (superOf d)) (settle d) _ _ (.inr rfl)
    (exec_eval .none (k (load w (superOf d))) (settle d)) with ⟨-, -, hd⟩ | ⟨-, -, hP | hno⟩
  · exact hd.symm
  · exact absurd hP Faults.not_possible_none
  · exact absurd hposs hno

theorem sound_of_truthful_gated (hi : StoreInv d) (hk : ns < nsMax → Decisive k d result possible)
    (hne : ns < nsMax → possible → logical result ≠ logical d)
    (h : Truthful .unlanded (answered (gated ns caps w k)) d) :
    ¬ (revoked d ns ≠ 0 ∧ cairnNsAllowed ns caps = true ∧ possible) := by
  rintro ⟨hrev, hall, hposs⟩
  have hns := (lt_of_allowed hall).1
  have hrun := exec_eval .unlanded (k (reported w false)) d
  obtain ⟨hok, -, hd⟩ : ((k (reported w false)).eval d).1.value = .ok ∧ possible ∧
      ((k (reported w false)).eval d).2 = result := by
    rcases hk hns .none id _ d _ _ (.inl rfl) (exec_eval .none (k (reported w false)) d) with
      h | ⟨-, -, hP | hno⟩
    · exact h
    · exact absurd hP Faults.not_possible_none
    · exact absurd hposs hno
  rw [hd] at hrun
  obtain ⟨a, ha, hdone, -⟩ := truthful_iff.mp h _ _
    (exec_answered.mpr ⟨_, rfl, exec_gated_unread trivial hall hrun⟩)
  cases ha
  refine hne hns hposs ((hdone hok).trans ?_)
  rw [answered, eval_bind]
  simp only [eval_pure, eval_gated_revoked hns hrev]
  exact (SameStore.settle d).logical_eq hi

end

theorem committed_settle {input : Bytes} {len sender : ℕ} {intent derived : UInt32}
    {revClass : UInt8} : committed (settle d) input ns len sender intent derived revClass =
      committed d input ns len sender intent derived revClass := by
  have hs := SameStore.settle d
  simp only [committed, newCommit, settle_settle, superOf_settle, hs.next_eq, hs.head_eq, hs.count_eq]

theorem retreated_settle {cur walked : ℕ} :
    retreated (settle d) ns cur walked = retreated d ns cur walked := by
  simp only [retreated, settle_settle, superOf_settle, (SameStore.settle d).count_eq]

theorem decisive_commit (input : Bytes) (len sender : ℕ) (intent derived : UInt32)
    (revClass : UInt8) (hns : ns < nsMax) :
    Decisive (fun w => cairnCommit input w ns len sender intent derived revClass) d
      (committed d input ns len sender intent derived revClass) (next d < commitSlots) := by
  intro K hK w₁ d₁ a d' hd hx
  have hsame : SameStore d d₁ := by
    rcases hd with rfl | rfl
    · exact .refl d₁
    · exact .settle d
  have hres : committed d₁ input ns len sender intent derived revClass =
      committed d input ns len sender intent derived revClass := by
    rcases hd with rfl | rfl
    · rfl
    · exact committed_settle
  rcases cairnCommit_cases hns hx with ⟨hn, hv, rfl⟩ | ⟨hv, hP, hs⟩ | ⟨-, hl, -⟩
  · exact .inl ⟨hv, hsame.next_eq ▸ hn, hres⟩
  · refine .inr ⟨by simp [hv], hsame.trans hs, hP.imp_right fun hle => ?_⟩
    rw [hsame.next_eq] at hle
    omega
  · exact absurd hl hK

def undoneSteps (d : CairnDisk) (ns steps : ℕ) : CairnDisk :=
  retreated d ns (((liveChain d ns).drop steps).headD noSlot)
    ((liveChain d ns).length - ((liveChain d ns).drop steps).length)

theorem decisive_rollback (steps : ℕ) (hi : StoreInv d) (hns : ns < nsMax) :
    Decisive (fun w => cairnRollback w ns steps) d (undoneSteps d ns steps)
      (head d ns ≠ noSlot) := by
  intro K hK w₁ d₁ a d' hd hx
  have hsame : SameStore d d₁ := by
    rcases hd with rfl | rfl
    · exact .refl d₁
    · exact .settle d
  have hwalk := StoreInv.walkBack_eq (hsame.storeInv hi) hns steps
  rw [hsame.liveChain_eq hi hns] at hwalk
  rcases cairnRollback_cases hns hx with ⟨hv, hh, hs⟩ | ⟨cur, walked, hh, hw, hv, rfl⟩ | ⟨hv, hP, hs⟩
  · refine .inr ⟨by simp [hv], hsame.trans hs, .inr fun hne => hne ?_⟩
    rw [← hsame.head_eq, hh]
  · rw [hwalk, Option.some.injEq, Prod.mk.injEq] at hw
    obtain ⟨rfl, rfl⟩ := hw
    refine .inl ⟨hv.resolve_right fun h => hK h.2, hsame.head_eq ns ▸ hh, ?_⟩
    rcases hd with rfl | rfl
    · rfl
    · exact retreated_settle
  · refine .inr ⟨by simp [hv], hsame.trans hs, .inl (hP.resolve_right fun hnone => ?_)⟩
    rw [hwalk] at hnone
    cases hnone

theorem logical_committed_ne {input : Bytes} {len sender : ℕ} {intent derived : UInt32}
    {revClass : UInt8} (hn : next d < commitSlots) :
    logical (committed d input ns len sender intent derived revClass) ≠ logical d := by
  intro h
  have hnext := congrArg Logical.next h
  simp only [logical, next_committed hn] at hnext
  omega

theorem logical_undoneSteps_ne {steps : ℕ} (hi : StoreInv d) (hns : ns < nsMax) (hpos : 0 < steps)
    (hh : head d ns ≠ noSlot) : logical (undoneSteps d ns steps) ≠ logical d := by
  intro h
  have hcount := congrFun (congrArg Logical.count h) ⟨ns, hns⟩
  have hlen : (liveChain d ns).length ≤ 255 := StoreInv.length_le hi hns
  have hne : (liveChain d ns).length ≠ 0 := by
    intro h0
    refine hh ?_
    rw [hi.head_eq hns, List.length_eq_zero_iff.mp h0]
    rfl
  simp only [logical, undoneSteps, count_retreated hns, if_pos, hi.count_eq ns hns,
    List.length_drop] at hcount
  omega

theorem truthful_setRevoked {flag : Bool} (hi : StoreInv d) (hK : ¬ K.landed) :
    Truthful K (answered (setRevoked ns caps w flag)) d := by
  refine truthful_iff.mpr fun b d' h => ?_
  obtain ⟨a, rfl, hx⟩ := exec_answered.mp h
  refine ⟨a, rfl, ?_⟩
  have heval : ((answered (setRevoked ns caps w flag)).eval d).2 =
      ((setRevoked ns caps w flag).eval d).2 := by
    rw [answered, eval_bind]
    rfl
  rw [heval]
  have hx0 := exec_eval .none (setRevoked ns caps w flag) d
  unfold setRevoked at hx hx0 ⊢
  split at hx
  · next hall =>
      have hns := (lt_of_allowed hall).1
      rw [if_pos hall] at hx0 ⊢
      rcases cairnNsSetRevoked_cases hns hx with ⟨hv, rfl⟩ | ⟨hv, -, hs | ⟨hl, -⟩⟩
      · refine ⟨fun _ => congrArg logical ?_, fun hno => absurd hv hno⟩
        rcases cairnNsSetRevoked_cases hns hx0 with ⟨-, hd⟩ | ⟨-, hP, -⟩
        · exact hd.symm
        · exact absurd hP Faults.not_possible_none
      · rw [hv]
        exact ⟨fun hok => absurd hok (by decide), fun _ => hs.logical_eq hi⟩
      · exact absurd hl hK
  · have hdenied : Status.denied ≠ .ok := by decide
    rw [hx.1, hx.2]
    exact ⟨fun hok => absurd hok hdenied, fun _ => rfl⟩

section
variable {ahd : UInt32} {sender : ℕ}

theorem logical_of_not_changed (hi : StoreInv d) (hi' : StoreInv d') (h : ¬ Changed d d')
    (hrev : ∀ ns < nsMax, revoked d' ns = revoked d ns) : logical d' = logical d := by
  obtain ⟨hhead, hnext, hslots⟩ := not_changed_iff.mp h
  have hchain : ∀ ns < nsMax, liveChain d' ns = liveChain d ns := by
    intro ns hns
    refine hi'.liveChain_eq ?_ (hnext ▸ hi.below ns hns)
    rw [hhead ns hns]
    exact (hi.chain ns hns).congr fun slot _ => congrArg bytes (hslots slot)
  have hcount : ∀ ns < nsMax, count d' ns = count d ns := by
    intro ns hns
    rw [hi'.count_eq ns hns, hi.count_eq ns hns, hchain ns hns]
  simp only [logical, hnext, hslots, Logical.mk.injEq, true_and]
  refine ⟨funext fun ns => hhead ns ns.isLt, funext fun ns => hcount ns ns.isLt,
    funext fun ns => hrev ns ns.isLt, funext fun ns => ?_⟩
  rw [hchain ns ns.isLt]

theorem sfarRollback_keeps {a : Option (Answer RollbackReply)} (hi : StoreInv d)
    (h : (sfarRollback fuel ahd caps sender w).Exec K d a d') :
    StoreInv d' ∧ ∀ ns < nsMax, revoked d' ns = revoked d ns := by
  rcases sfarRollback_cases hi h with ⟨-, -, hs⟩ | ⟨r, -, ⟨-, hs, -⟩ | ⟨-, -, cut, hcut, -, rfl⟩⟩
  · exact ⟨hs.storeInv hi, fun ns _ => hs.revoked_eq ns⟩
  · exact ⟨hs.storeInv hi, fun ns _ => hs.revoked_eq ns⟩
  · exact ⟨(staged_undone sender w hi hcut).storeInv hi, fun ns hns => revoked_published hns⟩

theorem logical_of_quiet {a : Option (Answer RollbackReply)} (hi : StoreInv d)
    (hq : ∀ ns < nsMax, ¬ UndoableHead d ahd ns)
    (h : (sfarRollback fuel ahd caps sender w).Exec K d a d') : logical d' = logical d := by
  obtain ⟨hi', hrev⟩ := sfarRollback_keeps hi h
  exact logical_of_not_changed hi hi' (not_changed_of_quiet hq h) hrev

theorem eval_dispatch_rollback :
    ((dispatch fuel .sfarRollback r w).eval d).2 =
      ((sfarRollback fuel r.sandIntent r.caps r.sender w).eval d).2 := by
  rw [dispatch, eval_bind]
  rfl

theorem truthful_rollback (hi : StoreInv d) (hK : ¬ K.landed)
    (hs : K.reads → Sound d r .sfarRollback) :
    Truthful K (dispatch (commitSlots + 1 + fuel) .sfarRollback r w) d := by
  refine truthful_iff.mpr fun b d' h => ?_
  obtain ⟨b, d₁, hx, rfl, rfl⟩ := exec_bind.mp h
  rw [eval_dispatch_rollback]
  have hx0 := exec_eval .none (sfarRollback (commitSlots + 1 + fuel) r.sandIntent r.caps r.sender w) d
  rcases sfarRollback_cases hi hx with
    ⟨-, hf, -⟩ | ⟨a, rfl, ⟨hv, hsame, -⟩ | ⟨h0, hcover, cut, hcut, hv, hd⟩⟩
  · omega
  · exact ⟨_, rfl, fun hok => absurd hok hv, fun _ => hsame.logical_eq hi⟩
  have hok : a.value.status = .ok := by
    rcases hv with ⟨hv, -⟩ | ⟨-, hl⟩
    · exact hv
    · exact absurd hl hK
  refine ⟨_, rfl, fun _ => ?_, fun hno => absurd hok hno⟩
  by_cases hreads : K.reads
  · rcases hs hreads with h0' | hq
    · exact absurd h0' h0
    · rw [logical_of_quiet hi hq hx, logical_of_quiet hi hq hx0]
  · have hauth : Authorized d r.sandIntent r.caps :=
      fun ns hns ht => (hcover ns hns ht).resolve_left hreads
    obtain ⟨a0, heval, -⟩ := eval_sfarRollback r.sender fuel w hi h0 hauth
    rw [heval, hd, cuts_eq_none hreads hcut]
    rfl

theorem exec_sfarRollback_idle (hi : StoreInv d) (h0 : ahd ≠ 0) (fuel caps sender : ℕ) (w : Bytes) :
    ∃ a d', (sfarRollback (fuel + 1) ahd caps sender w).Exec .unlanded d (some a) d' ∧
      a.value.status = .ok ∧ logical d' = logical d := by
  have hwalk v : ∃ s w' d', (rollbackFrom (fuel + 1) ahd sender nsMax 0 (initial d w) v).Exec
      .unlanded (settle d) (.finished s w') d' ∧ s = initial d w ∧ d' = settle d := by
    obtain ⟨w', hwalk⟩ := exec_rollbackFrom_blind (K := .unlanded) (w := v) trivial nsMax
    exact ⟨_, w', _, hwalk, rfl, rfl⟩
  obtain ⟨s, a, d', hidle, hok, rfl, rfl⟩ : ∃ s a d',
      (sfarRollback (fuel + 1) ahd caps sender w).Exec .unlanded d (some a) _ ∧ _ :=
    exec_sfarRollback_blind trivial h0 hwalk
  obtain ⟨hi', hrev⟩ := sfarRollback_keeps hi hidle
  refine ⟨a, _, hidle, hok, logical_of_not_changed hi hi' ?_ hrev⟩
  rw [← changed_settle_iff]
  exact quiet_initial.not_changed

theorem sound_of_truthful_rollback (hi : StoreInv d)
    (h : Truthful .unlanded (dispatch (commitSlots + 1 + fuel) .sfarRollback r w) d) :
    Sound d r .sfarRollback := by
  by_contra hcon
  simp only [Sound, not_or, not_forall, not_not] at hcon
  obtain ⟨h0, ns, hns, hu⟩ := hcon
  have hdone : ∀ a d', (sfarRollback (commitSlots + 1 + fuel) r.sandIntent r.caps r.sender w).Exec
      .unlanded d (some a) d' → a.value.status = .ok →
      logical d' = logical ((dispatch (commitSlots + 1 + fuel) .sfarRollback r w).eval d).2 := by
    intro a d' hx hok
    obtain ⟨b, hb, hdone, -⟩ := truthful_iff.mp h _ _ (exec_bind.mpr ⟨_, _, hx, rfl, rfl⟩)
    cases hb
    exact hdone hok
  have hfuel : commitSlots + 1 + fuel = 254 + fuel + 2 := by
    simp only [commitSlots]
    omega
  rw [hfuel] at hdone
  obtain ⟨a, d₁, hx, hok, hmoved⟩ := exists_moved (K := .unlanded) trivial h0 hns hu (254 + fuel)
    r.caps r.sender w
  obtain ⟨b, d2, hy, hok', hidle⟩ := exec_sfarRollback_idle hi h0 (254 + fuel + 1) r.caps r.sender w
  have hsame : logical d₁ = logical d :=
    (hdone a d₁ hx hok).trans ((hdone b d2 hy hok').symm.trans hidle)
  rcases hmoved with ⟨m, hm, hne⟩ | hne
  · exact hne (congrFun (congrArg Logical.head hsame) ⟨m, hm⟩)
  · exact hne (congrArg Logical.next hsame)

end

theorem truthful_dispatch (hi : StoreInv d) (hop : mutates op = true) (hK : ¬ K.landed)
    (hs : K.reads → Sound d r op) :
    Truthful K (dispatch (commitSlots + 1 + fuel) op r w) d := by
  cases op with
  | cairnCommit => exact truthful_gated hi hK (fun hns => decisive_commit _ _ _ _ _ _ hns) hs
  | cairnRollback => exact truthful_gated hi hK (fun hns => decisive_rollback _ hi hns) hs
  | sfarRollback => exact truthful_rollback hi hK hs
  | nsRevoke | nsGrant => exact truthful_setRevoked hi hK
  | _ => cases hop

theorem sound_of_truthful (hi : StoreInv d) (hop : mutates op = true)
    (h : Truthful .unlanded (dispatch (commitSlots + 1 + fuel) op r w) d) : Sound d r op := by
  cases op with
  | cairnCommit =>
    exact sound_of_truthful_gated hi (fun hns => decisive_commit _ _ _ _ _ _ hns)
      (fun _ => logical_committed_ne) h
  | cairnRollback =>
    exact sound_of_truthful_gated hi (fun hns => decisive_rollback _ hi hns)
      (fun hns => logical_undoneSteps_ne hi hns (by omega)) h
  | sfarRollback => exact sound_of_truthful_rollback hi h
  | nsRevoke | nsGrant => trivial
  | _ => cases hop

/-- On a well-formed store, every reachable one among them, a request that changes
the store is truthful under all patterns of failing reads and writes exactly when
it is sound: no commit and no effective rollback of a revoked namespace by a holder
of its capability, and no mission rollback that finds a newest record to undo. It
is truthful under all patterns in which only writes fail. -/
theorem fault_truthful_iff (fuel : ℕ) (r : Request) (w : Bytes) (hi : StoreInv d)
    (hop : mutates op = true) :
    (Truthful .unlanded (dispatch (commitSlots + 1 + fuel) op r w) d ↔ Sound d r op) ∧
      Truthful .lostOnly (dispatch (commitSlots + 1 + fuel) op r w) d :=
  ⟨⟨sound_of_truthful hi hop, fun h => truthful_dispatch hi hop id fun _ => h⟩,
    truthful_dispatch hi hop id fun h => h.elim⟩

/-- A commit to a namespace that is not revoked. -/
theorem fault_truthful_noted :
    Truthful .unlanded
      (dispatch (commitSlots + 1 + 0) .cairnCommit (agentRequest 43 1 0x4004) fun _ => 0) noted :=
  (fault_truthful_iff 0 (agentRequest 43 1 0x4004) (fun _ => 0) reachable_noted.storeInv rfl).1.mpr
    fun h => h.1 (by decide +kernel)

/-- The staging walk of a mission rollback misses the only record, and the answer
is OK; a commit to a revoked namespace misses the flag, and the answer is OK. -/
theorem noted_half_undone :
    (((dispatch 256 .sfarRollback (agentRequest 52 1 0) fun _ => 0).run
        (.reliable (· != 2)) noted).1.map fun a => a.value) = some .ok ∧
      head ((dispatch 256 .sfarRollback (agentRequest 52 1 0) fun _ => 0).run
        (.reliable (· != 2)) noted).2 4 = 0 ∧
      head ((dispatch 256 .sfarRollback (agentRequest 52 1 0) fun _ => 0).eval noted).2 4 =
        noSlot ∧
      (((dispatch 256 .cairnCommit (agentRequest 43 1 0x4004) fun _ => 0).run
        (.reliable (· != 0)) retired).1.map fun a => a.value) = some .ok ∧
      next ((dispatch 256 .cairnCommit (agentRequest 43 1 0x4004) fun _ => 0).run
        (.reliable (· != 0)) retired).2 = 2 ∧
      next ((dispatch 256 .cairnCommit (agentRequest 43 1 0x4004) fun _ => 0).eval retired).2 = 1 :=
  ⟨by decide +kernel, by decide +kernel, by decide +kernel, by decide +kernel, by decide +kernel,
    by decide +kernel⟩

end Dezh.FaultAtomicity

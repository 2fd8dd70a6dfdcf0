import Dezh.NamespaceIsolation

/-!
# Persisted revocation

The daemon serves one request after another, whatever I/O fails, and may be
restarted at any time. A restart in the middle of a request is a request whose
later writes are lost, followed by a restart. Only the disk survives; the data
window is cleared.
-/
namespace Dezh.Revocation
open Function BlockProgram Program ByteLayout ParentChain CairnFormat CairnService SfarService CairnStore
open CairnOutcomes MissionScan MissionPublish StoreRuns RollbackRepeat
open BlockDaemon DaemonAccess NamespaceSecrets NamespaceIsolation

/-- The disk, the data window, and whether the daemon is running. -/
structure Daemon where
  disk : CairnDisk
  window : Bytes
  up : Bool

inductive Event where
  | request (r : Request) (f : Schedule)
  | restart

def ends (r : Request) : Bool := r.wellFormed && (r.op.bind Op.exitCode).isSome

namespace Daemon

/-- One event: the reply, if there is one, and the state after it. A request that
is never answered leaves the daemon hanging. -/
def step (fuel : ℕ) (s : Daemon) : Event → Option Reply × Daemon
  | .restart => (none, ⟨s.disk, fun _ => 0, true⟩)
  | .request r f =>
    if s.up then
      let out := (serve fuel r s.window).run f s.disk
      match out.1 with
      | some a => (some a, ⟨out.2, a.window, !ends r⟩)
      | none => (none, ⟨out.2, s.window, false⟩)
    else (none, s)

def run (fuel : ℕ) : Daemon → List Event → List (Option Reply) × Daemon
  | s, [] => ([], s)
  | s, ev :: evs =>
    (((s.step fuel ev).1 :: (run fuel (s.step fuel ev).2 evs).1),
      (run fuel (s.step fuel ev).2 evs).2)

def Along (fuel : ℕ) (P : Daemon → Event → Prop) : Daemon → List Event → Prop
  | _, [] => True
  | s, ev :: evs => P s ev ∧ Along fuel P (s.step fuel ev).2 evs

end Daemon

variable {d d' d'' e : CairnDisk} {ns fuel : ℕ} {w : Bytes} {r : Request} {op : Op} {f : Schedule}

/-- The namespace has its head, its count, its chain and its records, and a flag
that was set still is. -/
structure Held (ns : ℕ) (d d' : CairnDisk) : Prop where
  inv : StoreInv d'
  head_eq : head d' ns = head d ns
  count_eq : count d' ns = count d ns
  chain_eq : liveChain d' ns = liveChain d ns
  records : ∀ slot ∈ liveChain d ns, d' (commitFirstSector + slot) = d (commitFirstSector + slot)
  flag : revoked d ns ≠ 0 → revoked d' ns ≠ 0

/-- The namespace is still revoked and its head, count and chain are unchanged. -/
structure StillRevoked (ns : ℕ) (d d' : CairnDisk) : Prop extends Held ns d d' where
  set : revoked d' ns ≠ 0

theorem Held.refl (hi : StoreInv d) : Held ns d d := ⟨hi, rfl, rfl, rfl, fun _ _ => rfl, id⟩

theorem Held.trans (h : Held ns d d') (h' : Held ns d' d'') : Held ns d d'' := by
  refine ⟨h'.inv, h'.head_eq.trans h.head_eq, h'.count_eq.trans h.count_eq,
    h'.chain_eq.trans h.chain_eq, fun slot hs => ?_, fun hr => h'.flag (h.flag hr)⟩
  have hs' : slot ∈ liveChain d' ns := by rwa [h.chain_eq]
  rw [h'.records slot hs', h.records slot hs]

section
variable (hi : StoreInv d) (hns : ns < nsMax)
include hi hns

theorem liveChain_of_extends (hi' : StoreInv d') (hx : Extends d d')
    (hh : head d' ns = head d ns) : liveChain d' ns = liveChain d ns := by
  refine hi'.liveChain_eq ?_ fun slot hs => (hi.below ns hns slot hs).trans_le hx.next_le
  rw [hh]
  exact (hi.chain ns hns).congr fun slot hs =>
    congrArg bytes (hx.slots slot (hi.below ns hns slot hs))

theorem held_of_extends (hi' : StoreInv d') (hx : Extends d d')
    (hh : head d' ns = head d ns) (hc : count d' ns = count d ns)
    (hr : revoked d ns ≠ 0 → revoked d' ns ≠ 0) : Held ns d d' :=
  ⟨hi', hh, hc, liveChain_of_extends hi hns hi' hx hh,
    fun slot hs => hx.slots slot (hi.below ns hns slot hs), hr⟩

theorem held_of_same (h : SameStore d d') : Held ns d d' :=
  held_of_extends hi hns (h.storeInv hi) h.toExtends (h.head_eq ns) (h.count_eq ns)
    fun hr => by rwa [h.revoked_eq]

theorem held_of_onlyTouches {m : ℕ} (hne : ns ≠ m)
    (h : OnlyTouches d d' m) : Held ns d d' := by
  obtain ⟨hh, hc, hr⟩ := h.entry ns hns hne
  exact held_of_extends hi hns (h.inv hi) h.ext hh hc fun hrev => by rwa [hr]

end

theorem formatted_of_revoked (hns : ns < nsMax) (h : revoked d ns ≠ 0) : formatted d = true := by
  by_contra hf
  refine h ?_
  rw [revoked, superOf, if_neg hf]
  exact (freshSuper_entry ns hns).2.2

/-- The read of the revoked flag succeeds, if it matters. -/
def FlagRead (r : Request) (f : Schedule) (ns : ℕ) : Prop :=
  r.cairnNs = ns → holdsNs r.caps ns = true → f.reads 0 = true

/-- The request changes nothing of the namespace: no raw write to the superblock or
to a live record, no grant, no undoing of one of its effects, no commit or
rollback that misses the flag. -/
def Respects (d : CairnDisk) (r : Request) (f : Schedule) (ns : ℕ) : Op → Prop
  | .bwrite => r.sector ≠ superSector ∧
      ∀ m < nsMax, ∀ slot ∈ liveChain d m, r.sector ≠ commitFirstSector + slot
  | .nsGrant => r.cairnNs = ns → holdsNs r.caps ns = false
  | .sfarRollback => r.sandIntent = 0 ∨ ¬ Touches d r.sandIntent ns
  | .cairnCommit | .cairnRollback => FlagRead r f ns
  | _ => True

/-- The request reads nothing of the namespace: no raw read of a value, no mission
operation while a live record could be scanned, no read that misses the flag. -/
def Hides (d : CairnDisk) (r : Request) (f : Schedule) (ns : ℕ) : Op → Prop
  | .bread => ¬ Exposes d ns r.sector
  | .sfarPlan | .tbar | .sfarRollback => r.sandIntent = 0 ∨ liveChain d ns = []
  | .cairnGet | .cairnLog | .cairnVerify | .sandLog | .sandInfo => FlagRead r f ns
  | _ => True

def Serving (P : CairnDisk → Request → Schedule → Op → Prop) (s : Daemon) : Event → Prop
  | .restart => True
  | .request r f => s.up = true → r.wellFormed = true → ∀ op, r.op = some op → P s.disk r f op

/-- What becomes of the answer behind the gate. -/
def closing : Op → Answer Status → Option (Answer Status)
  | .cairnGet => copyValue
  | _ => some

theorem dispatch_gated (h : gatedOp op = true) (fuel : ℕ) (r : Request) (w : Bytes) :
    ∃ k, dispatch fuel op r w = gated r.cairnNs r.caps w k >>= fun a => pure (closing op a) := by
  cases op with
  | cairnCommit | cairnGet | cairnLog | cairnRollback | cairnVerify | sandLog | sandInfo =>
    exact ⟨_, rfl⟩
  | _ => cases h

section
variable (hns : ns < nsMax) (hrev : revoked d ns ≠ 0)
include hns hrev

theorem run_gated (hread : f.reads 0 = true) (caps : ℕ)
    (k : Bytes → Program Sector (Answer Status)) :
    (gated ns caps w k >>= fun a => pure (closing op a)).run f d =
      (some ⟨.denied, load w (superOf d)⟩, d) := by
  have hf := formatted_of_revoked hns hrev
  have hmagic : startsWith (load w (d superSector)) superMagic = true := by
    rw [startsWith_load (by decide)]
    exact hf
  have hflag : u32At (load w (d superSector)) (nsEntryOff ns + nsOffRevoked) ≠ 0 := by
    rw [← superOf_of_formatted hf, revoked_load hns]
    exact hrev
  rw [superOf_of_formatted hf]
  have hclosing : closing op ⟨.denied, load w (d superSector)⟩ =
      some ⟨.denied, load w (d superSector)⟩ := by cases op <;> rfl
  simp [gated, cairnNsRevoked, cairnLoadSuper, rw, run, pure_eq, hread, hmagic, hns, hflag,
    hclosing]

end

section
variable (hi : StoreInv d) (hns : ns < nsMax)
include hi hns

theorem held_update {sector : ℕ} (b : Sector) (hsuper : sector ≠ superSector)
    (hlive : ∀ m < nsMax, ∀ slot ∈ liveChain d m, sector ≠ commitFirstSector + slot) :
    Held ns d (update d sector b) := by
  have hsup : superOf (update d sector b) = superOf d := superOf_update_other hsuper b
  have hrec : ∀ m < nsMax, ∀ slot ∈ liveChain d m,
      update d sector b (commitFirstSector + slot) = d (commitFirstSector + slot) :=
    fun m hm slot hs => update_of_ne (hlive m hm slot hs).symm _ _
  have hchain : ∀ m < nsMax, Chain commitLinks (GoodRecord m)
      (record (update d sector b)) (head (update d sector b) m)
      (liveChain d m) := by
    intro m hm
    rw [head, hsup]
    exact (hi.chain m hm).congr fun slot hs => congrArg bytes (hrec m hm slot hs)
  have hnext : next (update d sector b) = next d := by rw [next, hsup, next]
  have hinv : StoreInv (update d sector b) := by
    refine .of_chains (hnext.trans_le hi.next_le) fun m hm => ⟨liveChain d m, hchain m hm, ?_, ?_⟩
    · rw [hnext]
      exact hi.below m hm
    · rw [count, hsup]
      exact hi.count_eq m hm
  refine ⟨hinv, ?_, ?_, ?_, hrec ns hns, ?_⟩
  · rw [head, head, hsup]
  · rw [count, count, hsup]
  · refine hinv.liveChain_eq (hchain ns hns) ?_
    rw [hnext]
    exact hi.below ns hns
  · rw [revoked, revoked, hsup]
    exact id

theorem held_bwrite (h : Respects d r f ns .bwrite) :
    Held ns d ((dispatch fuel .bwrite r w).run f d).2 := by
  have hwritten := held_update hi hns
    (take sectorSize (setData w (ascii "DEZH-DAEMON-BLOCK-OK"))) h.1 h.2
  simp only [dispatch, answered, access, rw, if_true, write_bind, run]
  cases f.writes 0 with
  | ok | landed => exact hwritten
  | lost => exact .refl hi

theorem held_gated (hrev : revoked d ns ≠ 0) (hop : guarded op = true) (h : FlagRead r f ns)
    (hgated : gatedOp op = true) : Held ns d ((dispatch fuel op r w).run f d).2 := by
  obtain ⟨k, hgate⟩ := dispatch_gated hgated fuel r w
  obtain ⟨heffect, hdenied⟩ := dispatch_effect hop (exec_run (dispatch fuel op r w) (.all f))
  by_cases hm : r.cairnNs = ns
  · cases hcap : holdsNs r.caps ns with
    | true =>
      rw [hgate, hm, run_gated hns hrev (h hm hcap)]
      exact .refl hi
    | false =>
      refine held_of_same hi hns (hdenied ?_)
      rw [cairnNsAllowed, hm, hcap, Bool.and_false]
  · exact held_of_onlyTouches hi hns (Ne.symm hm) heffect

theorem held_revoke : Held ns d ((dispatch fuel .nsRevoke r w).run f d).2 := by
  have hx := exec_run (d := d) (dispatch fuel .nsRevoke r w) (.all f)
  obtain ⟨heffect, hdenied⟩ := dispatch_effect rfl hx
  by_cases hm : r.cairnNs = ns
  swap
  · exact held_of_onlyTouches hi hns (Ne.symm hm) heffect
  cases hall : cairnNsAllowed r.cairnNs r.caps with
  | false => exact held_of_same hi hns (hdenied hall)
  | true =>
    obtain ⟨a, -, hx⟩ := exec_answered.mp hx
    rw [setRevoked, if_pos hall, hm] at hx
    have hflag : ((dispatch fuel .nsRevoke r w).run f d).2 = flagged d ns 1 →
        Held ns d ((dispatch fuel .nsRevoke r w).run f d).2 := by
      intro hd
      refine held_of_extends hi hns (heffect.inv hi) heffect.ext ?_ ?_ fun _ => ?_
      · rw [hd, head_flagged hns]
      · rw [hd, count_flagged hns]
      · rw [hd, revoked_flagged hns, if_pos rfl]
        decide
    rcases cairnNsSetRevoked_cases hns hx with ⟨-, hd⟩ | ⟨-, -, hs | ⟨-, hd⟩⟩
    · exact hflag hd
    · exact held_of_same hi hns hs
    · exact hflag hd

theorem held_rollback (h : Respects d r f ns .sfarRollback) :
    Held ns d ((dispatch fuel .sfarRollback r w).run f d).2 := by
  obtain ⟨a, d1, hx, -, hd⟩ := exec_bind.mp
    (exec_run (d := d) (dispatch fuel .sfarRollback r w) (.all f))
  rw [hd]
  rcases h with h0 | ht
  · rw [sfarRollback, if_pos h0] at hx
    obtain ⟨-, rfl⟩ := hx
    exact .refl hi
  · obtain ⟨hi', hh, hc, hr⟩ := sfarRollback_untouched hi hns ht hx
    exact held_of_extends hi hns hi' (sfarRollback_extends hx) hh hc fun hrev => by rwa [hr]

theorem held_dispatch (hrev : revoked d ns ≠ 0) (h : Respects d r f ns op) :
    Held ns d ((dispatch fuel op r w).run f d).2 := by
  have hx := exec_run (d := d) (dispatch fuel op r w) (.all f)
  cases op with
  | bwrite => exact held_bwrite hi hns h
  | bread =>
    simp only [dispatch, answered, access, rw, Bool.false_eq_true, if_false, read_bind, run]
    split <;> exact .refl hi
  | sfarPlan =>
    obtain ⟨a, -, hx⟩ := exec_answered.mp hx
    exact held_of_same hi hns (statusOnly_same (fun _ _ => sfarPlan_same) hx)
  | tbar =>
    obtain ⟨a, -, hx⟩ := exec_answered.mp hx
    exact held_of_same hi hns (statusOnly_same (fun _ _ => tbar_same) hx)
  | sfarRollback => exact held_rollback hi hns h
  | cairnCommit | cairnRollback => exact held_gated hi hns hrev rfl h rfl
  | nsRevoke => exact held_revoke hi hns
  | nsGrant =>
    obtain ⟨heffect, hdenied⟩ := dispatch_effect rfl hx
    by_cases hm : r.cairnNs = ns
    · refine held_of_same hi hns (hdenied ?_)
      rw [cairnNsAllowed, hm, h hm, Bool.and_false]
    · exact held_of_onlyTouches hi hns (Ne.symm hm) heffect
  | _ => exact held_of_same hi hns (dispatch_same rfl rfl hx)

end

section

theorem SecretEq.step {e' : CairnDisk} (h : SecretEq ns d e)
    (hpub : ∀ s ∈ publicSectors d ns, e' s = d' s)
    (hown : ∀ s, s ∉ publicSectors d ns → d' s = d s ∧ e' s = e s) (hle : next d ≤ next d') :
    SecretEq ns d' e' := by
  intro sector i hv
  by_cases hs : sector ∈ publicSectors d ns
  · rw [hpub sector hs]
  · obtain ⟨hd, he⟩ := hown sector hs
    rw [hd, he]
    refine h sector i ?_
    rintro ⟨slot, rfl, ho, hrange⟩
    have hrec : record d' slot = record d slot := congrArg bytes hd
    refine hv ⟨slot, rfl, ⟨ho.lt.trans_le hle, ?_, ?_⟩, ?_⟩
    · rw [hrec]
      exact ho.commit
    · rw [hrec]
      exact ho.ns_eq
    · rw [hrec]
      exact hrange

/-- Two runs of one program answer alike and end in disks that differ in values of
the namespace only. -/
structure Blind {A : Type} (ns : ℕ) (p : Program Sector A) (f : Schedule) (d e : CairnDisk) :
    Prop where
  answer : (p.run f e).1 = (p.run f d).1
  disks : SecretEq ns (p.run f d).2 (p.run f e).2

theorem blind_of_confined {A : Type} {p : Program Sector A} (h : SecretEq ns d e)
    (hp : p.Confined (publicSectors d ns) (publicSectors d ns) d)
    (hle : next d ≤ next (p.run f d).2) : Blind ns p f d e := by
  have hpub : ∀ s ∈ publicSectors d ns, e s = d s := fun s hs => h.public_eq hs
  obtain ⟨hans, hagree⟩ := hp.run_congr hpub f
  refine ⟨hans, SecretEq.step h (fun s hs => hagree s (hpub s hs)) (fun s hs => ?_) hle⟩
  exact ⟨hp.frame (exec_run p (.all f)) hs, (hp.congr hpub).frame (exec_run p (.all f)) hs⟩

theorem blind_of_pure {A : Type} {p : Program Sector A} (a : A) (h : SecretEq ns d e)
    (hp : p = pure a) : Blind ns p f d e := by
  rw [hp]
  exact ⟨rfl, h⟩

theorem secretEq_update {sector : ℕ} (b : Sector) (hsuper : sector ≠ superSector)
    (h : SecretEq ns d e) :
    SecretEq ns (update d sector b) (update e sector b) := by
  intro s i hv
  by_cases hs : s = sector
  · rw [hs, update_self, update_self]
  · rw [update_of_ne hs, update_of_ne hs]
    refine h s i ?_
    rintro ⟨slot, rfl, ho, hrange⟩
    have hrec : record (update d sector b) slot = record d slot :=
      congrArg bytes (update_of_ne hs _ _)
    have hlt : slot < next (update d sector b) := by
      rw [next, superOf_update_other hsuper]
      exact ho.lt
    refine hv ⟨slot, rfl, ⟨hlt, ?_, ?_⟩, ?_⟩
    · rw [hrec]
      exact ho.commit
    · rw [hrec]
      exact ho.ns_eq
    · rw [hrec]
      exact hrange

variable (hi : StoreInv d) (hns : ns < nsMax) (hrev : revoked d ns ≠ 0) (h : SecretEq ns d e)

include h in
theorem blind_bwrite (hsuper : r.sector ≠ superSector) :
    Blind ns (dispatch fuel .bwrite r w) f d e := by
  constructor
  all_goals
    simp only [dispatch, answered, access, rw, if_true, write_bind, run]
    cases f.writes 0
  all_goals first | rfl | exact secretEq_update _ hsuper h | exact h

include h in
theorem blind_bread (hx : ¬ Exposes d ns r.sector) : Blind ns (dispatch fuel .bread r w) f d e := by
  have heq := sector_eq_iff.mpr hx e h
  constructor
  all_goals
    simp only [dispatch, answered, access, rw, Bool.false_eq_true, if_false, read_bind, run, heq]
    cases f.reads 0
  all_goals first | rfl | exact h

include hi h in
theorem blind_mission {p : Program Sector (Option (Answer Status))} (hempty : liveChain d ns = [])
    (hx : Extends d (p.run f d).2)
    (hp : (∀ m < nsMax, ∀ slot ∈ liveChain d m, commitFirstSector + slot ∈ publicSectors d ns) →
      p.Confined (publicSectors d ns) (publicSectors d ns) d) : Blind ns p f d e := by
  refine blind_of_confined h (hp fun m hm slot hs => ?_) hx.next_le
  by_cases hmn : m = ns
  · rw [hmn, hempty] at hs
    exact absurd hs List.not_mem_nil
  · exact chain_public hi hm hmn hs

include hi hns hrev h in
theorem blind_dispatch (fuel : ℕ) (w : Bytes) (hr : Respects d r f ns op) (hh : Hides d r f ns op) :
    Blind ns (dispatch fuel op r w) f d e := by
  have hx := exec_run (d := d) (dispatch fuel op r w) (.all f)
  have hguarded : guarded op = true → (gatedOp op = true → FlagRead r f ns) →
      Blind ns (dispatch fuel op r w) f d e := by
    intro hop hflag
    have hconf : (gatedOp op = true → r.cairnNs ≠ ns ∨ cairnNsAllowed r.cairnNs r.caps = false) →
        Blind ns (dispatch fuel op r w) f d e := fun hout =>
      blind_of_confined h (confined_guarded fuel w hi hop hout) (dispatch_effect hop hx).1.ext.next_le
    by_cases hm : gatedOp op = true ∧ r.cairnNs = ns ∧ holdsNs r.caps ns = true
    · obtain ⟨hg, hm, hcap⟩ := hm
      obtain ⟨k, hk⟩ := dispatch_gated hg fuel r w
      have hread := hflag hg hm hcap
      rw [hk, hm]
      refine ⟨?_, ?_⟩
      · rw [run_gated hns hrev hread, run_gated hns (by rwa [h.revoked_eq]) hread, h.superOf_eq]
      · rw [run_gated hns hrev hread, run_gated hns (by rwa [h.revoked_eq]) hread]
        exact h
    · refine hconf fun hg => ?_
      by_cases hmn : r.cairnNs = ns
      · right
        rw [cairnNsAllowed, hmn, Bool.and_eq_false_iff]
        right
        rw [← Bool.not_eq_true]
        exact fun hcap => hm ⟨hg, hmn, hcap⟩
      · exact .inl hmn
  cases op with
  | bwrite => exact blind_bwrite h hr.1
  | bread => exact blind_bread h hh
  | sfarPlan =>
    rcases hh with h0 | hempty
    · refine blind_of_pure (some ⟨.badRequest, w⟩) h ?_
      simp only [dispatch, answered, statusOnly, sfarPlan, if_pos h0]
      rfl
    · obtain ⟨a, -, hx⟩ := exec_answered.mp hx
      have hs : SameStore d _ := statusOnly_same (fun _ _ => sfarPlan_same) hx
      exact blind_mission hi h hempty hs.toExtends fun hchain =>
        confined_answered (confined_statusOnly
          (confined_sfarPlan hi super_public super_public hchain r.caps w))
  | tbar =>
    rcases hh with h0 | hempty
    · refine blind_of_pure (some ⟨.badRequest, w⟩) h ?_
      simp only [dispatch, answered, statusOnly, tbar, if_pos h0]
      rfl
    · obtain ⟨a, -, hx⟩ := exec_answered.mp hx
      have hs : SameStore d _ := statusOnly_same (fun _ _ => tbar_same) hx
      exact blind_mission hi h hempty hs.toExtends fun hchain =>
        confined_answered (confined_statusOnly
          (confined_tbar hi super_public super_public hchain r.caps w))
  | sfarRollback =>
    rcases hh with h0 | hempty
    · refine blind_of_pure (some ⟨.badRequest, w⟩) h ?_
      simp only [dispatch, sfarRollback, if_pos h0]
      rfl
    · obtain ⟨a, d1, hx, -, hd⟩ := exec_bind.mp hx
      refine blind_mission hi h hempty (hd ▸ sfarRollback_extends hx) fun hchain => ?_
      refine (confined_sfarRollback hi super_public super_public hchain (fun slot hs => ?_)
        fuel r.caps r.sender w).bind fun _ _ _ => trivial
      intro slot' ho hslot
      have := ho.lt
      omega
  | cairnCommit | cairnRollback => exact hguarded rfl fun _ => hr
  | cairnGet | cairnLog | cairnVerify | sandLog | sandInfo => exact hguarded rfl fun _ => hh
  | _ =>
    exact hguarded rfl fun hg => absurd hg Bool.false_ne_true

end

section
variable {s t : Daemon} {ev : Event}

theorem run_serve (hw : r.wellFormed = true) (hop : r.op = some op) :
    (serve fuel r w).run f d =
      (((dispatch fuel op r w).run f d).1.map fun a => ⟨replyWord r.word a.value, a.window⟩,
        ((dispatch fuel op r w).run f d).2) := by
  simp only [serve, if_pos hw, hop]
  rw [run_bind]
  rfl

theorem serve_unserved (fuel : ℕ) (w : Bytes) (h : ¬ (r.wellFormed = true ∧ ∃ op, r.op = some op)) :
    ∃ a, serve fuel r w = pure a := by
  unfold serve
  split
  · next hw =>
      cases hop : r.op with
      | none => exact ⟨_, rfl⟩
      | some op => exact absurd ⟨hw, op, hop⟩ h
  · exact ⟨_, rfl⟩

theorem disk_step_request (hup : s.up = true) :
    (s.step fuel (.request r f)).2.disk = ((serve fuel r s.window).run f s.disk).2 := by
  simp only [Daemon.step, hup, if_true]
  split <;> rfl

theorem held_step (hi : StoreInv s.disk) (hns : ns < nsMax) (hrev : revoked s.disk ns ≠ 0)
    (h : Serving (fun d r f => Respects d r f ns) s ev) :
    Held ns s.disk (s.step fuel ev).2.disk := by
  cases ev with
  | restart => exact .refl hi
  | request r f =>
    by_cases hup : s.up = true
    · rw [disk_step_request hup]
      by_cases hserved : r.wellFormed = true ∧ ∃ op, r.op = some op
      · obtain ⟨hw, op, hop⟩ := hserved
        rw [run_serve hw hop]
        exact held_dispatch hi hns hrev (h hup hw op hop)
      · obtain ⟨a, ha⟩ := serve_unserved fuel s.window hserved
        rw [ha]
        exact .refl hi
    · simp only [Daemon.step, hup]
      exact .refl hi

/-- Two daemons whose disks differ in values of the namespace only. -/
structure AlikeDaemons (ns : ℕ) (s t : Daemon) : Prop where
  disks : SecretEq ns s.disk t.disk
  window : t.window = s.window
  up : t.up = s.up

theorem blind_serve (fuel : ℕ) (hi : StoreInv s.disk) (hns : ns < nsMax) (hrev : revoked s.disk ns ≠ 0)
    (ha : SecretEq ns s.disk e) (hup : s.up = true)
    (hr : Serving (fun d r f => Respects d r f ns) s (.request r f))
    (hh : Serving (fun d r f => Hides d r f ns) s (.request r f)) :
    Blind ns (serve fuel r s.window) f s.disk e := by
  by_cases hserved : r.wellFormed = true ∧ ∃ op, r.op = some op
  · obtain ⟨hw, op, hop⟩ := hserved
    have hb := blind_dispatch hi hns hrev ha fuel s.window (hr hup hw op hop)
      (hh hup hw op hop)
    constructor
    · rw [run_serve hw hop, run_serve hw hop, hb.answer]
    · rw [run_serve hw hop, run_serve hw hop]
      exact hb.disks
  · obtain ⟨a, hs⟩ := serve_unserved fuel s.window hserved
    exact blind_of_pure a ha hs

theorem alike_step (fuel : ℕ) (hi : StoreInv s.disk) (hns : ns < nsMax)
    (hrev : revoked s.disk ns ≠ 0)
    (ha : AlikeDaemons ns s t) (hr : Serving (fun d r f => Respects d r f ns) s ev)
    (hh : Serving (fun d r f => Hides d r f ns) s ev) :
    (t.step fuel ev).1 = (s.step fuel ev).1 ∧
      AlikeDaemons ns (s.step fuel ev).2 (t.step fuel ev).2 := by
  obtain ⟨e, v, u⟩ := t
  obtain ⟨hd, hv, hu⟩ := ha
  subst hv hu
  cases ev with
  | restart => exact ⟨rfl, hd, rfl, rfl⟩
  | request r f =>
    by_cases hup : s.up = true
    · obtain ⟨hans, hdisks⟩ := blind_serve fuel hi hns hrev hd hup hr hh
      simp only [Daemon.step, hup, if_true, hans]
      cases ((serve fuel r s.window).run f s.disk).1 with
      | some a | none => exact ⟨rfl, hdisks, rfl, rfl⟩
    · have hs : s.step fuel (.request r f) = (none, s) := if_neg hup
      have ht : Daemon.step fuel ⟨e, s.window, s.up⟩ (.request r f) =
          (none, ⟨e, s.window, s.up⟩) := if_neg hup
      rw [hs, ht]
      exact ⟨rfl, hd, rfl, rfl⟩

theorem held_run (hns : ns < nsMax) (evs : List Event) (hi : StoreInv s.disk)
    (hrev : revoked s.disk ns ≠ 0) (h : s.Along fuel (Serving fun d r f => Respects d r f ns) evs) :
    Held ns s.disk (s.run fuel evs).2.disk := by
  induction evs generalizing s with
  | nil => exact .refl hi
  | cons ev evs ih =>
    have hstep : Held ns s.disk (s.step fuel ev).2.disk := held_step hi hns hrev h.1
    exact hstep.trans (ih hstep.inv (hstep.flag hrev) h.2)

theorem replies_alike (hns : ns < nsMax) (evs : List Event) (hi : StoreInv s.disk)
    (hrev : revoked s.disk ns ≠ 0) (ha : AlikeDaemons ns s t)
    (h : s.Along fuel (Serving fun d r f => Respects d r f ns) evs)
    (hh : s.Along fuel (Serving fun d r f => Hides d r f ns) evs) :
    (t.run fuel evs).1 = (s.run fuel evs).1 := by
  induction evs generalizing s t with
  | nil => rfl
  | cons ev evs ih =>
    have hstep : Held ns s.disk (s.step fuel ev).2.disk := held_step hi hns hrev h.1
    obtain ⟨hreply, halike⟩ := alike_step fuel hi hns hrev ha h.1 hh.1
    simp only [Daemon.run, hreply]
    rw [ih hstep.inv (hstep.flag hrev) halike h.2 hh.2]

/-- From a well-formed store with the revoked flag set, in every run whose requests
respect the namespace, whatever fails and whenever the daemon restarts, every
state reached has the flag set and the same head, count and chain. If the
requests also hide the namespace, then no reply depends on its values: all replies
are the same for every disk that differs in these values only. -/
theorem revocation_persists (fuel : ℕ) (s : Daemon) (evs : List Event) (hns : ns < nsMax)
    (hi : StoreInv s.disk) (hrev : revoked s.disk ns ≠ 0)
    (h : s.Along fuel (Serving fun d r f => Respects d r f ns) evs) :
    StillRevoked ns s.disk (s.run fuel evs).2.disk ∧
      (s.Along fuel (Serving fun d r f => Hides d r f ns) evs →
        ∀ e, SecretEq ns s.disk e →
          (Daemon.run fuel ⟨e, s.window, s.up⟩ evs).1 = (s.run fuel evs).1) := by
  have hheld := held_run hns evs hi hrev h
  exact ⟨⟨hheld, hheld.flag hrev⟩, fun hh _ he => replies_alike hns evs hi hrev ⟨he, rfl, rfl⟩ h hh⟩

end

def retired : CairnDisk :=
  ((Mutation.setRevoked (fun _ => 0) ⟨4, agent_lt_nsMax⟩ true).program.run .clean noted).2

theorem reachable_retired : Attained retired := .step _ _ reachable_noted

def agentRequest (op id arg : ℕ) : Request where
  word := typedWord op id 0 arg
  sender := 2
  caps := 4096
  input := fun _ => 0

def lateRequests : List Event :=
  [.request (agentRequest 44 1 0x4000) .clean, .restart,
    .request (agentRequest 46 1 0x4001) .clean]

theorem revocation_persists_retired :
    StillRevoked 4 retired (Daemon.run 256 ⟨retired, fun _ => 0, true⟩ lateRequests).2.disk := by
  have hrespects : Daemon.Along 256 (Serving fun d r f => Respects d r f 4)
      ⟨retired, fun _ => 0, true⟩ lateRequests := by
    refine ⟨?_, trivial, ?_, trivial⟩
    · rintro - - op hop
      obtain rfl : Op.cairnGet = op := Option.some.inj hop
      trivial
    · rintro - - op hop
      obtain rfl : Op.cairnRollback = op := Option.some.inj hop
      exact fun _ _ => rfl
  exact (revocation_persists 256 ⟨retired, fun _ => 0, true⟩ lateRequests (by decide)
    reachable_retired.storeInv (by decide +kernel) hrespects).1

/-- With the flag set, a mission rollback still retracts the note, and the note is
read by a forecast and by a get whose read of the flag fails. -/
theorem retired_reached :
    revoked retired 4 = 1 ∧ head retired 4 = 0 ∧
      head (Daemon.run 256 ⟨retired, fun _ => 0, true⟩
        [.request (agentRequest 52 1 0) .clean]).2.disk 4 = noSlot ∧
      (Daemon.run 256 ⟨retired, fun _ => 0, true⟩ [.request (agentRequest 51 1 0) .clean]).1.map
        (Option.map fun a => toList a.window valueOff 4) = [some (ascii "note")] ∧
      (Daemon.run 256 ⟨retired, fun _ => 0, true⟩
        [.request (agentRequest 44 1 0x4000) (.consRead false .clean)]).1.map
        (Option.map fun a => toList a.window 0 4) = [some (ascii "note")] :=
  ⟨by decide +kernel, by decide +kernel, by decide +kernel, by decide +kernel, by decide +kernel⟩

end Dezh.Revocation

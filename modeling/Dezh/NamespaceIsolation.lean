import Dezh.NamespaceSecrets
import Dezh.RollbackRepeat

/-!
# Isolation of namespaces in one service step

A sender without the capability of a namespace must neither change its head, its
length or its live records, nor see one of its values in the data window. The
gated operations keep this. The raw block accesses reach the Cairn region without
any check, and the authority scan of the mission operations leaves the last
record it has read in the data window, whatever it decides afterwards.
-/
namespace Dezh.NamespaceIsolation
open Function BlockProgram Program ByteLayout ParentChain CairnFormat CairnService SfarService CairnStore
open CairnOutcomes MissionScan MissionUndo MissionPublish MissionExact RollbackRepeat
open BlockDaemon DaemonAccess NamespaceSecrets

variable {d d' e : CairnDisk} {ns : ℕ} {w : Bytes} {ahd : UInt32} {caps sender fuel : ℕ}

section
variable {A : Type}

def leave (d : CairnDisk) (w : Bytes) : Option ℕ → Bytes
  | none => w
  | some slot => load w (d (commitFirstSector + slot))

/-- The record a scan of the live chains of `n` namespaces from `ns` on reads
last; `acc` has been read before. -/
def lastFrom (d : CairnDisk) (ns n : ℕ) (acc : Option ℕ) : Option ℕ :=
  (List.range' ns n).foldl (fun acc m => (liveChain d m).getLast?.or acc) acc

def lastSlot (d : CairnDisk) : Option ℕ := lastFrom d 0 nsMax none

theorem leave_leave (a b : Option ℕ) : leave d (leave d w a) b = leave d w (b.or a) := by
  cases a <;> cases b <;> simp [leave, load_load]

theorem eval_rw_read (w : Bytes) (sector : ℕ) (d : CairnDisk) :
    (rw w sector false).eval d = (⟨true, load w (d sector)⟩, d) := rfl

theorem scanChain_window (note : ℕ → Bytes → A → A) {good : ℕ → ℕ → Bytes → Prop} {cur : ℕ}
    {l : List ℕ} (hc : Chain commitLinks good (record d) cur l)
    (hv : ∀ s k r, good s k r → isCommit r = true) (hl : ∀ s ∈ l, s < noSlot) (guard : ℕ)
    (hguard : l.length ≤ guard) (acc : A) :
    ((scanChain note guard cur acc w).eval d).1.window = leave d w l.getLast? ∧
      ((scanChain note guard cur acc w).eval d).2 = d := by
  induction hc generalizing guard acc w with
  | nil =>
    cases guard with
    | zero => exact ⟨rfl, rfl⟩
    | succ guard =>
      rw [scanChain, if_pos (show commitLinks.stop = noSlot from rfl)]
      exact ⟨rfl, rfl⟩
  | @cons slot rest hg hd hc ih =>
    obtain ⟨guard, rfl⟩ : ∃ k, guard = k + 1 := by
      rw [List.length_cons] at hguard
      exact ⟨guard - 1, by omega⟩
    have hne : slot ≠ noSlot := Nat.ne_of_lt (hl slot List.mem_cons_self)
    rw [scanChain, if_neg hne, eval_bind, eval_rw_read]
    simp only [Bool.true_and, isCommit_window, hv _ _ _ hg, if_true, parent_window]
    obtain ⟨hwin, hdisk⟩ := ih (fun s hs => hl s (List.mem_cons_of_mem slot hs)) guard
      (by simpa using hguard) (note slot (load w (d (commitFirstSector + slot))) acc)
      (w := load w (d (commitFirstSector + slot)))
    refine ⟨hwin.trans ?_, hdisk⟩
    rw [show load w (d (commitFirstSector + slot)) = leave d w (some slot) from rfl, leave_leave,
      List.getLast?_cons]
    cases rest.getLast? <;> rfl

theorem scanFrom_window (hi : StoreInv d) (note : ℕ → ℕ → Bytes → A → A) {heads : ℕ → ℕ}
    (hh : ∀ m < nsMax, heads m = head d m) {n : ℕ} (hn : ns + n ≤ nsMax) (acc : A)
    (last : Option ℕ) :
    ((scanFrom note heads n ns acc (leave d w last)).eval d).1.window =
        leave d w (lastFrom d ns n last) ∧
      ((scanFrom note heads n ns acc (leave d w last)).eval d).2 = d := by
  induction n generalizing ns acc last with
  | zero => exact ⟨rfl, rfl⟩
  | succ n ih =>
    have hns : ns < nsMax := by omega
    obtain ⟨hwin, hdisk⟩ := scanChain_window (note ns) (w := leave d w last) (hi.chain ns hns)
      (fun _ _ _ hg => hg.commit) (StoreInv.lt_noSlot hi hns) commitSlots
      (StoreInv.length_le hi hns) acc
    rw [leave_leave] at hwin
    rw [scanFrom, eval_bind, hh ns hns, hwin, hdisk]
    exact ih (by omega) _ _

end

section

theorem lastSlot_settle (hi : StoreInv d) : lastSlot (settle d) = lastSlot d := by
  unfold lastSlot lastFrom
  refine List.foldl_ext _ _ _ fun acc m hm => ?_
  have hm' : m < nsMax := by
    rw [List.mem_range'_1] at hm
    omega
  rw [(SameStore.settle d).liveChain_eq hi hm']

theorem leave_settle (last : Option ℕ) : leave (settle d) w last = leave d w last := by
  cases last with
  | none => rfl
  | some slot => exact congrArg (load w) (settle_of_ne d (slot_ne_super slot))

theorem scan_window {A : Type} (hi : StoreInv d) (note : ℕ → ℕ → Bytes → A → A) {v : Bytes}
    {heads : ℕ → ℕ} (hh : ∀ m < nsMax, heads m = head d m)
    (hv : v = w ∨ v = leave d w (lastSlot d)) (acc : A) :
    ∃ value, (scanFrom note heads nsMax 0 acc v).eval (settle d) =
      (⟨value, leave d w (lastSlot d)⟩, settle d) := by
  have hi' := (SameStore.settle d).storeInv hi
  have hh' : ∀ m < nsMax, heads m = head (settle d) m :=
    fun m hm => (hh m hm).trans ((SameStore.settle d).head_eq m).symm
  obtain ⟨hwin, hdisk⟩ := scanFrom_window (w := v) hi' note hh' (Nat.zero_add nsMax).le acc none
  have hleave : leave (settle d) v (lastFrom (settle d) 0 nsMax none) = leave d w (lastSlot d) := by
    rw [show lastFrom (settle d) 0 nsMax none = lastSlot (settle d) from rfl, lastSlot_settle hi,
      leave_settle]
    rcases hv with rfl | rfl
    · rfl
    · rw [leave_leave]
      cases lastSlot d <;> rfl
  exact ⟨_, Prod.ext (congrArg (Answer.mk _) (hwin.trans hleave)) hdisk⟩

variable (w) in
theorem scan_loaded {A : Type} (hi : StoreInv d) (note : ℕ → ℕ → Bytes → A → A) {v : Bytes}
    (hv : v = load w (superOf d) ∨ v = leave d (load w (superOf d)) (lastSlot d)) (acc : A) :
    ∃ value, (scanFrom note (heads (load w (superOf d))) nsMax 0 acc v).eval (settle d) =
      (⟨value, leave d (load w (superOf d)) (lastSlot d)⟩, settle d) :=
  scan_window hi note (fun _ hm => heads_load hm) hv acc

theorem authority_scan (hi : StoreInv d) (ahd : UInt32) (w : Bytes) :
    ∃ touched, (sfarTouchedNs ahd (heads (load w (superOf d))) (load w (superOf d))).eval
        (settle d) = (⟨touched, leave d (load w (superOf d)) (lastSlot d)⟩, settle d) ∧
      ∀ m < nsMax, touched.testBit m = true ↔ Touches d ahd m := by
  obtain ⟨touched, hscan⟩ := scan_loaded w hi (noteTouched ahd) (.inl rfl) 0
  have hexec := exec_eval Faults.none
    (sfarTouchedNs ahd (heads (load w (superOf d))) (load w (superOf d))) (settle d)
  rw [sfarTouchedNs, hscan] at hexec
  obtain ⟨-, htouched⟩ := sfarTouchedNs_cases
    (fun m hm => (heads_load hm).trans ((SameStore.settle d).head_eq m).symm) hexec
  refine ⟨touched, hscan, fun m hm => ?_⟩
  have hsettle : Touches (settle d) ahd m ↔ Touches d ahd m := by
    rw [Touches, (SameStore.settle d).liveChain_eq hi hm]
    simp only [record_settle]
    rfl
  obtain ⟨h1, h2⟩ := htouched m hm
  exact ⟨fun h => hsettle.mp (h1 h), fun h => (h2 (hsettle.mpr h)).resolve_left id⟩

theorem sfarPlan_window (w : Bytes) (caps : ℕ) (hi : StoreInv d) (h0 : ahd ≠ 0) :
    ((sfarPlan ahd caps w).eval d).1.window = leave d (load w (superOf d)) (lastSlot d) ∧
      ((sfarPlan ahd caps w).eval d).2 = settle d := by
  obtain ⟨touched, hscan, -⟩ := authority_scan hi ahd w
  obtain ⟨plan, hplan⟩ := scan_loaded w hi (notePlan ahd) (.inr rfl) ({} : Forecast)
  rw [sfarPlan, if_neg h0, eval_bind, eval_cairnLoadSuper]
  simp only [if_true]
  rw [eval_bind, hscan]
  simp only
  split
  · exact ⟨rfl, rfl⟩
  · rw [eval_bind, hplan]
    split
    · exact ⟨rfl, rfl⟩
    · exact ⟨rfl, rfl⟩

theorem tbar_window (w : Bytes) (caps : ℕ) (hi : StoreInv d) (h0 : ahd ≠ 0) :
    ((tbar ahd caps w).eval d).1.window = leave d (load w (superOf d)) (lastSlot d) ∧
      ((tbar ahd caps w).eval d).2 = settle d := by
  obtain ⟨touched, hscan, -⟩ := authority_scan hi ahd w
  obtain ⟨covered, htbar⟩ := scan_loaded w hi (noteTbar ahd) (.inr rfl) []
  rw [tbar, if_neg h0, eval_bind, eval_cairnLoadSuper]
  simp only [if_true]
  rw [eval_bind, hscan]
  simp only
  split
  · exact ⟨rfl, rfl⟩
  · split
    · rw [eval_bind, htbar]
      exact ⟨rfl, rfl⟩
    · exact ⟨rfl, rfl⟩

theorem sfarRollback_denied (w : Bytes) (sender fuel : ℕ) (hi : StoreInv d) (h0 : ahd ≠ 0)
    (hauth : ¬ Authorized d ahd caps) :
    ∃ reply, (sfarRollback fuel ahd caps sender w).eval d =
      (some ⟨reply, leave d (load w (superOf d)) (lastSlot d)⟩, settle d) := by
  obtain ⟨touched, hscan, htouched⟩ := authority_scan hi ahd w
  have hden : (touched != 0 && !sfarAuthorized touched caps) = true := by
    rw [denied_iff, ← Bool.not_eq_true, sfarAuthorized_iff]
    intro hall
    exact hauth fun m hm ht => hall m hm ((htouched m hm).mpr ht)
  rw [sfarRollback, if_neg h0, eval_bind, eval_cairnLoadSuper]
  simp only [if_true]
  rw [eval_bind, hscan]
  simp only
  rw [if_pos hden]
  exact ⟨_, rfl⟩

theorem sfarRollback_window {K : Faults} {a : Answer RollbackReply}
    (h : (sfarRollback fuel ahd caps sender w).Exec K d (some a) d')
    (hok : a.value.status = .ok) : take sectorSize a.window = d' superSector := by
  rw [sfarRollback] at h
  split at h
  · obtain ⟨ha, -⟩ := h
    cases ha
    cases hok
  obtain ⟨r, d1, hr, hk⟩ := exec_bind.mp h
  split at hk
  swap
  · obtain ⟨ha, -⟩ := hk
    cases ha
    cases hok
  obtain ⟨t, d2, ht, hk⟩ := exec_bind.mp hk
  split at hk
  · obtain ⟨ha, -⟩ := hk
    cases ha
    cases hok
  obtain ⟨x, d3, hx, hk⟩ := exec_bind.mp hk
  cases x with
  | running => cases hk.1
  | aborted w1 =>
    obtain ⟨ha, -⟩ := hk
    cases ha
    cases hok
  | finished s w1 =>
    obtain ⟨u, d4, hu, hk⟩ := exec_bind.mp hk
    split at hk
    swap
    · obtain ⟨ha, -⟩ := hk
      cases ha
      cases hok
    obtain ⟨v, d5, hv, hk⟩ := exec_bind.mp hk
    rcases exec_rw_write.mp hv with ⟨rfl, rfl⟩ | ⟨rfl, -⟩
    · obtain ⟨ha, rfl⟩ := hk
      cases ha
      rw [take_reported, update_self]
    · obtain ⟨ha, -⟩ := hk
      cases ha
      cases hok

end

theorem lastSlot_secret (h : SecretEq ns d e) : lastSlot e = lastSlot d := by
  unfold lastSlot lastFrom
  refine List.foldl_ext _ _ _ fun acc m _ => ?_
  rw [h.liveChain_eq]

theorem authorized_secret (h : SecretEq ns d e) :
    Authorized e ahd caps ↔ Authorized d ahd caps := by
  simp only [Authorized, h.touches_iff]

theorem undo_secret (hi : StoreInv d) (h : SecretEq ns d e) (ht : ¬ Touches d ahd ns) {m : ℕ}
    (hm : m < nsMax) :
    undoRun (record e) ahd (liveChain d m) = undoRun (record d) ahd (liveChain d m) ∧
      standing (record e) ahd (liveChain d m) = standing (record d) ahd (liveChain d m) ∧
      verdict (record e) ahd (liveChain d m) = verdict (record d) ahd (liveChain d m) := by
  by_cases hmn : m = ns
  · subst hmn
    have hno := no_effect_of_not_touches ht
    obtain ⟨h1, h2, h3⟩ := clear_of_no_effect hno
    obtain ⟨h1', h2', h3'⟩ := clear_of_no_effect
      fun slot hs => (h.ofMission_eq ahd slot).trans (hno slot hs)
    exact ⟨h1'.trans h1.symm, h2'.trans h2.symm, h3'.trans h3.symm⟩
  · have hrec : ∀ slot ∈ liveChain d m, record e slot = record d slot := fun slot hs =>
      congrArg bytes (h.public_eq (chain_public hi hm hmn hs))
    exact ⟨undoRun_congr hrec, standing_congr hrec, verdict_congr hrec⟩

theorem undone_secret (hi : StoreInv d) (h : SecretEq ns d e) (ht : ¬ Touches d ahd ns) :
    (undone e ahd sender noCut w).1 = (undone d ahd sender noCut w).1 := by
  have hinit : initial e w = initial d w := by
    rw [initial, initial, h.superOf_eq, h.next_eq]
  have key : ∀ l : List ℕ, (∀ m ∈ l, m < nsMax) → ∀ p q : Staging × CairnDisk, p.1 = q.1 →
      (l.foldl (undoNs e ahd sender noCut) p).1 = (l.foldl (undoNs d ahd sender noCut) q).1 := by
    intro l
    induction l with
    | nil => exact fun _ p q hpq => hpq
    | cons m l ih =>
      intro hl p q hpq
      obtain ⟨h1, h2, h3⟩ := undo_secret hi h ht (hl m List.mem_cons_self)
      refine ih (fun m' hm' => hl m' (List.mem_cons_of_mem m hm')) _ _ ?_
      simp only [undoNs, noCut, h.liveChain_eq, h1, h2, h3, hpq]
  have hrange : ∀ m ∈ List.range' 0 nsMax, m < nsMax := by
    intro m hm
    rw [List.mem_range'_1] at hm
    omega
  exact key (List.range' 0 nsMax) hrange (initial e w, settle e) (initial d w, settle d) hinit

section
variable {r : Request} {op : Op}

def shown (a : Option Reply) : Option Sector := a.map fun a => take sectorSize a.window

/-- The step changes nothing of the namespace and shows none of its values. -/
structure Isolated (fuel : ℕ) (r : Request) (w : Bytes) (d : CairnDisk) (ns : ℕ) : Prop where
  head_eq : head ((serve fuel r w).eval d).2 ns = head d ns
  count_eq : count ((serve fuel r w).eval d).2 ns = count d ns
  records : ∀ slot ∈ liveChain d ns,
    ((serve fuel r w).eval d).2 (commitFirstSector + slot) = d (commitFirstSector + slot)
  reply : ∀ e, SecretEq ns d e →
    shown ((serve fuel r w).eval e).1 = shown ((serve fuel r w).eval d).1

def Breach (d : CairnDisk) (r : Request) (ns : ℕ) : Op → Prop
  | .bwrite => r.sector = superSector ∧ liveChain d ns ≠ [] ∨
      ∃ slot ∈ liveChain d ns, r.sector = commitFirstSector + slot
  | .bread => Exposes d ns r.sector
  | .sfarPlan | .tbar => r.sandIntent ≠ 0 ∧
      ∃ slot, lastSlot d = some slot ∧ Exposes d ns (commitFirstSector + slot)
  | .sfarRollback => r.sandIntent ≠ 0 ∧ ¬ Authorized d r.sandIntent r.caps ∧
      ∃ slot, lastSlot d = some slot ∧ Exposes d ns (commitFirstSector + slot)
  | _ => False

def dispatched (fuel : ℕ) (op : Op) (r : Request) (w : Bytes) (d : CairnDisk) :
    Option Sector × CairnDisk :=
  (((dispatch fuel op r w).eval d).1.map fun a => take sectorSize a.window,
    ((dispatch fuel op r w).eval d).2)

theorem serve_eq (hw : r.wellFormed = true) (hop : r.op = some op) :
    (shown ((serve fuel r w).eval d).1, ((serve fuel r w).eval d).2) =
      dispatched fuel op r w d := by
  rw [serve, if_pos hw, hop]
  simp only [eval_bind, eval_pure, dispatched, shown, Option.map_map]
  rfl

/-- Isolation of a dispatched operation. -/
structure OpIsolated (fuel : ℕ) (op : Op) (r : Request) (w : Bytes) (d : CairnDisk) (ns : ℕ) :
    Prop where
  head_eq : head (dispatched fuel op r w d).2 ns = head d ns
  count_eq : count (dispatched fuel op r w d).2 ns = count d ns
  records : ∀ slot ∈ liveChain d ns,
    (dispatched fuel op r w d).2 (commitFirstSector + slot) = d (commitFirstSector + slot)
  reply : ∀ e, SecretEq ns d e → (dispatched fuel op r w e).1 = (dispatched fuel op r w d).1

theorem isolated_iff_op (hw : r.wellFormed = true) (hop : r.op = some op) :
    Isolated fuel r w d ns ↔ OpIsolated fuel op r w d ns := by
  have hd : ∀ e, shown ((serve fuel r w).eval e).1 = (dispatched fuel op r w e).1 :=
    fun e => congrArg Prod.fst (serve_eq hw hop)
  have hdisk : ((serve fuel r w).eval d).2 = (dispatched fuel op r w d).2 :=
    congrArg Prod.snd (serve_eq hw hop)
  constructor
  · rintro ⟨h1, h2, h3, h4⟩
    simp only [hd, hdisk] at h1 h2 h3 h4
    exact ⟨h1, h2, h3, h4⟩
  · rintro ⟨h1, h2, h3, h4⟩
    simp only [← hd, ← hdisk] at h1 h2 h3 h4
    exact ⟨h1, h2, h3, h4⟩

theorem isolated_of_no_op (h : ¬ (r.wellFormed = true ∧ ∃ op, r.op = some op)) :
    Isolated fuel r w d ns := by
  have hs : ∃ word, serve fuel r w = pure (some ⟨word, w⟩) := by
    unfold serve
    split
    · next hw =>
        cases hop : r.op with
        | none => exact ⟨_, rfl⟩
        | some op => exact absurd ⟨hw, op, hop⟩ h
    · exact ⟨_, rfl⟩
  obtain ⟨word, hs⟩ := hs
  constructor
  all_goals simp [hs]

theorem exec_dispatched (fuel : ℕ) (op : Op) (r : Request) (w : Bytes) (d : CairnDisk) : ∃ a,
    (dispatch fuel op r w).Exec .none d a (dispatched fuel op r w d).2 :=
  ⟨_, exec_eval Faults.none (dispatch fuel op r w) d⟩

theorem isolated_guarded (hi : StoreInv d) (hns : ns < nsMax) (hno : holdsNs r.caps ns = false)
    (hop : guarded op = true) : OpIsolated fuel op r w d ns := by
  have hout : r.cairnNs ≠ ns ∨ cairnNsAllowed r.cairnNs r.caps = false := by
    by_cases hm : r.cairnNs = ns
    · right
      rw [cairnNsAllowed, hm, hno, Bool.and_false]
    · exact .inl hm
  obtain ⟨a, hx⟩ := exec_dispatched fuel op r w d
  obtain ⟨heffect, hdenied⟩ := dispatch_effect hop hx
  have hconf := confined_guarded fuel w hi hop fun _ => hout
  have hentry : head (dispatched fuel op r w d).2 ns = head d ns ∧
      count (dispatched fuel op r w d).2 ns = count d ns := by
    by_cases hm : ns = r.cairnNs
    · have hs := hdenied (hout.resolve_left fun hne => hne hm.symm)
      exact ⟨hs.head_eq ns, hs.count_eq ns⟩
    · obtain ⟨h1, h2, -⟩ := heffect.entry ns hns hm
      exact ⟨h1, h2⟩
  refine ⟨hentry.1, hentry.2, fun slot hs => ?_, fun e he => ?_⟩
  · exact hconf.frame hx (not_public_of_owned (owned_of_live hi hns hs))
  · have hsame := (hconf.run_congr (fun s hs => he.public_eq hs) .clean).1
    rw [run_clean, run_clean] at hsame
    simp only [dispatched, hsame]

def probeBlock : Sector := take sectorSize (setData (fun _ => 0) (ascii "DEZH-DAEMON-BLOCK-OK"))

theorem take_setData (w : Bytes) (s : List UInt8) :
    take sectorSize (setData w s) = take sectorSize (setData (fun _ => 0) s) := by
  refine take_congr fun i hi => ?_
  simp only [setData, copy, zeroFill, hi, if_true]

theorem dispatched_bread : dispatched fuel .bread r w d = (some (d r.sector), d) := by
  show (some (take sectorSize (load (setData w []) (d r.sector))), d) = _
  rw [take_load]

theorem dispatched_bwrite :
    dispatched fuel .bwrite r w d =
      (some probeBlock, update d r.sector probeBlock) := by
  show (some (take sectorSize (reported (setData w _) true)), update d r.sector _) = _
  rw [take_reported, take_setData]
  rfl

theorem isolated_bread : OpIsolated fuel .bread r w d ns ↔ ¬ Breach d r ns .bread := by
  rw [show Breach d r ns .bread = Exposes d ns r.sector from rfl, ← sector_eq_iff]
  constructor
  · rintro ⟨-, -, -, h⟩ e he
    have := h e he
    rw [dispatched_bread, dispatched_bread] at this
    exact Option.some.inj this
  · intro h
    constructor
    · rw [dispatched_bread]
    · rw [dispatched_bread]
    · rw [dispatched_bread]
      exact fun _ _ => rfl
    · intro e he
      rw [dispatched_bread, dispatched_bread, h e he]

theorem probeBlock_not_super : startsWith (bytes probeBlock) superMagic = false := by decide +kernel

theorem probeBlock_not_commit : isCommit (bytes probeBlock) = false := by decide +kernel

theorem entry_of_overwritten (hns : ns < nsMax) :
    head (update d superSector probeBlock) ns = noSlot ∧
      count (update d superSector probeBlock) ns = 0 := by
  have hsup : superOf (update d superSector probeBlock) = freshSuper := by
    unfold superOf formatted
    rw [update_self, probeBlock_not_super]
    exact if_neg (by decide)
  rw [head, count, hsup]
  exact ⟨(freshSuper_entry ns hns).1, (freshSuper_entry ns hns).2.1⟩

theorem superOf_update_other {sector : ℕ} (h : sector ≠ superSector) (b : Sector) :
    superOf (update d sector b) = superOf d := by
  unfold superOf formatted
  rw [update_of_ne h.symm]

theorem isolated_bwrite (hi : StoreInv d) (hns : ns < nsMax) :
    OpIsolated fuel .bwrite r w d ns ↔ ¬ Breach d r ns .bwrite := by
  have hhead := hi.head_eq hns
  constructor
  · rintro ⟨h1, -, h3, -⟩ hbreach
    rw [dispatched_bwrite] at h1 h3
    rcases hbreach with ⟨hsec, hne⟩ | ⟨slot, hs, hsec⟩
    · rw [hsec, (entry_of_overwritten hns).1, hhead] at h1
      cases hc : liveChain d ns with
      | nil => exact hne hc
      | cons slot rest =>
        rw [hc, List.headD_cons] at h1
        have hlt := StoreInv.lt_noSlot hi hns slot (hc ▸ List.mem_cons_self)
        omega
    · have hrec := h3 slot hs
      simp only [hsec, update_self] at hrec
      obtain ⟨depth, hg⟩ := (hi.chain ns hns).exists_good hs
      have hcommit := hg.commit
      rw [record, ← hrec, probeBlock_not_commit] at hcommit
      cases hcommit
  · intro hbreach
    rw [Breach, not_or] at hbreach
    obtain ⟨hsuper, hslots⟩ := hbreach
    have hentry : head (update d r.sector probeBlock) ns = head d ns ∧
        count (update d r.sector probeBlock) ns = count d ns := by
      by_cases hsec : r.sector = superSector
      · have hempty : liveChain d ns = [] := by
          by_contra hne
          exact hsuper ⟨hsec, hne⟩
        rw [hsec, (entry_of_overwritten hns).1, (entry_of_overwritten hns).2, hhead,
          hi.count_eq ns hns, hempty]
        exact ⟨rfl, rfl⟩
      · rw [head, head, count, count, superOf_update_other hsec]
        exact ⟨rfl, rfl⟩
    constructor
    · rw [dispatched_bwrite]
      exact hentry.1
    · rw [dispatched_bwrite]
      exact hentry.2
    · intro slot hs
      rw [dispatched_bwrite]
      exact update_of_ne (fun h => hslots ⟨slot, hs, h.symm⟩) _ _
    · intro e _
      rw [dispatched_bwrite, dispatched_bwrite]

theorem isolated_scan (h : ∀ e, SecretEq ns d e → dispatched fuel op r w e =
      (some (take sectorSize (leave e (load w (superOf e)) (lastSlot e))), settle e)) :
    OpIsolated fuel op r w d ns ↔
      ¬ ∃ slot, lastSlot d = some slot ∧ Exposes d ns (commitFirstSector + slot) := by
  have hd := h d (.refl ns d)
  constructor
  · rintro ⟨-, -, -, hreply⟩ ⟨slot, hlast, hexp⟩
    refine sector_eq_iff.mp (fun e he => ?_) hexp
    have := hreply e he
    rw [h e he, hd, lastSlot_secret he, hlast] at this
    simpa only [leave, take_load, Option.some.injEq] using this
  · intro hno
    constructor
    · rw [hd]
      exact (SameStore.settle d).head_eq ns
    · rw [hd]
      exact (SameStore.settle d).count_eq ns
    · rw [hd]
      exact fun slot _ => settle_of_ne d (slot_ne_super slot)
    · intro e he
      rw [h e he, hd, lastSlot_secret he, he.superOf_eq]
      cases hlast : lastSlot d with
      | none => rfl
      | some slot =>
        have hsame := sector_eq_iff.mpr (fun hexp => hno ⟨slot, hlast, hexp⟩) e he
        simp only [leave, take_load, hsame]

theorem isolated_forecast
    (hpure : r.sandIntent = 0 → ∀ e, dispatched fuel op r w e = (some (take sectorSize w), e))
    (hleave : r.sandIntent ≠ 0 → ∀ e, SecretEq ns d e → dispatched fuel op r w e =
      (some (take sectorSize (leave e (load w (superOf e)) (lastSlot e))), settle e)) :
    OpIsolated fuel op r w d ns ↔ ¬ (r.sandIntent ≠ 0 ∧
      ∃ slot, lastSlot d = some slot ∧ Exposes d ns (commitFirstSector + slot)) := by
  by_cases h0 : r.sandIntent = 0
  · refine ⟨fun _ hb => hb.1 h0, fun _ => ?_⟩
    constructor
    all_goals simp [hpure h0]
  · rw [isolated_scan (hleave h0)]
    exact not_congr ⟨fun h => ⟨h0, h⟩, fun h => h.2⟩

theorem isolated_plan (hi : StoreInv d) :
    OpIsolated fuel .sfarPlan r w d ns ↔ ¬ Breach d r ns .sfarPlan := by
  refine isolated_forecast (fun h0 e => ?_) fun h0 e he => ?_
  · simp only [dispatched, dispatch, answered, statusOnly, sfarPlan, if_pos h0]
    rfl
  · obtain ⟨hwin, hdisk⟩ := sfarPlan_window w r.caps (he.storeInv hi) h0
    simp only [dispatched, dispatch, answered, statusOnly, eval_bind, eval_pure, hwin, hdisk]
    rfl

theorem isolated_tbar (hi : StoreInv d) :
    OpIsolated fuel .tbar r w d ns ↔ ¬ Breach d r ns .tbar := by
  refine isolated_forecast (fun h0 e => ?_) fun h0 e he => ?_
  · simp only [dispatched, dispatch, answered, statusOnly, tbar, if_pos h0]
    rfl
  · obtain ⟨hwin, hdisk⟩ := tbar_window w r.caps (he.storeInv hi) h0
    simp only [dispatched, dispatch, answered, statusOnly, eval_bind, eval_pure, hwin, hdisk]
    rfl

theorem dispatched_rollback (w : Bytes) (fuel : ℕ) (hi : StoreInv d) (h0 : r.sandIntent ≠ 0)
    (hauth : Authorized d r.sandIntent r.caps) :
    dispatched (commitSlots + 1 + fuel) .sfarRollback r w d =
      (some (take sectorSize (publishSuper (undone d r.sandIntent r.sender noCut w).1
        (bytes (superOf d)))), rolledBack d r.sandIntent r.sender w) := by
  obtain ⟨a, heval, hok, -⟩ := eval_sfarRollback r.sender fuel w hi h0 hauth
  have hwin := sfarRollback_window (exec_none.mpr heval) hok
  rw [rolledBack, published, update_self] at hwin
  simp only [dispatched, dispatch, eval_bind, eval_pure, heval, Option.map_some, hwin]

theorem isolated_rollback (hi : StoreInv d) (hns : ns < nsMax) (hno : holdsNs r.caps ns = false) :
    OpIsolated (commitSlots + 1 + fuel) .sfarRollback r w d ns ↔
      ¬ Breach d r ns .sfarRollback := by
  by_cases h0 : r.sandIntent = 0
  · have hpure : ∀ e, dispatched (commitSlots + 1 + fuel) .sfarRollback r w e =
        (some (take sectorSize w), e) := by
      intro e
      simp only [dispatched, dispatch, sfarRollback, if_pos h0]
      rfl
    refine ⟨fun _ hb => hb.1 h0, fun _ => ?_⟩
    constructor
    all_goals simp [hpure]
  by_cases hauth : Authorized d r.sandIntent r.caps
  · refine ⟨fun _ hb => hb.2.1 hauth, fun _ => ?_⟩
    have ht : ¬ Touches d r.sandIntent ns := by
      intro ht
      rw [hauth ns hns ht] at hno
      cases hno
    have hd := dispatched_rollback w fuel hi h0 hauth
    have hst := staged_undone r.sender w hi (cuts_noCut d r.sandIntent Faults.none)
    obtain ⟨h1, h2, -⟩ := published_entry hst hns ht
    constructor
    · rw [hd]
      exact h1
    · rw [hd]
      exact h2
    · intro slot hs
      rw [hd]
      exact (rolledBack_extends r.sandIntent r.sender w hi).slots slot (hi.below ns hns slot hs)
    · intro e he
      rw [hd, dispatched_rollback w fuel (he.storeInv hi) h0
        ((authorized_secret he).mpr hauth),
        undone_secret hi he ht, he.superOf_eq]
  · have hleave : ∀ e, SecretEq ns d e →
        dispatched (commitSlots + 1 + fuel) .sfarRollback r w e =
          (some (take sectorSize (leave e (load w (superOf e)) (lastSlot e))), settle e) := by
      intro e he
      obtain ⟨reply, heval⟩ := sfarRollback_denied w r.sender (commitSlots + 1 + fuel)
        (he.storeInv hi) h0
        (fun h => hauth ((authorized_secret he).mp h))
      simp only [dispatched, dispatch, eval_bind, eval_pure, heval, Option.map_some]
    rw [isolated_scan hleave]
    exact not_congr ⟨fun h => ⟨h0, hauth, h⟩, fun h => h.2.2⟩

/-- The request reaches the namespace past the capability check. -/
def Reaches (d : CairnDisk) (r : Request) (ns : ℕ) : Prop :=
  r.wellFormed = true ∧ ∃ op, r.op = some op ∧ Breach d r ns op

theorem isolated_iff (hi : StoreInv d) (hns : ns < nsMax) (hno : holdsNs r.caps ns = false) :
    Isolated (commitSlots + 1 + fuel) r w d ns ↔ ¬ Reaches d r ns := by
  by_cases hserved : r.wellFormed = true ∧ ∃ op, r.op = some op
  swap
  · refine ⟨fun _ h => hserved ⟨h.1, h.2.imp fun _ h => h.1⟩, fun _ => isolated_of_no_op hserved⟩
  obtain ⟨hw, op, hop⟩ := hserved
  have hreach : Reaches d r ns ↔ Breach d r ns op := by
    constructor
    · rintro ⟨-, op', hop', hb⟩
      rw [hop, Option.some.injEq] at hop'
      rwa [hop']
    · exact fun hb => ⟨hw, op, hop, hb⟩
  rw [isolated_iff_op hw hop, hreach]
  cases op with
  | bwrite => exact isolated_bwrite hi hns
  | bread => exact isolated_bread
  | sfarPlan => exact isolated_plan hi
  | tbar => exact isolated_tbar hi
  | sfarRollback => exact isolated_rollback hi hns hno
  | _ => exact ⟨fun _ hb => hb, fun _ => isolated_guarded hi hns hno rfl⟩

/-- On a well-formed store one service step isolates every namespace whose
capability the sender lacks, exactly when the request reaches none of them: it is
no raw write to the superblock of a nonempty namespace or to a live record, no
raw read of a value, and no mission operation whose scan ends on a value. A
mission rollback that passes its own authority check isolates all others. -/
theorem namespace_isolation_iff (fuel : ℕ) (r : Request) (w : Bytes) (hi : StoreInv d) :
    (∀ ns < nsMax, holdsNs r.caps ns = false → Isolated (commitSlots + 1 + fuel) r w d ns) ↔
      ∀ ns < nsMax, holdsNs r.caps ns = false → ¬ Reaches d r ns :=
  forall_congr' fun _ => forall_congr' fun hns => forall_congr' fun hno =>
    isolated_iff hi hns hno

end

def bareRequest (op id arg : ℕ) : Request where
  word := typedWord op id 0 arg
  sender := 9
  caps := 0
  input := fun _ => 0

/-- A stranger's read of the agent namespace is turned away. -/
theorem namespace_isolation_get :
    Isolated (commitSlots + 1 + 0) (bareRequest 44 1 0x4000) (fun _ => 0) noted 4 := by
  refine (namespace_isolation_iff 0 (bareRequest 44 1 0x4000) (fun _ => 0)
    reachable_noted.storeInv).mpr ?_ 4 (by decide) (by decide)
  rintro ns - - ⟨-, op, hop, hb⟩
  have hget : op = .cairnGet := by
    have : (bareRequest 44 1 0x4000).op = some .cairnGet := by decide
    rw [this, Option.some.injEq] at hop
    exact hop.symm
  rw [hget] at hb
  exact hb

/-- A sender without any capability erases the agent namespace with a raw write,
and reads its value through a forecast that is denied or finds nothing. -/
theorem noted_reached :
    holdsNs (bareRequest 2 1 1600).caps 4 = false ∧ head noted 4 = 0 ∧
      head ((serve 256 (bareRequest 2 1 1600) fun _ => 0).eval noted).2 4 = noSlot ∧
      (((serve 256 (bareRequest 51 7 0) fun _ => 0).eval noted).1.map fun a =>
        toList a.window valueOff 4) = some (ascii "note") :=
  ⟨by decide, by decide +kernel, by decide +kernel, by decide +kernel⟩

end Dezh.NamespaceIsolation

import Dezh.DaemonWalks
import Dezh.MissionExact

/-!
# The sectors a request can reach

Every operation of the daemon except the raw block accesses and the mission
operations is confined: on every execution, whatever fails, it reads and writes
only sectors that are known in advance. The registry, package and legacy
operations stay below the Cairn region. An operation on one namespace reads the
superblock and the live chain of that namespace, and writes the superblock and
the next free slot. A mission operation reads the superblock and all live chains,
and a mission rollback writes free slots and the superblock.
-/
namespace Dezh.DaemonAccess
open BlockProgram Program ByteLayout ParentChain CairnFormat CairnService SfarService CairnStore
open CairnOutcomes MissionUndo BlockDaemon DaemonWalks

variable {cur : ℕ} {l : List ℕ} {s : Staging}

variable {R W : Set ℕ} {d d' : CairnDisk} {w : Bytes}

section
variable {sector : ℕ}

theorem confined_rw_read (h : sector ∈ R) : (rw w sector false).Confined R W d := by
  simp only [rw, Bool.false_eq_true, if_false, Confined]
  exact ⟨h, trivial, trivial⟩

theorem confined_rw_write (h : sector ∈ W) : (rw w sector true).Confined R W d := by
  simp only [rw, if_true, Confined]
  exact ⟨h, trivial, trivial, trivial⟩

theorem confined_read_bind {A : Type} {k : Answer Bool → Program Sector A} (h : sector ∈ R)
    (hread : (k ⟨true, load w (d sector)⟩).Confined R W d)
    (hfailed : (k ⟨false, reported w false⟩).Confined R W d) :
    (rw w sector false >>= k).Confined R W d := by
  refine (confined_rw_read h).bind fun a d1 hx => ?_
  obtain ⟨hd1, ha⟩ := exec_rw_read.mp hx
  subst d1
  rcases ha with rfl | ⟨-, rfl⟩
  · exact hread
  · exact hfailed

theorem confined_statusOnly {A : Type} {status : A → Status} {p : Program Sector (Answer A)}
    (h : p.Confined R W d) : (statusOnly status p).Confined R W d :=
  h.bind fun _ _ _ => trivial

theorem confined_answered {p : Program Sector (Answer Status)} (h : p.Confined R W d) :
    (answered p).Confined R W d :=
  h.bind fun _ _ _ => trivial

theorem confined_delivered {p : Program Sector (Answer Status)} (h : p.Confined R W d) :
    (delivered p).Confined R W d :=
  h.bind fun _ _ _ => trivial

end

def below : Set ℕ := {s | s < superSector}

theorem confined_plain {op : Op} (h : plain op = true) (fuel : ℕ) (r : Request) :
    (dispatch fuel op r w).Confined below below d :=
  (stays_plain h (fun _ hs => hs) (fun _ _ => legacy_below) (fun _ _ _ hs => hs) fuel r).confined d

section
variable {ns : ℕ}

section
variable (hR : superSector ∈ R)
include hR

theorem confined_cairnLoadSuper (hW : superSector ∈ W) : (cairnLoadSuper w).Confined R W d :=
  (stays_cairnLoadSuper hR fun _ => hW).confined d

theorem confined_loadSuper_bind {A : Type} {p q : Answer Bool → Program Sector A} (hW : superSector ∈ W)
    (hloaded : (p ⟨true, load w (superOf d)⟩).Confined R W (settle d))
    (hfailed : ∀ a d', (q a).Confined R W d') :
    (cairnLoadSuper w >>= fun r => if r.value then p r else q r).Confined R W d := by
  refine (confined_cairnLoadSuper hR hW).bind fun r d1 hr => ?_
  rcases cairnLoadSuper_cases hr with ⟨rfl, rfl⟩ | ⟨hv, -, -⟩
  · rw [if_pos rfl]
    exact hloaded
  · rw [if_neg (by simp [hv])]
    exact hfailed r d1

theorem confined_cairnNsSetRevoked {revoked : Bool} (hW : superSector ∈ W) :
    (cairnNsSetRevoked w ns revoked).Confined R W d :=
  (stays_cairnNsSetRevoked hR fun _ => hW).confined d

theorem confined_cairnCommit {input : Bytes} {len sender : ℕ} {intent derived : UInt32}
    {revClass : UInt8} (hW : superSector ∈ W) (hnext : commitFirstSector + next d ∈ W) :
    (cairnCommit input w ns len sender intent derived revClass).Confined R W d := by
  refine confined_loadSuper_bind hR hW ?_ fun _ _ => trivial
  simp only [next_load]
  split
  · refine (confined_rw_write hnext).bind fun s _ _ => ?_
    split
    · refine (confined_cairnLoadSuper hR hW).bind fun t _ _ => ?_
      split
      · exact (confined_rw_write hW).bind fun _ _ _ => trivial
      · trivial
    · trivial
  · trivial

end

section
variable {good : ℕ → ℕ → Bytes → Prop}

theorem confined_rollbackWalk (hc : Chain commitLinks good (record d) cur l)
    (hl : ∀ slot ∈ l, commitFirstSector + slot ∈ R) (steps walked : ℕ) :
    (rollbackWalk steps cur walked w).Confined R W d := by
  induction hc generalizing steps walked w with
  | nil =>
    cases steps with
    | zero => trivial
    | succ steps =>
      rw [rollbackWalk, if_pos (show commitLinks.stop = noSlot from rfl)]
      trivial
  | @cons slot rest hg hd hc ih =>
    cases steps with
    | zero => trivial
    | succ steps =>
      rw [rollbackWalk]
      split
      · trivial
      · refine confined_read_bind (hl slot List.mem_cons_self) ?_ trivial
        simp only [Bool.true_and, parent_window]
        split
        · exact ih (fun s hs => hl s (List.mem_cons_of_mem slot hs)) steps _
        · trivial

theorem confined_ledgerWalk (hc : Chain commitLinks good (record d) cur l)
    (hl : ∀ slot ∈ l, commitFirstSector + slot ∈ R) (limit : ℕ) :
    (ledgerWalk limit cur w).Confined R W d := by
  induction hc generalizing limit w with
  | nil =>
    cases limit with
    | zero => trivial
    | succ limit =>
      rw [ledgerWalk, if_pos (show commitLinks.stop = noSlot from rfl)]
      trivial
  | @cons slot rest hg hd hc ih =>
    cases limit with
    | zero => trivial
    | succ limit =>
      rw [ledgerWalk]
      split
      · trivial
      · refine confined_read_bind (hl slot List.mem_cons_self) ?_ trivial
        simp only [Bool.true_and, parent_window]
        split
        · exact (ih (fun s hs => hl s (List.mem_cons_of_mem slot hs)) limit).bind
            fun _ _ _ => trivial
        · trivial

end

theorem chain_settle (hi : StoreInv d) (hns : ns < nsMax) :
    Chain commitLinks (GoodRecord ns) (record (settle d)) (head d ns) (liveChain d ns) := by
  rw [show record (settle d) = record d from funext (record_settle d)]
  exact hi.chain ns hns

section
variable (hi : StoreInv d) (hns : ns < nsMax) (hR : superSector ∈ R) (hW : superSector ∈ W)
  (hchain : ∀ slot ∈ liveChain d ns, commitFirstSector + slot ∈ R)
include hi hns hR hW hchain

theorem confined_ledgerView : (ledgerView w ns).Confined R W d := by
  refine confined_loadSuper_bind hR hW ?_ fun _ _ => trivial
  simp only [u32At_load_head hns]
  exact confined_ledgerWalk (chain_settle hi hns) hchain 8

theorem confined_withHead {A : Type} {failed : Status → A} {k : ℕ → Bytes → Answer A} :
    (withHead w ns failed k).Confined R W d := by
  have hhead : head d ns ≠ noSlot → head d ns ∈ liveChain d ns := by
    intro hne
    cases hc : liveChain d ns with
    | nil =>
      refine absurd ?_ hne
      rw [hi.head_eq hns, hc]
      rfl
    | cons slot rest =>
      rw [hi.head_eq hns, hc]
      exact List.mem_cons_self
  refine Confined.bind ?_ fun r _ _ => ?_
  · refine confined_loadSuper_bind hR hW ?_ fun _ _ => trivial
    simp only [u32At_load_head hns]
    split
    · trivial
    · next hne =>
        refine (confined_rw_read (hchain _ (hhead hne))).bind fun s _ _ => ?_
        split <;> trivial
  · split
    · trivial
    · split <;> trivial

theorem confined_cairnRollback {steps : ℕ} : (cairnRollback w ns steps).Confined R W d := by
  refine confined_loadSuper_bind hR hW ?_ fun _ _ => trivial
  simp only [u32At_load_head hns]
  split
  · trivial
  · refine (confined_rollbackWalk (chain_settle hi hns) hchain _ _).bind
      fun s _ _ => ?_
    split
    · trivial
    · refine (confined_cairnLoadSuper hR hW).bind fun t _ _ => ?_
      split
      · exact (confined_rw_write hW).bind fun _ _ _ => trivial
      · trivial

end

section
variable {A : Type} {good : ℕ → ℕ → Bytes → Prop} {ahd : UInt32}
  {sender : ℕ}

theorem confined_scanChain {note : ℕ → Bytes → A → A} (hc : Chain commitLinks good (record d) cur l)
    (hl : ∀ slot ∈ l, commitFirstSector + slot ∈ R) (guard : ℕ) (acc : A) (w : Bytes) :
    (scanChain note guard cur acc w).Confined R W d := by
  induction hc generalizing guard acc w with
  | nil =>
    cases guard with
    | zero => trivial
    | succ guard =>
      rw [scanChain, if_pos (show commitLinks.stop = noSlot from rfl)]
      trivial
  | @cons slot rest hg hd hc ih =>
    cases guard with
    | zero => trivial
    | succ guard =>
      rw [scanChain]
      split
      · trivial
      · refine confined_read_bind (hl slot List.mem_cons_self) ?_ trivial
        simp only [Bool.true_and, parent_window]
        split
        · exact ih (fun s hs => hl s (List.mem_cons_of_mem slot hs)) guard _ _
        · trivial

theorem confined_scanFrom {note : ℕ → ℕ → Bytes → A → A} {heads : ℕ → ℕ} {n : ℕ}
    (chain : ℕ → List ℕ)
    (hc : ∀ m < ns + n, Chain commitLinks (GoodRecord m) (record d) (heads m) (chain m))
    (hl : ∀ m < ns + n, ∀ slot ∈ chain m, commitFirstSector + slot ∈ R) (acc : A) (w : Bytes) :
    (scanFrom note heads n ns acc w).Confined R ∅ d := by
  induction n generalizing ns acc w with
  | zero => trivial
  | succ n ih =>
    have hwalk : (scanChain (note ns) commitSlots (heads ns) acc w).Confined R ∅ d :=
      confined_scanChain (hc ns (by omega)) (hl ns (by omega)) commitSlots acc w
    refine hwalk.bind fun r d1 hr => ?_
    obtain rfl : d1 = d := funext fun sector => hwalk.frame hr (Set.notMem_empty sector)
    exact ih (fun m hm => hc m (by omega)) (fun m hm => hl m (by omega)) _ _

theorem confined_compensateAt (hW : ∀ slot, s.nextFree ≤ slot → commitFirstSector + slot ∈ W) :
    (compensateAt ahd sender ns cur s w).Confined R W d := by
  unfold compensateAt
  split
  · split
    · refine (confined_rw_write (hW _ le_rfl)).bind fun a _ _ => ?_
      split <;> trivial
    · trivial
  · trivial

theorem confined_rollbackChain (hc : Chain commitLinks good (record d) cur l)
    (hl : ∀ slot ∈ l, commitFirstSector + slot ∈ R)
    (hW : ∀ slot, s.nextFree ≤ slot → commitFirstSector + slot ∈ W) (fuel : ℕ) (w : Bytes) :
    (rollbackChain ahd sender ns fuel cur s w).Confined R W d := by
  induction hc generalizing fuel s w with
  | nil =>
    cases fuel with
    | zero => trivial
    | succ fuel =>
      rw [rollbackChain, if_pos (show commitLinks.stop = noSlot from rfl)]
      trivial
  | @cons slot rest hg hd hc ih =>
    cases fuel with
    | zero => trivial
    | succ fuel =>
      rw [rollbackChain]
      split
      · trivial
      · refine confined_read_bind (hl slot List.mem_cons_self) ?_ trivial
        simp only [Bool.true_and, parent_window]
        split
        · split
          · split
            · exact confined_compensateAt hW
            · refine ih (fun s hs => hl s (List.mem_cons_of_mem slot hs)) ?_ fuel _
              exact hW
            · trivial
          · trivial
        · trivial

theorem confined_rollbackFrom {n fuel : ℕ} (chain : ℕ → List ℕ) (hc : ∀ m, ns ≤ m → m < ns + n →
      Chain commitLinks (GoodRecord m) (record d) (s.newHead m) (chain m))
    (hfree : ∀ m < ns + n, ∀ slot ∈ chain m, slot < s.nextFree)
    (hl : ∀ m < ns + n, ∀ slot ∈ chain m, commitFirstSector + slot ∈ R)
    (hW : ∀ slot, s.nextFree ≤ slot → commitFirstSector + slot ∈ W) (w : Bytes) :
    (rollbackFrom fuel ahd sender n ns s w).Confined R W d := by
  induction n generalizing ns s w d with
  | zero => trivial
  | succ n ih =>
    refine (confined_rollbackChain (hc ns le_rfl (by omega)) (hl ns (by omega)) hW fuel
      w).bind fun a d1 ha => ?_
    obtain ⟨hfill, hgrow⟩ := rollbackChain_frame ha
    cases a with
    | finished s1 w1 =>
      have hle := (hgrow s1 w1 rfl).1
      refine ih (fun m hm hlt => ?_) (fun m hm slot hs => ?_) (fun m hm => hl m (by omega))
        (fun slot hs => hW slot (hle.trans hs)) w1
      · rw [rollbackChain_newHead (by omega) ha]
        refine (hc m (by omega) (by omega)).congr fun slot hs => ?_
        have := hfree m (by omega) slot hs
        exact congrArg bytes (hfill _ (.inl (by omega)))
      · exact (hfree m (by omega) slot hs).trans_le hle
    | aborted w1 | running => trivial

section
variable (hi : StoreInv d) (hR : superSector ∈ R) (hW : superSector ∈ W)
  (hchain : ∀ m < nsMax, ∀ slot ∈ liveChain d m, commitFirstSector + slot ∈ R)
include hi hR hW hchain

omit hR hW in
theorem confined_scan {note : ℕ → ℕ → Bytes → A → A} (acc : A) (w v : Bytes) :
    (scanFrom note (heads (load v (superOf d))) nsMax 0 acc w).Confined R ∅ (settle d) := by
  refine confined_scanFrom (liveChain d) (fun m hm => ?_) (fun m hm => ?_) acc w
  · rw [Nat.zero_add] at hm
    rw [heads_load hm]
    exact chain_settle hi hm
  · rw [Nat.zero_add] at hm
    exact hchain m hm

omit hR hW in
theorem confined_scan_bind {C : Type} {note : ℕ → ℕ → Bytes → A → A} {acc : A} {w v : Bytes}
    {k : Answer A → Program Sector C} (hk : ∀ a, (k a).Confined R W (settle d)) :
    (scanFrom note (heads (load v (superOf d))) nsMax 0 acc w >>= k).Confined R W (settle d) := by
  have hscan : (scanFrom note (heads (load v (superOf d))) nsMax 0 acc w).Confined R ∅ (settle d) :=
    confined_scan hi hchain acc w v
  refine (hscan.mono subset_rfl (Set.empty_subset W)).bind fun a d1 ha => ?_
  obtain rfl : d1 = settle d := funext fun sector => hscan.frame ha (Set.notMem_empty sector)
  exact hk a

theorem confined_sfarPlan (caps : ℕ) (w : Bytes) : (sfarPlan ahd caps w).Confined R W d := by
  unfold sfarPlan
  split
  · trivial
  · refine confined_loadSuper_bind hR hW ?_ fun _ _ => trivial
    refine confined_scan_bind hi hchain fun t => ?_
    split
    · trivial
    · refine confined_scan_bind hi hchain fun p => ?_
      split <;> trivial

theorem confined_tbar (caps : ℕ) (w : Bytes) : (tbar ahd caps w).Confined R W d := by
  unfold tbar
  split
  · trivial
  · refine confined_loadSuper_bind hR hW ?_ fun _ _ => trivial
    refine confined_scan_bind hi hchain fun t => ?_
    split
    · trivial
    · split
      · exact confined_scan_bind hi hchain fun _ => trivial
      · trivial

theorem confined_sfarRollback (hfree : ∀ slot, next d ≤ slot → commitFirstSector + slot ∈ W)
    (fuel caps sender : ℕ) (w : Bytes) :
    (sfarRollback fuel ahd caps sender w).Confined R W d := by
  unfold sfarRollback
  split
  · trivial
  · refine confined_loadSuper_bind hR hW ?_ fun _ _ => trivial
    refine confined_scan_bind hi hchain fun t => ?_
    split
    · trivial
    · refine Confined.bind (confined_rollbackFrom (liveChain d) (fun m _ hm => ?_)
        (fun m hm slot hs => ?_) (fun m hm => ?_) (fun slot hs => ?_) _) fun v _ _ => ?_
      · rw [Nat.zero_add] at hm
        show Chain _ _ _ (heads (load w (superOf d)) m) _
        rw [heads_load hm]
        exact chain_settle hi hm
      · rw [Nat.zero_add] at hm
        rw [next_load]
        exact hi.below m hm slot hs
      · rw [Nat.zero_add] at hm
        exact hchain m hm
      · rw [next_load] at hs
        exact hfree slot hs
      · split
        · trivial
        · trivial
        · refine (confined_cairnLoadSuper hR hW).bind fun u _ _ => ?_
          split
          · refine (confined_rw_write hW).bind fun _ _ _ => ?_
            split <;> trivial
          · trivial

end

end

end

end Dezh.DaemonAccess

import Dezh.CommandEffects
import Dezh.RemoveRecovery

/-!
# Runs of package commands

A run starts the kernel anew after every power cut, and otherwise hands the kernel of one
command to the next. The first command after a start recovers the store and loads it.
Both only weaken the entries: the state byte changes, or the entry is cleared.
-/
namespace Dezh.CommandRuns
open BlockProgram Program ByteLayout CairnFormat PackageFormat PackageStore PackageCodec
  PackageAreas PackageRecovery PackageLoading PackageCommands CheckpointCodec InstallTrace
  StorePhases RollbackRecovery CommandEffects

variable {reg : Bytes} {slot : ℕ} {K : Faults} {d : Disk Sector} {k : Kernel}
variable {manual : Bool} {raw : List UInt8}

section
variable {reg' reg'' : Bytes} {t i : ℕ} {state : UInt8}

/-- The fields of an entry behind its state byte are kept or zero, and an entry that
becomes empty has no fields. -/
structure WeakEntry (reg reg' : Bytes) (t : ℕ) : Prop where
  fields : (∀ i, 1 ≤ i → i < entrySize → reg' (entryOff t + i) = reg (entryOff t + i)) ∨
    ∀ i, 1 ≤ i → i < entrySize → reg' (entryOff t + i) = 0
  empty : entryState reg' t = stateEmpty → entryState reg t = stateEmpty ∨
    ∀ i, 1 ≤ i → i < entrySize → reg' (entryOff t + i) = 0

def Weakened (reg reg' : Bytes) : Prop := ∀ t < maxPkgs, WeakEntry reg reg' t

theorem WeakEntry.refl (reg : Bytes) (t : ℕ) : WeakEntry reg reg t :=
  ⟨.inl fun _ _ _ => rfl, .inl⟩

theorem Weakened.refl (reg : Bytes) : Weakened reg reg := fun t _ => .refl reg t

theorem WeakEntry.congr (h : WeakEntry reg reg' t)
    (hentry : ∀ i < entrySize, reg'' (entryOff t + i) = reg' (entryOff t + i)) :
    WeakEntry reg reg'' t := by
  have hstate : entryState reg'' t = entryState reg' t := hentry 0 (by decide)
  refine ⟨h.fields.imp (fun hsame i hi hi' => ?_) fun hzero i hi hi' => ?_, fun hempty => ?_⟩
  · rw [hentry i hi', hsame i hi hi']
  · rw [hentry i hi', hzero i hi hi']
  · refine (h.empty (hstate ▸ hempty)).imp_right fun hzero i hi hi' => ?_
    rw [hentry i hi', hzero i hi hi']

theorem Weakened.setEntryState (h : Weakened reg reg') (hne : state ≠ stateEmpty) :
    Weakened reg (setEntryState reg' slot state) := by
  intro t ht
  by_cases hslot : t = slot
  · subst hslot
    have hfield {i : ℕ} (hi : 1 ≤ i) :
        PackageStore.setEntryState reg' t state (entryOff t + i) = reg' (entryOff t + i) :=
      setEntryState_of_ne (by omega)
    refine ⟨(h t ht).fields.imp (fun hsame i hi hi' => ?_) fun hzero i hi hi' => ?_, fun hempty => ?_⟩
    · rw [hfield hi, hsame i hi hi']
    · rw [hfield hi, hzero i hi hi']
    · exact absurd (entryState_setEntryState.symm.trans hempty) hne
  · exact (h t ht).congr fun i hi => setEntryState_of_outside (entryOff_ne hslot hi)

theorem Weakened.clear (h : Weakened reg reg') : Weakened reg (clearRegistrySlot reg' slot) := by
  intro t ht
  by_cases hslot : t = slot
  · subst hslot
    have hzero : ∀ i, 1 ≤ i → i < entrySize → clearRegistrySlot reg' t (entryOff t + i) = 0 :=
      fun i _ hi => copy_inside hi
    exact ⟨.inr hzero, fun _ => .inr hzero⟩
  · refine (h t ht).congr fun i hi => copy_of_outside ?_
    have hout := entryOff_ne hslot hi
    omega

theorem Weakened.quarantine (h : Weakened reg reg') :
    Weakened reg (quarantinePendingSlots reg') := by
  unfold quarantinePendingSlots
  generalize List.range maxPkgs = l
  induction l generalizing reg' with
  | nil => exact h
  | cons slot rest ih =>
    rw [List.foldl_cons]
    refine ih ?_
    split_ifs
    · exact h.setEntryState (by decide)
    · exact h

theorem weakened_of_recovery {journal : Bytes}
    (h : RecoveryRegistry reg journal manual reg') : Weakened reg reg' := by
  cases h with
  | undone hdecode hreg =>
    rcases hreg with rfl | ⟨state, hne, rfl⟩
    · unfold rollbackSlotToOldState
      split_ifs with hempty
      · exact (Weakened.refl reg).clear
      · exact (Weakened.refl reg).setEntryState hempty
    · exact (Weakened.refl reg).setEntryState hne
  | quarantined => exact (Weakened.refl reg).quarantine

theorem weakened_of_changed {S : ℕ → Prop} {d d' : Disk Sector} (hreg : Weakened reg (registryOf d))
    (h : ∀ x, d' x = d x ∨ Effect (Weakened reg) S x (d' x)) : Weakened reg (registryOf d') := by
  intro t ht
  obtain ⟨reg', hreg', hentry⟩ := entry_of_effect h ht
  rcases hreg' with rfl | hreg'
  · exact (hreg t ht).congr hentry
  · exact (hreg' t ht).congr hentry

end

section
variable {S : ℕ → Prop} {d' : Disk Sector} {k' : Kernel}

theorem emits_markCorrupt (h : Weakened reg k.registry) :
    (markCorrupt k slot).Emits K (Effect (Weakened reg) S) d := by
  unfold markCorrupt
  refine emits_ite ((emits_writeRegistry ?_).bind fun _ _ _ => trivial) trivial
  exact h.setEntryState (by decide)

theorem exec_markCorrupt (h : Weakened reg k.registry) (he : (markCorrupt k slot).Exec K d k' d') :
    Weakened reg k'.registry ∧ k'.degraded = k.degraded := by
  unfold markCorrupt at he
  split_ifs at he
  · obtain ⟨ok, d1, -, he⟩ := exec_bind.mp he
    obtain ⟨rfl, -⟩ := (exec_pure _).mp he
    exact ⟨h.setEntryState (by decide), rfl⟩
  · obtain ⟨rfl, -⟩ := (exec_pure _).mp he
    exact ⟨h, rfl⟩

theorem emits_loadSlot (h : Weakened reg k.registry) :
    (loadSlot k slot).Emits K (Effect (Weakened reg) S) d := by
  have hmark (e : Disk Sector) : (markCorrupt k slot).Emits K (Effect (Weakened reg) S) e :=
    emits_markCorrupt h
  unfold loadSlot
  refine emits_ite trivial (emits_ite (hmark d) (emits_ite (hmark d) ?_))
  refine emits_readBlobArea.bind fun v d' _ => ?_
  cases v with
  | none => exact hmark d'
  | some raw =>
    refine emits_ite (hmark d') ?_
    split
    · exact hmark d'
    · exact emits_ite (hmark d') (emits_ite trivial (hmark d'))

theorem installRuntimeEntry_registry {p : Inspected} {rawLen rawCrc : ℕ} :
    (installRuntimeEntry k slot p rawLen rawCrc).2.registry = k.registry ∧
      (installRuntimeEntry k slot p rawLen rawCrc).2.degraded = k.degraded := by
  unfold installRuntimeEntry
  split_ifs <;> exact ⟨rfl, rfl⟩

theorem exec_loadSlot (h : Weakened reg k.registry) (he : (loadSlot k slot).Exec K d k' d') :
    Weakened reg k'.registry ∧ k'.degraded = k.degraded := by
  unfold loadSlot at he
  simp only at he
  split at he
  · obtain ⟨rfl, -⟩ := (exec_pure _).mp he
    exact ⟨h, rfl⟩
  split at he
  · exact exec_markCorrupt h he
  split at he
  · exact exec_markCorrupt h he
  obtain ⟨v, d1, -, he⟩ := exec_bind.mp he
  cases v with
  | none => exact exec_markCorrupt h he
  | some raw =>
    simp only at he
    split at he
    · exact exec_markCorrupt h he
    split at he
    · exact exec_markCorrupt h he
    split at he
    · exact exec_markCorrupt h he
    split at he
    · obtain ⟨rfl, -⟩ := (exec_pure _).mp he
      rw [installRuntimeEntry_registry.1]
      exact ⟨h, installRuntimeEntry_registry.2⟩
    · exact exec_markCorrupt h he

theorem emits_loadFrom {n : ℕ} (h : Weakened reg k.registry) :
    (loadFrom n slot k).Emits K (Effect (Weakened reg) S) d := by
  induction n generalizing slot k d with
  | zero => trivial
  | succ n ih => exact (emits_loadSlot h).bind fun k1 d1 he => ih (exec_loadSlot h he).1

theorem exec_loadFrom {n : ℕ} (h : Weakened reg k.registry)
    (he : (loadFrom n slot k).Exec K d k' d') :
    Weakened reg k'.registry ∧ k'.degraded = k.degraded := by
  induction n generalizing slot k d with
  | zero =>
    obtain ⟨rfl, -⟩ := (exec_pure _).mp he
    exact ⟨h, rfl⟩
  | succ n ih =>
    obtain ⟨k1, d1, hfirst, he⟩ := exec_bind.mp he
    obtain ⟨hreg, hdegraded⟩ := exec_loadSlot h hfirst
    obtain ⟨hreg', hdegraded'⟩ := ih hreg he
    exact ⟨hreg', hdegraded'.trans hdegraded⟩

theorem emits_recover (hk : k.registry = registryOf d) :
    (recoverFromJournal k manual).Emits K (Effect (Weakened (registryOf d)) fun _ => True) d :=
  (emits_recoverFromJournal manual hk).mono fun _ _ heffect =>
    heffect.mono (fun _ => weakened_of_recovery) fun _ _ => trivial

theorem emits_opening : (opening k).Emits K (Effect (Weakened (registryOf d)) fun _ => True) d := by
  refine emits_readRegistry.bind fun v d' hread => ?_
  obtain ⟨rfl, rfl | rfl⟩ := exec_readRegistry hread
  · simp only [if_true]
    refine (emits_recover (by simp only)).bind fun v d'' _ => ?_
    exact emits_ite emits_readRegistry trivial
  · trivial

theorem emits_ensureLoaded :
    (ensureLoaded k).Emits K (Effect (Weakened (registryOf d)) fun _ => True) d := by
  rw [ensureLoaded_eq]
  refine emits_ite trivial (emits_opening.bind fun r d' hopen => ?_)
  obtain ⟨ok, k'⟩ := r
  cases ok with
  | false => trivial
  | true =>
    have hreg : Weakened (registryOf d) k'.registry := by
      rw [exec_opening hopen]
      exact weakened_of_changed (.refl _) fun x => emits_opening.changed hopen x
    exact Emits.bind (emits_loadFrom hreg) fun _ _ _ => trivial

theorem ensureLoaded_plan {l : List Phase} (hl : (k.loaded && !k.degraded) = false)
    (h : (imageOf d).plan false = some l) :
    ∃ k' d', (ensureLoaded k).eval d = ((true, k'), d') ∧ Opened k' d' ∧
      Progress (fun _ => false) (replay d (writesOf l)) (registryOf (replay d (writesOf l)))
        maxPkgs k' ∧
      Tracked (replay d (writesOf l)) k' d' := by
  obtain ⟨k1, htrace, hreg, hdegraded⟩ := trace_opening_plan (k := k) h
  obtain ⟨k2, d2, hload, hprogress, htracked⟩ := eval_loadAll hreg
  have hexec : (loadAll k1).Exec .none (replay d (writesOf l)) k2 d2 := exec_none.mpr hload
  have hfalse : k2.degraded = false := (exec_loadFrom (.refl _) hexec).2.trans hdegraded
  refine ⟨{ k2 with loaded := true }, d2, ?_, ⟨?_, htracked.registry⟩, ?_, ?_⟩
  · rw [ensureLoaded_eq, hl, if_neg Bool.false_ne_true, eval_bind, htrace.eval, if_pos rfl,
      eval_bind, hload]
    rfl
  · rw [hfalse]
    rfl
  · exact ⟨hprogress.registry, hprogress.used, hprogress.pkgs, hprogress.arena⟩
  · exact ⟨htracked.registry, htracked.rest⟩

theorem ensureLoaded_refused (hl : (k.loaded && !k.degraded) = false)
    (h : (imageOf d).plan false = none) :
    (ensureLoaded k).eval d =
      ((false, Kernel.setDegraded { k with registry := registryOf d } true), d) := by
  have hrefused := trace_recover_refused (k := { k with registry := registryOf d }) (d := d)
    (by simp only) h
  have htrace : (opening k).Trace d
      (false, Kernel.setDegraded { k with registry := registryOf d } true) [] :=
    trace_readRegistry.bind_nil (hrefused.bind_nil (.pure _ d))
  rw [ensureLoaded_eq, hl, if_neg Bool.false_ne_true, eval_bind, htrace.eval]
  rfl

theorem eval_ensureLoaded (hk : Synced k d) :
    (∃ k' d', (ensureLoaded k).eval d = ((true, k'), d') ∧ Opened k' d') ∨
      ∃ k' d', (ensureLoaded k).eval d = ((false, k'), d') ∧ k'.loaded = false := by
  cases hl : k.loaded && !k.degraded with
  | true =>
    have hopen : Opened k d := ⟨hl, hk hl⟩
    exact .inl ⟨k, d, by rw [hopen.ensureLoaded, eval_pure], hopen⟩
  | false =>
    cases hplan : (imageOf d).plan false with
    | none => exact .inr ⟨_, _, ensureLoaded_refused hl hplan, rfl⟩
    | some l =>
      obtain ⟨k', d', heval, hopen, -⟩ := ensureLoaded_plan hl hplan
      exact .inl ⟨k', d', heval, hopen⟩

end

section
variable {R : Type}

/-- Without failures the registry in memory is that of the disk again, or it is read anew. -/
def Settled (p : Program Sector (R × Kernel)) (d : Disk Sector) : Prop :=
  p.Ensures .none (fun r d' => Synced r.2 d') d

theorem synced_of_loaded (h : k.loaded = false) : Synced k d := by
  intro hl
  rw [h] at hl
  cases hl

theorem settled_of_trace {p : Program Sector (R × Kernel)} {a : R × Kernel}
    {l : List (ℕ × Sector)} (h : p.Trace d a l) (ha : a.2.loaded = false) : Settled p d := by
  refine ensures_none.mpr ?_
  rw [h.eval]
  exact synced_of_loaded ha

theorem settled_install {p : Admission} (ha : Admitted k.registry raw p) :
    Settled (install k p raw) d :=
  settled_of_trace (trace_install ha) rfl

theorem registryOf_staged {u : Replacement} (r r' : JournalRecord) :
    registryOf (replay d (journalWrites (encodeJournal r) ++
      (blobWrites (stageBlobSector u.slot) raw ++ journalWrites (encodeJournal r')))) =
        registryOf d := by
  have hplaced : ∀ ph ∈ [Phase.journal (encodeJournal r), .blob (stageBlobSector u.slot) raw,
      .journal (encodeJournal r')], ph.Placed := by
    simp only [List.forall_mem_cons, List.not_mem_nil, false_implies, implies_true, and_true,
      Phase.Placed, true_and]
    exact le_stageBlobSector u.slot
  have himage := congrArg Image.registry (imageOf_complete (d := d) hplaced)
  simp only [writesOf_cons, writesOf_nil, List.append_nil] at himage
  exact himage

theorem settled_update {u : Replacement} {target : Text} {allow : Bool}
    (h : Synced k d) (ha : UpdateRecovery.Accepted k.registry target allow raw u) :
    Settled (update k u raw) d := by
  by_cases hlen : entryRawLen k.registry u.slot = 0 ∨ maxRawBytes < entryRawLen k.registry u.slot
  · refine ensures_none.mpr ?_
    rw [(UpdateRecovery.trace_update_refused ha hlen).eval]
    intro hl
    rw [registryOf_staged]
    exact h hl
  · refine settled_of_trace (UpdateRecovery.trace_update ha ?_ ?_) rfl <;> omega

theorem settled_rollback {name : Text} {forced : Bool} (h : Synced k d) :
    Settled (rollback k name forced) d := by
  unfold rollback
  split
  · exact ensures_pure h
  · rename_i slot hfound
    refine ensures_ite (ensures_pure h) (ensures_ite (ensures_pure h) ?_)
    refine ensures_bind fun v d' hread => ?_
    obtain rfl := emits_readBlobArea.disk_eq hread
    cases v with
    | none => exact ensures_pure h
    | some raw =>
      obtain ⟨hlen, hle⟩ := length_of_exec hread rfl
      refine ensures_ite (ensures_pure h) ?_
      exact settled_of_trace (trace_restore (findRegistrySlot_some hfound).1 (hlen ▸ hle)) rfl

theorem trace_zeroBlobArea {base : ℕ} (h : Within .blob base slotSectors) :
    (zeroBlobArea base).Trace d true (stripe base (sectorAt fun _ => 0) slotSectors) :=
  trace_writeArea h

theorem trace_wipeSlot (hs : slot < maxPkgs) : ∃ l, (wipeSlot slot).Trace d true l :=
  ⟨_, (trace_zeroBlobArea (within_slot hs)).bind
    ((trace_zeroBlobArea (within_previous hs)).bind (trace_zeroBlobArea (within_stage hs)))⟩

theorem trace_wipeSlots {l : List ℕ} (hl : ∀ slot ∈ l, slot < maxPkgs) :
    ∃ k' w, (wipeSlots k l).Trace d (none, k') w := by
  induction l generalizing k d with
  | nil => exact ⟨k, [], .pure _ d⟩
  | cons slot rest ih =>
    obtain ⟨w, hfirst⟩ := trace_wipeSlot (d := d) (hl slot List.mem_cons_self)
    obtain ⟨k', w', hrest⟩ := ih (k := { k with registry := clearRegistrySlot k.registry slot })
      (d := replay d w) fun slot hs => hl slot (List.mem_cons_of_mem _ hs)
    exact ⟨k', w ++ w', hfirst.bind hrest⟩

theorem settled_collect (h : Synced k d) : Settled (collect k) d := by
  have hslots : ∀ slot ∈ removedSlots k.registry, slot < maxPkgs := fun slot hs =>
    List.mem_range.mp (List.mem_filter.mp hs).1
  obtain ⟨k', w, hwipe⟩ := trace_wipeSlots (k := k) (d := d) hslots
  unfold collect
  refine ensures_ite (ensures_pure h) (hwipe.ensures_bind ?_)
  refine trace_writeRegistry.ensures_bind (trace_initStoreMarker.ensures_bind ?_)
  exact ensures_pure (synced_of_loaded rfl)

theorem settled_recoverFromJournal (h : k.registry = registryOf d) :
    Settled (recoverFromJournal k manual) d := by
  refine trace_readJournalRaw.ensures_bind ?_
  simp only
  split
  · exact ensures_pure fun _ => h
  · split_ifs
    · exact trace_commitStore.ensures_bind (ensures_pure (synced_of_loaded rfl))
    · exact ensures_pure (synced_of_loaded rfl)
  · refine ensures_bind fun v d' _ => ?_
    cases v with
    | none => exact ensures_pure (synced_of_loaded rfl)
    | some reg => exact trace_commitStore.ensures_bind (ensures_pure (synced_of_loaded rfl))

theorem ensures_invalidate {p : Program Sector Bool} {l : List (ℕ × Sector)}
    (h : p.Trace d true l) :
    (p >>= fun ok => if ok = true then pure (Kernel.invalidateLoaded k) else pure k).Ensures .none
      Synced d :=
  h.ensures_bind (ensures_pure (synced_of_loaded rfl))

theorem synced_inject (fault : Injection) (h : k.registry = registryOf d) :
    (inject k fault).Ensures .none Synced d := by
  have hpending (k' : Kernel) (r : JournalRecord) : (injectPending k' r).Ensures .none Synced d :=
    trace_writeRegistry.ensures_bind (ensures_invalidate trace_writeJournalRaw)
  cases fault with
  | installAfterBlob | corruptJournal => exact ensures_invalidate trace_writeJournalRaw
  | installPendingRegistry => exact hpending _ _
  | removePending =>
    simp only [inject]
    split
    · exact ensures_pure fun _ => h
    · exact hpending _ _

end

/-- A command does nothing, works on what it has just read, or opens the store first. -/
inductive Shape (c : Command) : Prop
  | idle (h : ∀ k, c.program k = pure k)
  | direct (h : c = .recover ∨ c = .store ∨ ∃ arg, c = .fault arg)
  | opens (body : Kernel → Program Sector Kernel) (h : ∀ k, c.program k =
      ensureLoaded k >>= fun r => if r.1 = true then body r.2 else pure r.2)

theorem Shape.of_store {c : Command} {R : Type} (unavailable : R)
    (body : Kernel → Program Sector (R × Kernel))
    (h : ∀ k, c.program k = withStore k unavailable body >>= fun r => pure r.2) : Shape c := by
  refine .opens (fun k => body k >>= fun r => pure r.2) fun k => ?_
  rw [h, withStore, bind_assoc]
  refine congrArg _ (funext fun r => ?_)
  obtain ⟨ok, k'⟩ := r
  cases ok <;> rfl

theorem pkgRecv_eq :
    pkgRecv k raw = withStore k (.rejected .storeUnavailable) fun k =>
      match recvChecks k.registry raw with
      | .error why => pure (.rejected why, k)
      | .ok p => install k p raw := rfl

theorem shape (c : Command) : Shape c := by
  cases c with
  | recv raw => exact .of_store _ _ fun k => by rw [Command.program, pkgRecv_eq]
  | update arg raw =>
    cases harg : splitWhitespace arg with
    | nil => exact .idle fun k => by simp only [Command.program, pkgUpdate, harg]; rfl
    | cons target options =>
      exact .of_store _ _ fun k => by simp only [Command.program, pkgUpdate, harg]; rfl
  | rollback arg =>
    cases harg : splitWhitespace arg with
    | nil => exact .idle fun k => by simp only [Command.program, pkgRollback, harg]; rfl
    | cons name options =>
      exact .of_store _ _ fun k => by simp only [Command.program, pkgRollback, harg]; rfl
  | remove arg => exact .of_store _ _ fun k => by rw [Command.program, pkgRemove]
  | pin arg pinned => exact .of_store _ _ fun k => by rw [Command.program, pkgPin]
  | gc arg =>
    cases hmode : gcMode arg with
    | none => exact .idle fun k => by simp only [Command.program, pkgGc, hmode]; rfl
    | some run => exact .of_store _ _ fun k => by simp only [Command.program, pkgGc, hmode]; rfl
  | run arg => exact .of_store _ _ fun k => by rw [Command.program, pkgRun]
  | recover => exact .direct (.inl rfl)
  | store => exact .direct (.inr (.inl rfl))
  | verify arg => exact .of_store _ _ fun k => by rw [Command.program, pkgVerify]
  | query =>
    refine .opens (fun k => pure k) fun k => ?_
    simp only [Command.program, pkgQuery, ite_self]
  | fault arg => exact .direct (.inr (.inr ⟨arg, rfl⟩))

theorem program_of_opened {c : Command} {body : Kernel → Program Sector Kernel}
    (h : ∀ k, c.program k =
      ensureLoaded k >>= fun r => if r.1 = true then body r.2 else pure r.2)
    (hk : Opened k d) : body k = c.program k := by
  rw [h, hk.ensureLoaded]
  rfl

theorem ensures_of_settled {R : Type} {p : Program Sector (R × Kernel)} (h : Settled p d) :
    (p >>= fun r => pure r.2).Ensures .none Synced d :=
  ensures_bind fun r d' he => ensures_pure (h r d' he)

theorem synced_direct {c : Command} (h : c = .recover ∨ c = .store ∨ ∃ arg, c = .fault arg) :
    (c.program k).Ensures .none Synced d := by
  rcases h with rfl | rfl | ⟨arg, rfl⟩
  · refine ensures_of_settled (trace_readRegistry.ensures_bind ?_)
    simp only [if_true, replay_nil]
    exact settled_recoverFromJournal (by simp only)
  · refine ensures_of_settled (trace_readRegistry.ensures_bind (ensures_bind fun r d' _ => ?_))
    refine trace_readRegistry.ensures_bind (trace_readJournalRaw.ensures_bind ?_)
    exact ensures_pure fun _ => rfl
  · refine trace_readRegistry.ensures_bind ?_
    simp only [if_true, replay_nil]
    split
    · exact synced_inject _ (by simp only)
    · exact ensures_pure fun _ => rfl

theorem synced_opened (h : Opened k d) (c : Command) : (c.program k).Ensures .none Synced d := by
  cases c with
  | recv raw =>
    simp only [Command.program, pkgRecv_eq, withStore_of_opened h]
    refine ensures_of_settled ?_
    split
    · exact ensures_pure h.synced
    · rename_i p hcheck
      exact settled_install (recvChecks_ok hcheck)
  | update arg raw =>
    refine ensures_of_settled ?_
    unfold pkgUpdate
    split
    · exact ensures_pure h.synced
    · rw [withStore_of_opened h]
      split
      · exact ensures_pure h.synced
      · rename_i u hcheck
        exact settled_update h.synced (UpdateRecovery.updateChecks_ok hcheck)
  | rollback arg =>
    refine ensures_of_settled ?_
    unfold pkgRollback
    split
    · exact ensures_pure h.synced
    · rw [withStore_of_opened h]
      exact settled_rollback h.synced
  | remove arg =>
    refine ensures_of_settled ?_
    rw [pkgRemove, withStore_of_opened h]
    split
    · exact ensures_pure h.synced
    · exact ensures_ite (ensures_pure h.synced)
        (settled_of_trace RemoveRecovery.trace_remove rfl)
  | pin arg pinned =>
    refine ensures_of_settled ?_
    rw [pkgPin, withStore_of_opened h]
    split
    · exact ensures_pure h.synced
    · refine trace_writeRegistry.ensures_bind (trace_initStoreMarker.ensures_bind ?_)
      exact ensures_pure (synced_of_loaded rfl)
  | gc arg =>
    refine ensures_of_settled ?_
    unfold pkgGc
    split
    · exact ensures_pure h.synced
    · rw [withStore_of_opened h]
      refine trace_readJournalRaw.ensures_bind ?_
      simp only
      split
      · exact ensures_pure h.synced
      · exact ensures_pure h.synced
      · exact ensures_ite (settled_collect h.synced) (ensures_pure h.synced)
  | run arg =>
    refine ensures_of_settled ?_
    rw [pkgRun, withStore_of_opened h]
    split
    · exact ensures_pure h.synced
    · split <;> exact ensures_pure h.synced
  | recover => exact synced_direct (.inl rfl)
  | store => exact synced_direct (.inr (.inl rfl))
  | verify arg =>
    refine ensures_of_settled ?_
    rw [pkgVerify, withStore_of_opened h]
    split
    · exact ensures_pure h.synced
    · refine ensures_ite (ensures_pure h.synced) (ensures_bind fun v d' hread => ?_)
      obtain rfl := emits_readBlobArea.disk_eq hread
      cases v with
      | none => exact ensures_pure h.synced
      | some raw =>
        refine ensures_ite (ensures_pure h.synced) ?_
        split
        · exact ensures_pure h.synced
        · split <;> exact ensures_pure h.synced
  | query =>
    refine ensures_of_settled ?_
    rw [pkgQuery, h.ensureLoaded]
    exact ensures_pure h.synced
  | fault arg => exact synced_direct (.inr (.inr ⟨arg, rfl⟩))

section
variable {d₀ : Disk Sector} {k₀ : Kernel} {c : Command}
  {allowed : Kernel → Disk Sector → Command → Prop}

theorem synced_program (h : Synced k d) (c : Command) :
    Synced ((c.program k).eval d).1 ((c.program k).eval d).2 := by
  refine ensures_none.mp ?_
  rcases shape c with hidle | hdirect | ⟨body, hbody⟩
  · rw [hidle]
    exact ensures_pure h
  · exact synced_direct hdirect
  · rw [hbody]
    refine ensures_bind fun r d' he => ?_
    have heval := exec_none.mp he
    rcases eval_ensureLoaded h with ⟨k', d1, hload, hopen⟩ | ⟨k', d1, hload, hloaded⟩
    · obtain ⟨rfl, rfl⟩ := Prod.mk.inj (heval.symm.trans hload)
      simp only [if_true]
      rw [program_of_opened hbody hopen]
      exact synced_opened hopen c
    · obtain ⟨rfl, rfl⟩ := Prod.mk.inj (heval.symm.trans hload)
      exact ensures_pure (synced_of_loaded hloaded)

/-- The kernels and disks of a run. A command comes to its end, or the power is cut after
some of its writes and the kernel starts anew. -/
inductive Reaches (allowed : Kernel → Disk Sector → Command → Prop) (k₀ : Kernel)
    (d₀ : Disk Sector) : Kernel → Disk Sector → Prop
  | start : Reaches allowed k₀ d₀ k₀ d₀
  | completes {k : Kernel} {d : Disk Sector} {c : Command} (h : Reaches allowed k₀ d₀ k d)
      (hc : allowed k d c) : Reaches allowed k₀ d₀ ((c.program k).eval d).1 ((c.program k).eval d).2
  | crashes {k : Kernel} {d : Disk Sector} {c : Command} (n : ℕ) (h : Reaches allowed k₀ d₀ k d)
      (hc : allowed k d c) : Reaches allowed k₀ d₀ .boot (crashAfter n (c.program k) d)

theorem Reaches.synced (hk0 : Synced k₀ d₀) (h : Reaches allowed k₀ d₀ k d) : Synced k d := by
  induction h with
  | start => exact hk0
  | completes h hc ih => exact synced_program ih _
  | crashes n h hc ih => exact synced_boot _

/-- A property of the registry that a command keeps on an opened store, as far as its
writes have come. -/
def Keeps (I : Bytes → Prop) (c : Command) : Prop :=
  ∀ d d' : Disk Sector, I (registryOf d) →
    (∀ x, d' x = d x ∨ Effect (registries (registryOf d) (journalOf d) c)
      (slots (registryOf d) (journalOf d) c) x (d' x)) → I (registryOf d')

section
variable {I : Bytes → Prop} (hweak : ∀ reg reg', Weakened reg reg' → I reg → I reg')
include hweak

theorem invariant_ensureLoaded (hI : I (registryOf d)) (n : ℕ) :
    I (registryOf (crashAfter n (ensureLoaded k) d)) :=
  hweak _ _ (weakened_of_changed (.refl _) fun x =>
    (emits_ensureLoaded (K := .none)).crashAfter n x) hI

theorem invariant_crashAfter (hkeeps : Keeps I c) (hk : Synced k d) (hI : I (registryOf d))
    (n : ℕ) :
    I (registryOf (crashAfter n (c.program k) d)) := by
  rcases shape c with hidle | hdirect | ⟨body, hbody⟩
  · refine hkeeps d _ hI fun x => .inl ?_
    rw [hidle, crashAfter_pure]
  · refine hkeeps d _ hI (Emits.crashAfter (K := .none) ?_ n)
    rcases hdirect with rfl | rfl | ⟨arg, rfl⟩
    · exact Emits.bind emits_pkgRecover fun _ _ _ => trivial
    · exact Emits.bind emits_pkgStore fun _ _ _ => trivial
    · exact emits_pkgFault arg
  · rw [hbody, crashAfter_bind]
    split
    · exact invariant_ensureLoaded hweak hI n
    · have hopened := invariant_ensureLoaded (k := k) hweak hI ((ensureLoaded k).writes d).length
      rw [crashAfter_eq_replay, List.take_length, ← eval_eq_replay] at hopened
      rcases eval_ensureLoaded hk with ⟨k', d1, hload, hopen⟩ | ⟨k', d1, hload, -⟩
      · rw [hload] at hopened ⊢
        simp only [if_true]
        rw [program_of_opened hbody hopen]
        exact hkeeps d1 _ hopened ((emits_program (K := .none) hopen c).crashAfter _)
      · rw [hload] at hopened ⊢
        simp only [Bool.false_eq_true, if_false]
        rw [crashAfter_pure]
        exact hopened

theorem Reaches.invariant (hkeeps : ∀ k d c, allowed k d c → Keeps I c) (hk0 : Synced k₀ d₀)
    (hstart : I (registryOf d₀)) (h : Reaches allowed k₀ d₀ k d) : I (registryOf d) := by
  induction h with
  | start => exact hstart
  | @completes k d c h hc ih =>
    have hall := invariant_crashAfter hweak (hkeeps k d c hc) (h.synced hk0) ih
      ((c.program k).writes d).length
    rwa [crashAfter_eq_replay, List.take_length, ← eval_eq_replay] at hall
  | @crashes k d c n h hc ih => exact invariant_crashAfter hweak (hkeeps k d c hc) (h.synced hk0) ih n

end

end

end Dezh.CommandRuns

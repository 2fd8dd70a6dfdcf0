import Dezh.RollbackRecovery

/-!
# Power cuts during a removal

A removal writes its record, the entry with a pending state, and the entry as removed.
The recovery completes the removal whenever it finds the record, so the package is
removed as soon as one sector has been written. No other entry and no sector of a blob
area changes, and the remaining packages are loaded as before.
-/
namespace Dezh.RemoveRecovery
open BlockProgram Program ByteLayout CairnFormat PackageFormat PackageStore PackageCodec
  PackageAreas PackageRecovery PackageCommands CheckpointCodec InstallTrace InstallRecovery
  StorePhases

variable {d : Disk Sector} {k : Kernel} {slot n : ℕ} {p : Inspected}

section
variable {reg : Bytes}

def removePhases (reg : Bytes) (slot : ℕ) : List Phase :=
  [.journal (encodeJournal (removal reg slot)), .registry (setEntryState reg slot statePendingRemove)] ++
  commit (setEntryState reg slot stateRemoved)

theorem encodable_removal (hs : slot < maxPkgs) (hl : entryRawLen reg slot ≤ maxRawBytes) :
    Encodable (removal reg slot) :=
  encodable_journalRecord hs entryText_length entryText_length u32At_lt hl u32At_lt
    (UInt32.toNat_lt _) (Nat.two_pow_pos 32)

theorem trace_remove :
    (remove k slot).Trace d (.removed, Kernel.invalidateLoaded { k with
        registry := setEntryState k.registry slot stateRemoved
        pkgs := Function.update k.pkgs slot none })
      (writesOf (removePhases k.registry slot)) := by
  have hremoved : setEntryState (setEntryState k.registry slot statePendingRemove) slot stateRemoved =
      setEntryState k.registry slot stateRemoved := setEntryState_setEntryState
  unfold remove
  simp only [removePhases, writesOf_append, writesOf_cons, writesOf_nil, writesOf_commit,
    Phase.writes, List.append_assoc, List.nil_append]
  refine trace_writeJournalRaw.bind ?_
  refine trace_writeRegistry.bind ?_
  rw [← hremoved, ← List.append_nil (commitWrites _)]
  exact trace_commitStore.bind (.pure _ _)

end

section
variable {img : Image} {s t : ℕ}

def journalAfter (img : Image) (slot n : ℕ) : Bytes :=
  if n = 0 then img.journal
  else if n < 14 then encodeJournal (removal img.registry slot)
  else fun _ => 0

def registryAfter (img : Image) (slot n : ℕ) : Bytes :=
  if n < 8 + entryWrites slot then img.registry
  else if n < 10 + entryWrites slot then setEntryState img.registry slot statePendingRemove
  else setEntryState img.registry slot stateRemoved

theorem crash_removePhases (hshort : Short img.journal) (hs : slot < maxPkgs)
    (hl : entryRawLen img.registry slot ≤ maxRawBytes) :
    crash (removePhases img.registry slot) n img =
      ⟨journalAfter img slot n, registryAfter img slot n, img.blobs⟩ := by
  have hrecord : Short (encodeJournal (removal img.registry slot)) :=
    short_encodeJournal (encodable_removal hs hl)
  have hentry := entryWrites_bounds hs
  have houtside {state : UInt8} : ∀ i, i < entryOff slot ∨ entryOff slot + entrySize ≤ i →
      setEntryState img.registry slot state i = img.registry i :=
    fun i hi => setEntryState_of_outside hi
  simp only [removePhases, commit, List.cons_append, List.nil_append, crash, Phase.after,
    Phase.size, Nat.sub_sub]
  refine Image.ext ?_ ?_ rfl
  · simp only
    rw [overlay_journal hshort hrecord, overlay_journal (hshort.ite hrecord) short_zero]
    unfold journalAfter journalSectors registrySectors
    split_ifs <;> first | omega | rfl
  · simp only
    rw [overlay_registry hs houtside, overlay_registry_ite hs houtside houtside]
    unfold registryAfter journalSectors registrySectors
    split_ifs <;> first | omega | rfl

def crashed (d : Disk Sector) (slot n : ℕ) : Disk Sector :=
  replay d ((writesOf (removePhases (registryOf d) slot)).take n)

theorem imageOf_crashed (hshort : Short (journalOf d)) (hs : slot < maxPkgs)
    (hl : entryRawLen (registryOf d) slot ≤ maxRawBytes) :
    imageOf (crashed d slot n) =
      ⟨journalAfter (imageOf d) slot n, registryAfter (imageOf d) slot n, (imageOf d).blobs⟩ := by
  have himage : Short (imageOf d).journal := hshort
  have hle : entryRawLen (imageOf d).registry slot ≤ maxRawBytes := hl
  have hcrash := crash_removePhases (n := n) himage hs hle
  rw [crashed, imageOf_crash ?_]
  · exact hcrash
  simp [removePhases, commit, Phase.Placed]

def registryRecovered (reg : Bytes) (slot n : ℕ) : Bytes :=
  if n = 0 then reg else setEntryState reg slot stateRemoved

def recovery (reg : Bytes) (slot n : ℕ) : List Phase :=
  if n = 0 ∨ 14 ≤ n then [] else commit (registryRecovered reg slot n)

theorem plan_crashed (hjournal : journalOf d = fun _ => 0) (hs : slot < maxPkgs)
    (hl : entryRawLen (registryOf d) slot ≤ maxRawBytes) :
    (imageOf (crashed d slot n)).plan false = some (recovery (registryOf d) slot n) := by
  have hshort : Short (journalOf d) := by
    rw [hjournal]
    exact short_zero
  have himage := imageOf_crashed (n := n) hshort hs hl
  unfold recovery
  split_ifs with hidle
  · refine plan_of_zero ?_
    rw [himage]
    unfold journalAfter
    simp only
    split_ifs with hn
    · exact hjournal
    · omega
    · rfl
  · have hrecord : (imageOf (crashed d slot n)).journal = encodeJournal (removal (registryOf d) slot) := by
      rw [himage]
      unfold journalAfter
      simp only
      rw [if_neg (by omega), if_pos (by omega)]
      rfl
    have hregistry : setEntryState (imageOf (crashed d slot n)).registry slot stateRemoved =
        registryRecovered (registryOf d) slot n := by
      rw [himage]
      unfold registryAfter registryRecovered
      simp only
      rw [if_neg (show ¬ n = 0 by omega)]
      split_ifs
      · rfl
      · exact setEntryState_setEntryState
      · exact setEntryState_setEntryState
    have hverdict := verdict_remove (imageOf (crashed d slot n)) (removal (registryOf d) slot) rfl
    refine (plan_of_record hrecord (encodable_removal hs hl) hverdict).trans ?_
    exact congrArg (fun reg => some (commit reg)) hregistry

def recovered (d : Disk Sector) (slot n : ℕ) : Disk Sector :=
  replay (crashed d slot n) (writesOf (recovery (registryOf d) slot n))

section
variable (hshort : Short (journalOf d)) (hs : slot < maxPkgs)
  (hl : entryRawLen (registryOf d) slot ≤ maxRawBytes)
include hshort hs hl

theorem registryOf_recovered :
    registryOf (recovered d slot n) = registryRecovered (registryOf d) slot n := by
  have hentry := entryWrites_bounds hs
  unfold recovered recovery
  split_ifs with hidle
  · have hcrashed : registryOf (crashed d slot n) = registryAfter (imageOf d) slot n :=
      congrArg Image.registry (imageOf_crashed hshort hs hl)
    rw [writesOf_nil, replay_nil, hcrashed]
    unfold registryAfter registryRecovered
    split_ifs <;> first | omega | rfl
  · refine registryOf_plan (l := []) fun i hi => ?_
    unfold registryRecovered
    split_ifs
    · exact area_of_le hi
    · rw [setEntryState_of_outside (.inr ((entryOff_lt hs).trans hi))]
      exact area_of_le hi

theorem recovered_of_le (h : 64 ≤ s) : recovered d slot n s = d s := by
  have hcrashed : crashed d slot n s = d s := by
    rw [← imageOf_blobs (d := crashed d slot n) h, imageOf_crashed hshort hs hl, imageOf_blobs h]
  unfold recovered recovery
  split_ifs with hidle
  · exact hcrashed
  · rw [← List.nil_append (commit _), blobs_plan h, writesOf_nil, replay_nil, hcrashed]

theorem untouched_recovered (hne : n = 0 ∨ t ≠ slot) :
    Untouched d (recovered d slot n) t := by
  have hbase := le_slotBlobSector t
  refine ⟨fun i hi => ?_, fun i _ => recovered_of_le hshort hs hl (by omega)⟩
  rw [registryOf_recovered hshort hs hl]
  unfold registryRecovered
  split_ifs with hn
  · rfl
  · exact setEntryState_of_outside (entryOff_ne (hne.resolve_left hn) hi)

end

end

section
variable {arg : Text}

/-- What a power cut behind `n` writes of a removal leaves of the package in `slot`. A
package that is not active is not removed. -/
structure Outcome (d : Disk Sector) (slot n : ℕ) (after : (Bool × Kernel) × Disk Sector) : Prop where
  usable : after.1.1 = true
  kept : n = 0 ∨ entryState (registryOf d) slot ≠ stateActive → EntryKept d after.2 slot
  served : n = 0 → entryState (registryOf d) slot = stateActive →
    ∃ p, Serves after slot (blobOf d (registryOf d) slot) p
  removed : n ≠ 0 → entryState (registryOf d) slot = stateActive →
    entryState (registryOf after.2) slot = stateRemoved
  others : ∀ t < maxPkgs, t ≠ slot → EntryKept d after.2 t
  blobs : ∀ s, 64 ≤ s → after.2 s = d s

theorem outcome_of_kept (hrest : AtRest d) (hs : slot < maxPkgs)
    (h : n = 0 ∨ entryState (registryOf d) slot ≠ stateActive) : Outcome d slot n (reboot d) := by
  obtain ⟨husable, hdisk, -⟩ := reboot_atRest hrest
  have hkept (t : ℕ) : EntryKept d (reboot d).2 t := by
    rw [hdisk]
    exact fun i _ => rfl
  refine ⟨husable, fun _ => hkept slot, fun _ hactive => ?_, fun hn hactive => ?_,
    fun t _ _ => hkept t, fun s _ => by rw [hdisk]⟩
  · obtain ⟨p, hp⟩ := hrest.loadable slot hs hactive
    have hsame : ∀ t ≤ slot, Untouched d (replay d (writesOf [])) t := fun t _ =>
      ⟨fun i _ => rfl, fun i _ => rfl⟩
    exact ⟨p, (kept_reboot (plan_of_zero hrest.journal) hrest hs hsame hactive hp).2⟩
  · exact absurd hactive (h.resolve_left hn)

theorem outcome_of_removed (hrest : AtRest d) (hs : slot < maxPkgs)
    (hactive : entryState (registryOf d) slot = stateActive) (hn : n ≠ 0) :
    Outcome d slot n (reboot (crashed d slot n)) := by
  have hshort := short_of_atRest hrest
  obtain ⟨p, hp⟩ := hrest.loadable slot hs hactive
  have hl : entryRawLen (registryOf d) slot ≤ maxRawBytes := hp.le
  have hstate : entryState (registryOf (recovered d slot n)) slot = stateRemoved := by
    rw [registryOf_recovered hshort hs hl, registryRecovered, if_neg hn]
    exact entryState_setEntryState
  have hinactive : entryState (registryOf (recovered d slot n)) slot ≠ stateActive := by
    rw [hstate]
    decide
  have hothers (t : ℕ) (hne : t ≠ slot) : Untouched d (recovered d slot n) t :=
    untouched_recovered hshort hs hl (.inr hne)
  have hloadable : ∀ t < maxPkgs,
      Loadable (recovered d slot n) (registryOf (recovered d slot n)) t := by
    intro t ht
    by_cases hne : t = slot
    · rw [hne]
      exact fun h => absurd h hinactive
    · exact (hothers t hne).loadable (hrest.loadable t ht)
  have hroom : payloadTotal (recovered d slot n) ≤ arenaSize := by
    have hzero : payloadLen (recovered d slot n) (registryOf (recovered d slot n)) slot ≤ 0 := by
      rw [payloadLen, if_neg hinactive]
    exact (payloadTotal_le hs hrest.loadable (fun t _ hne => hothers t hne) hzero).trans hrest.room
  obtain ⟨husable, hdisk, -⟩ := reboot_of_loadable (plan_crashed hrest.journal hs hl) hloadable hroom
  change _ = recovered d slot n at hdisk
  refine ⟨husable, fun h => ?_, fun h => absurd h hn, fun _ _ => ?_, fun t _ hne => ?_, fun s h => ?_⟩
  · exact absurd hactive (h.resolve_left hn)
  · rw [hdisk, hstate]
  · rw [hdisk]
    exact (hothers t hne).entry
  · rw [hdisk, recovered_of_le hshort hs hl h]

theorem trace_pkgRemove (hrest : AtRest d) (hk : Synced k d)
    (hfound : findRegistrySlot (registryOf d) (trim arg) = some slot) :
    ∃ k', (pkgRemove k arg).Trace d (if entryState (registryOf d) slot = stateActive then .removed
        else .notActive (entryState (registryOf d) slot), k')
      (if entryState (registryOf d) slot = stateActive then
        writesOf (removePhases (registryOf d) slot) else []) := by
  refine trace_withStore hrest hk fun k' hreg => ?_
  rw [← hreg] at hfound ⊢
  simp only [hfound]
  by_cases hactive : entryState k'.registry slot = stateActive
  · rw [if_neg (not_not_intro hactive), if_pos hactive, if_pos hactive]
    exact ⟨_, trace_remove⟩
  · rw [if_pos hactive, if_neg hactive, if_neg hactive]
    exact ⟨_, .pure _ d⟩

/-- After a power cut during a removal the package is removed, or nothing has been
written. Everything else is unchanged. -/
theorem remove_atomic (hrest : AtRest d) (hk : Synced k d)
    (hfound : findRegistrySlot (registryOf d) (trim arg) = some slot) (n : ℕ) :
    Outcome d slot n (reboot (crashAfter n (pkgRemove k arg) d)) := by
  have hs := (findRegistrySlot_some hfound).1
  obtain ⟨a, htrace⟩ := trace_pkgRemove hrest hk hfound
  rw [htrace.crashAfter]
  by_cases hactive : entryState (registryOf d) slot = stateActive
  · rw [if_pos hactive]
    by_cases hn : n = 0
    · rw [hn]
      exact outcome_of_kept hrest hs (.inl rfl)
    · exact outcome_of_removed hrest hs hactive hn
  · rw [if_neg hactive, List.take_nil]
    exact outcome_of_kept hrest hs (.inr hactive)

theorem remove_atomic_demo :
    AtRest demoDisk ∧ Synced .boot demoDisk ∧
    findRegistrySlot (registryOf demoDisk) (trim (ascii "demo")) = some 0 ∧
    Outcome demoDisk 0 1 (reboot (crashAfter 1 (pkgRemove .boot (ascii "demo")) demoDisk)) := by
  have hfound : findRegistrySlot (registryOf demoDisk) (trim (ascii "demo")) = some 0 := by
    rw [registryOf_demoDisk]
    decide +kernel
  exact ⟨atRest_demoDisk, synced_boot demoDisk, hfound,
    remove_atomic atRest_demoDisk (synced_boot demoDisk) hfound 1⟩

end

end Dezh.RemoveRecovery

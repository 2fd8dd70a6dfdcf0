import Dezh.InstallRecovery

/-!
# Marking packages corrupt

The loader persists its verdict: an active entry that is not loaded is rewritten as
corrupt. The verdict is about more than the entry and its package. A sector that
cannot be read and an arena that is full have the same effect as a bad checksum. So a
mark implies a bad package exactly as long as all sectors of valid packages can be
read and the valid packages fit into the arena together.
-/
namespace Dezh.CorruptMarking
open BlockProgram Program CairnFormat PackageStore PackageAreas
  PackageRecovery PackageLoading InstallRecovery

section
variable {d d' : Disk Sector} {k : Kernel} {slot : ℕ} {reads : ℕ → Bool}

/-- The slot is corrupt on the second device only. -/
def Marks (d d' : Disk Sector) (slot : ℕ) : Prop :=
  entryState (registryOf d) slot ≠ stateCorrupt ∧ entryState (registryOf d') slot = stateCorrupt

/-- The entry is active, and entry and package pass all checks. -/
def Valid (d : Disk Sector) (slot : ℕ) : Prop :=
  entryState (registryOf d) slot = stateActive ∧ ∃ p, Loads d (registryOf d) slot p

def beforeLoad (k : Kernel) (reads : ℕ → Bool) (d : Disk Sector) : Disk Sector :=
  if k.loaded && !k.degraded then d else ((opening k).run (.reliable reads) d).2

/-- The store was not loaded yet, and it could be opened. -/
def Reached (k : Kernel) (reads : ℕ → Bool) (d : Disk Sector) : Prop :=
  (k.loaded && !k.degraded) = false ∧ ((opening k).run (.reliable reads) d).1.1 = true

def unreadable (k : Kernel) (reads : ℕ → Bool) (d : Disk Sector) : List ℕ :=
  (loadAll ((opening k).run (.reliable reads) d).1.2).failedReads
    ((opening k).after (.reliable reads) d) ((opening k).run (.reliable reads) d).2

def afterLoad (k : Kernel) (reads : ℕ → Bool) (d : Disk Sector) : Disk Sector :=
  ((ensureLoaded k).run (.reliable reads) d).2

theorem afterLoad_of_not_reached (h : ¬ Reached k reads d) :
    afterLoad k reads d = beforeLoad k reads d := by
  unfold afterLoad beforeLoad
  rw [ensureLoaded_eq]
  cases hk : k.loaded && !k.degraded with
  | true => rfl
  | false =>
    have hfail : ((opening k).run (.reliable reads) d).1.1 = false := by
      rw [← Bool.not_eq_true]
      exact fun hok => h ⟨hk, hok⟩
    simp only [Bool.false_eq_true, if_false]
    rw [run_bind, hfail]
    rfl

theorem registryOf_afterLoad (h : Reached k reads d) :
    registryOf (afterLoad k reads d) = marked (touches (unreadable k reads d))
        (beforeLoad k reads d) (registryOf (beforeLoad k reads d)) maxPkgs ∧
      ∀ s ∈ unreadable k reads d, ∃ slot < maxPkgs,
        entryState (registryOf (beforeLoad k reads d)) slot = stateActive ∧
          slotBlobSector slot ≤ s ∧ s < slotBlobSector slot + slotSectors := by
  obtain ⟨hk, hopen⟩ := h
  obtain ⟨reads1, hafter⟩ := after_reliable (opening k) reads d
  have hexec : (opening k).Exec .readsOnly d (true, ((opening k).run (.reliable reads) d).1.2)
      ((opening k).run (.reliable reads) d).2 := by
    have hrun := exec_run (d := d) (opening k) (Schedule.reliable_within reads)
    rwa [← hopen]
  obtain ⟨reads2, l, k', d', hrun, hprogress, htracked, hactive⟩ := runs_loadAll reads1 (exec_opening hexec)
  have hbefore : beforeLoad k reads d = ((opening k).run (.reliable reads) d).2 := by
    rw [beforeLoad, hk]
    rfl
  have hunread : unreadable k reads d = l := by
    rw [unreadable, hafter, hrun.failed]
  have hdisk : afterLoad k reads d = d' := by
    rw [afterLoad, ensureLoaded_eq, hk, if_neg Bool.false_ne_true, run_bind, hopen, if_pos rfl,
      run_bind, hafter, hrun.run]
    rfl
  rw [hdisk, ← htracked.registry, hprogress.registry, hunread, hbefore]
  exact ⟨rfl, hactive⟩

section
variable {fails : ℕ → Bool}

section
variable (h : registryOf d' = marked fails d (registryOf d) maxPkgs)
include h

theorem marks_iff (hs : slot < maxPkgs) : Marks d d' slot ↔
    entryState (registryOf d) slot = stateActive ∧ loadedAt fails d (registryOf d) slot = none := by
  unfold Marks
  rw [h, entryState_marked]
  split_ifs with hmark
  · refine iff_of_true ⟨?_, rfl⟩ hmark.2
    rw [hmark.2.1]
    decide
  · exact iff_of_false (fun hm => hm.1 hm.2) fun hm => hmark ⟨hs, hm⟩

theorem only_invalid_iff : (∀ slot < maxPkgs, Marks d d' slot → ¬ Valid d slot) ↔
    AllLoaded fails d (registryOf d) maxPkgs := by
  constructor
  · intro hinvalid slot hs p hstate hp
    cases hq : loadedAt fails d (registryOf d) slot with
    | none =>
      exact absurd ⟨hstate, p, accepted_iff.mp hp⟩
        (hinvalid slot hs ((marks_iff h hs).mpr ⟨hstate, hq⟩))
    | some q => rw [← (loadedAt_eq_some.mp hq).2.2.1, hp]
  · rintro hall slot hs hmark ⟨hstate, p, hp⟩
    have hsome := hall slot hs p hstate (accepted_iff.mpr hp)
    rw [((marks_iff h hs).mp hmark).2] at hsome
    cases hsome

end

theorem valid_read_iff : (∀ slot < maxPkgs, Valid d slot → fails slot = false) ↔
    ∀ slot < maxPkgs, ∀ p, entryState (registryOf d) slot = stateActive →
      accepted d (registryOf d) slot = some p → fails slot = false := by
  constructor
  · exact fun hv slot hs p hstate hp => hv slot hs ⟨hstate, p, accepted_iff.mp hp⟩
  · rintro hv slot hs ⟨hstate, p, hp⟩
    exact hv slot hs p hstate (accepted_iff.mpr hp)

end

/-- For every store, every kernel and every pattern of failing reads: only invalid
packages are marked corrupt exactly if, once the loader is reached, all sectors of the
valid packages can be read and these packages fit into the arena. -/
theorem marks_only_invalid_iff (k : Kernel) (d : Disk Sector) (reads : ℕ → Bool) :
    (∀ slot < maxPkgs, Marks (beforeLoad k reads d) (afterLoad k reads d) slot →
        ¬ Valid (beforeLoad k reads d) slot) ↔
      (Reached k reads d →
        (∀ slot < maxPkgs, Valid (beforeLoad k reads d) slot →
          touches (unreadable k reads d) slot = false) ∧
        ∑ slot ∈ Finset.range maxPkgs,
          validPayload (beforeLoad k reads d) (registryOf (beforeLoad k reads d)) slot ≤
            arenaSize) := by
  by_cases h : Reached k reads d
  · rw [only_invalid_iff (registryOf_afterLoad h).1, allLoaded_iff, valid_read_iff]
    exact ⟨fun hall _ => hall, fun hall => hall h⟩
  · refine iff_of_true (fun slot _ hmark => ?_) fun hr => absurd hr h
    rw [afterLoad_of_not_reached h] at hmark
    exact absurd hmark.2 hmark.1

end

def readsOpening (i : ℕ) : Bool := decide (i < 12)

theorem beforeLoad_demo : beforeLoad .boot readsOpening demoDisk = demoDisk := by
  have hcount : (opening .boot).readCount demoDisk = 12 := by decide +kernel
  have hreads : ∀ i < (opening .boot).readCount demoDisk, readsOpening i = true := by
    intro i hi
    rw [hcount] at hi
    exact decide_eq_true hi
  rw [beforeLoad, if_neg (by decide), (run_reliable (opening .boot) hreads).1,
    (trace_opening atRest_demoDisk.decode).disk, replay_nil]

theorem valid_demoDisk : Valid demoDisk 0 :=
  ⟨installed_demoDisk.state, consistent_demoDisk.loadable 0 (by decide) installed_demoDisk.state⟩

/-- A transient read failure while the demo package is loaded: the package is valid, and
it is marked corrupt on disk. -/
theorem demo_marked :
    Valid demoDisk 0 ∧ beforeLoad .boot readsOpening demoDisk = demoDisk ∧
    Marks demoDisk (afterLoad .boot readsOpening demoDisk) 0 := by
  refine ⟨valid_demoDisk, beforeLoad_demo, ?_, ?_⟩
  · rw [valid_demoDisk.1]
    decide
  · decide +kernel

end Dezh.CorruptMarking

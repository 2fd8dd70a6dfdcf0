import Mathlib.Algebra.BigOperators.Group.Finset.Piecewise
import Mathlib.Algebra.Order.BigOperators.Group.Finset
import Dezh.PackageAreas
import Dezh.PackageText

/-!
# Recovery and loading

The store is consistent when its journal is clear, no entry is pending, unused
entries are blank and every active entry is accepted by the loader. Loading a
consistent store writes nothing as long as the payloads fit into the arena. A valid
journal record leads to one registry; the recovery commits it and clears the
journal, and then loads.
-/
namespace Dezh.PackageRecovery
open BlockProgram Program ByteLayout CairnFormat PackageFormat PackageStore PackageText PackageAreas

variable {d d' : Disk Sector} {reg : Bytes} {slot : ℕ} {k : Kernel}

theorem inspect_isUtf8 {raw : List UInt8} {q : Inspected} (h : inspect raw = some q) :
    isUtf8 q.name = true ∧ isUtf8 q.version = true ∧ q.mcaps < 2 ^ 5 := by
  unfold inspect at h
  split at h
  · exact nomatch h
  · rename_i pkg hparse
    split at h
    · rename_i name mcaps _ hname hmcaps
      obtain rfl := Option.some.inj h
      have hm := parse_isUtf8 hparse
      have hdefault : isUtf8 defaultVersion = true := by decide
      refine ⟨isUtf8_manifestStr hm hname, ?_, parseMcaps_lt hmcaps⟩
      cases hv : manifestStr pkg.manifest (ascii "version") with
      | none => exact hdefault
      | some version => exact isUtf8_manifestStr hm hv
    · exact nomatch h

section
variable {n : ℕ} {p : Inspected}

def blobOf (d : Disk Sector) (reg : Bytes) (slot : ℕ) : List UInt8 :=
  blobAt d (slotBlobSector slot) (u32At reg (entryOff slot + 12))

/-- The loader accepts the entry, and `p` is what the package contains. -/
structure Loads (d : Disk Sector) (reg : Bytes) (slot : ℕ) (p : Inspected) : Prop where
  magic : toList reg (entryOff slot + 1) 4 = regMagic
  pos : 0 < u32At reg (entryOff slot + 12)
  le : u32At reg (entryOff slot + 12) ≤ maxRawBytes
  crc : checksum (blobOf d reg slot) = u32At reg (entryOff slot + 16)
  contents : inspect (blobOf d reg slot) = some p
  name : p.name.length ≤ nameMax
  version : p.version.length ≤ verMax

def Loadable (d : Disk Sector) (reg : Bytes) (slot : ℕ) : Prop :=
  entryState reg slot = stateActive → ∃ p, Loads d reg slot p

def payloadLen (d : Disk Sector) (reg : Bytes) (slot : ℕ) : ℕ :=
  if entryState reg slot = stateActive then
    ((inspect (blobOf d reg slot)).map (·.payload.length)).getD 0
  else 0

theorem within_slot (hs : slot < maxPkgs) : Within .blob (slotBlobSector slot) slotSectors := by
  unfold maxPkgs at hs
  refine ⟨?_, ?_⟩ <;> simp only [slotBlobSector, slotSectors, BlockDaemon.PkgArea.first,
    BlockDaemon.PkgArea.last] <;> omega

theorem trace_loadSlot (hs : slot < maxPkgs) (h : Loadable d k.registry slot)
    (hfit : k.arenaUsed + payloadLen d k.registry slot ≤ arenaSize) :
    ∃ k', (loadSlot k slot).Trace d k' [] ∧ k'.registry = k.registry ∧ k'.degraded = k.degraded ∧
      k'.arenaUsed = k.arenaUsed + payloadLen d k.registry slot := by
  by_cases hstate : entryState k.registry slot = stateActive
  · obtain ⟨p, hp⟩ := h hstate
    have hlen : payloadLen d k.registry slot = p.payload.length := by
      rw [payloadLen, if_pos hstate, hp.contents]
      rfl
    rw [hlen] at hfit ⊢
    have hread : (readBlobArea (slotBlobSector slot) (u32At k.registry (entryOff slot + 12))).Trace d
        (some (blobOf d k.registry slot)) [] := trace_readBlobArea hp.le (within_slot hs)
    have hname := hp.name
    have hversion := hp.version
    refine ⟨(installRuntimeEntry k slot p (u32At k.registry (entryOff slot + 12))
      (u32At k.registry (entryOff slot + 16))).2, ?_, ?_, ?_, ?_⟩
    · unfold loadSlot
      rw [if_neg (not_not.mpr hstate), if_neg (not_not.mpr hp.magic),
        if_neg (by have := hp.pos; have := hp.le; omega)]
      refine hread.bind_nil ?_
      simp only [hp.crc, hp.contents, ne_eq, not_true_eq_false, if_false]
      rw [if_neg (by omega)]
      simp only [installRuntimeEntry, hfit, if_true]
      exact .pure _ d
    all_goals simp only [installRuntimeEntry, hfit, if_true]
  · refine ⟨k, ?_, rfl, rfl, ?_⟩
    · unfold loadSlot
      rw [if_pos hstate]
      exact .pure _ d
    · rw [payloadLen, if_neg hstate, Nat.add_zero]

theorem trace_loadFrom (hn : slot + n ≤ maxPkgs) (h : ∀ i < n, Loadable d k.registry (slot + i))
    (hfit : k.arenaUsed + ∑ i ∈ Finset.range n, payloadLen d k.registry (slot + i) ≤ arenaSize) :
    ∃ k', (loadFrom n slot k).Trace d k' [] ∧ k'.registry = k.registry ∧
      k'.degraded = k.degraded := by
  induction n generalizing slot k with
  | zero => exact ⟨k, .pure _ d, rfl, rfl⟩
  | succ n ih =>
    rw [Finset.sum_range_succ'] at hfit
    simp only [Nat.add_zero] at hfit
    have hfirst := h 0 (by omega)
    rw [Nat.add_zero] at hfirst
    obtain ⟨k1, ht1, hreg1, hdeg1, hused1⟩ := trace_loadSlot (by omega) hfirst (by omega)
    have hshift (i : ℕ) : slot + 1 + i = slot + (i + 1) := by omega
    have hrest : ∀ i < n, Loadable d k1.registry (slot + 1 + i) := by
      intro i hi
      rw [hreg1, hshift]
      exact h (i + 1) (by omega)
    have hroom : k1.arenaUsed +
        ∑ i ∈ Finset.range n, payloadLen d k1.registry (slot + 1 + i) ≤ arenaSize := by
      simp only [hreg1, hused1, hshift]
      omega
    obtain ⟨k2, ht2, hreg2, hdeg2⟩ := ih (by omega) hrest hroom
    exact ⟨k2, ht1.bind_nil ht2, hreg2.trans hreg1, hdeg2.trans hdeg1⟩

end

section
variable {r : JournalRecord} {l : List (ℕ × Sector)}

theorem trace_recover_empty {manual : Bool} (h : decodeJournal (journalOf d) = .empty) :
    (recoverFromJournal k manual).Trace d (true, k.setDegraded false) [] := by
  refine trace_readJournalRaw.bind_nil ?_
  simp only [h]
  exact .pure _ d

theorem not_early (hphase : r.phase = phaseRegistryPending) :
    ¬ (r.phase = phaseStarted ∨ r.phase = phaseBlobWritten) := by
  rw [hphase]
  decide

theorem registryOf_commit (hz : ∀ i, registrySize ≤ i → reg i = 0) :
    registryOf (replay d (commitWrites reg)) = reg := by
  refine area_eq (fun j hj => ?_) hz
  unfold registrySectors at hj
  simp only [commitWrites, journalWrites, registryWrites, markerWrites, replay_append,
    replay_stripe, registrySector, registrySectors, journalSector, journalSectors,
    BlockDaemon.pkgStoreMarkerSector]
  rw [if_neg (by omega), if_neg (by omega), if_pos (by omega), Nat.add_sub_cancel_left]

theorem commit_journal {i : ℕ} (hi : i < journalSectors) :
    replay d (commitWrites reg) (journalSector + i) = fun _ => 0 := by
  rw [commitWrites, replay_append, replay_append, journalWrites, replay_stripe,
    if_pos (by omega)]
  rfl

theorem commit_of_le {s : ℕ} (hs : 64 ≤ s) : replay d (commitWrites reg) s = d s := by
  simp only [commitWrites, journalWrites, registryWrites, markerWrites, replay_append,
    replay_stripe, registrySector, registrySectors, journalSector, journalSectors,
    BlockDaemon.pkgStoreMarkerSector]
  rw [if_neg (by omega), if_neg (by omega), if_neg (by omega)]

theorem trace_ensureLoaded (hk : (k.loaded && !k.degraded) = false)
    (hrec : ∀ k : Kernel, k.registry = registryOf d →
      ∃ k', (recoverFromJournal k false).Trace d (true, k') l ∧ k'.degraded = false)
    (hload : ∀ slot < maxPkgs, Loadable (replay d l) (registryOf (replay d l)) slot)
    (hfit : ∑ slot ∈ Finset.range maxPkgs,
      payloadLen (replay d l) (registryOf (replay d l)) slot ≤ arenaSize) :
    ∃ k', (ensureLoaded k).Trace d (true, k') l ∧ k'.registry = registryOf (replay d l) ∧
      k'.loaded = true ∧ k'.degraded = false := by
  obtain ⟨k1, ht1, hdeg1⟩ := hrec { k with registry := registryOf d } rfl
  let k2 : Kernel :=
    ({ k1 with registry := registryOf (replay d l) } : Kernel).clearRuntimeRegistry
  have hload' : ∀ i < maxPkgs, Loadable (replay d l) k2.registry (0 + i) := by
    intro i hi
    rw [Nat.zero_add]
    exact hload i hi
  have hroom : k2.arenaUsed +
      ∑ i ∈ Finset.range maxPkgs, payloadLen (replay d l) k2.registry (0 + i) ≤ arenaSize := by
    simpa only [Nat.zero_add, k2, Kernel.clearRuntimeRegistry] using hfit
  obtain ⟨k3, ht3, hreg3, hdeg3⟩ := trace_loadFrom (Nat.zero_add maxPkgs).le hload' hroom
  refine ⟨{ k3 with loaded := true }, ?_, hreg3, rfl, hdeg3.trans hdeg1⟩
  unfold ensureLoaded
  rw [hk, if_neg Bool.false_ne_true]
  refine trace_readRegistry.bind_nil ?_
  rw [← List.append_nil l]
  refine ht1.bind ?_
  refine trace_readRegistry.bind_nil ?_
  exact ht3.bind_nil (.pure _ _)

end

/-- A store at rest. -/
structure Consistent (d : Disk Sector) : Prop where
  journal : ∀ i < journalSectors, d (journalSector + i) = fun _ => 0
  empty : ∀ slot < maxPkgs, entryState (registryOf d) slot = stateEmpty →
    ∀ i < entrySize, registryOf d (entryOff slot + i) = 0
  settled : ∀ slot < maxPkgs, entryState (registryOf d) slot ≠ statePendingInstall ∧
    entryState (registryOf d) slot ≠ statePendingRemove
  loadable : ∀ slot < maxPkgs, Loadable d (registryOf d) slot

def payloadTotal (d : Disk Sector) : ℕ :=
  ∑ slot ∈ Finset.range maxPkgs, payloadLen d (registryOf d) slot

/-- A store after a successful use: nothing is journalled, and every active package can
be loaded. -/
structure AtRest (d : Disk Sector) : Prop where
  journal : journalOf d = fun _ => 0
  loadable : ∀ slot < maxPkgs, Loadable d (registryOf d) slot
  room : payloadTotal d ≤ arenaSize

/-- A kernel that takes its registry for loaded has the one on disk. -/
def Synced (k : Kernel) (d : Disk Sector) : Prop :=
  (k.loaded && !k.degraded) = true → k.registry = registryOf d

theorem synced_boot (d : Disk Sector) : Synced .boot d := fun h => (nomatch h)

/-- A kernel that has the store loaded. -/
structure Opened (k : Kernel) (d : Disk Sector) : Prop where
  loaded : (k.loaded && !k.degraded) = true
  registry : k.registry = registryOf d

theorem Opened.synced (h : Opened k d) : Synced k d := fun _ => h.registry

theorem Opened.ensureLoaded (h : Opened k d) : ensureLoaded k = pure (true, k) := if_pos h.loaded

theorem journalOf_of_zero (h : ∀ i < journalSectors, d (journalSector + i) = fun _ => 0) :
    journalOf d = fun _ => 0 := by
  refine area_eq ?_ fun _ _ => rfl
  exact h

theorem Consistent.atRest (h : Consistent d) (hfit : payloadTotal d ≤ arenaSize) : AtRest d :=
  ⟨journalOf_of_zero h.journal, h.loadable, hfit⟩

theorem AtRest.decode (h : AtRest d) : decodeJournal (journalOf d) = .empty := by
  rw [h.journal]
  exact PackageCodec.decodeJournal_zero

/-- Entry and package of a slot are those of another store. -/
structure Untouched (d d' : Disk Sector) (slot : ℕ) : Prop where
  entry : ∀ i < entrySize, registryOf d' (entryOff slot + i) = registryOf d (entryOff slot + i)
  blob : ∀ i < slotSectors, d' (slotBlobSector slot + i) = d (slotBlobSector slot + i)

namespace Untouched
section
variable (h : Untouched d d' slot)
include h

theorem state :
    entryState (registryOf d') slot = entryState (registryOf d) slot := h.entry 0 (by decide)

theorem field {o : ℕ} (ho : o + 4 ≤ entrySize) :
    u32At (registryOf d') (entryOff slot + o) = u32At (registryOf d) (entryOff slot + o) :=
  u32At_congr_add fun j _ h2 => h.entry j (by omega)

theorem blobOf_eq {p : Inspected} (hp : Loads d (registryOf d) slot p) :
    blobOf d' (registryOf d') slot = blobOf d (registryOf d) slot := by
  have hsectors := sectorsFor_le hp.le
  rw [blobOf, h.field (by decide), blobOf]
  exact blobAt_congr fun j hj => h.blob j (by omega)

theorem loads {p : Inspected} (hp : Loads d (registryOf d) slot p) :
    Loads d' (registryOf d') slot p := by
  have hmagic : toList (registryOf d') (entryOff slot + 1) 4 =
      toList (registryOf d) (entryOff slot + 1) 4 := by
    refine toList_congr fun i hi => ?_
    rw [Nat.add_assoc]
    refine h.entry _ ?_
    unfold entrySize
    omega
  have hlen := h.field (show 12 + 4 ≤ entrySize by decide)
  have hcrc := h.field (show 16 + 4 ≤ entrySize by decide)
  have hblob := h.blobOf_eq hp
  refine ⟨hmagic.trans hp.magic, ?_, ?_, ?_, ?_, hp.name, hp.version⟩
  · rw [hlen]
    exact hp.pos
  · rw [hlen]
    exact hp.le
  · rw [hblob, hcrc, hp.crc]
  · rw [hblob, hp.contents]

theorem loadable (hl : Loadable d (registryOf d) slot) : Loadable d' (registryOf d') slot := by
  intro hstate
  rw [h.state] at hstate
  obtain ⟨p, hp⟩ := hl hstate
  exact ⟨p, h.loads hp⟩

theorem payloadLen_eq (hl : Loadable d (registryOf d) slot) :
    payloadLen d' (registryOf d') slot = payloadLen d (registryOf d) slot := by
  unfold payloadLen
  rw [h.state]
  split_ifs with hstate
  · obtain ⟨p, hp⟩ := hl hstate
    rw [h.blobOf_eq hp]
  · rfl

end

end Untouched

theorem payloadTotal_le {d' : Disk Sector} {slot len : ℕ} (hs : slot < maxPkgs)
    (hloadable : ∀ t < maxPkgs, Loadable d (registryOf d) t)
    (hsame : ∀ t < maxPkgs, t ≠ slot → Untouched d d' t)
    (hlen : payloadLen d' (registryOf d') slot ≤ len) :
    payloadTotal d' ≤ payloadTotal d + len := by
  let new := fun t => if t = slot then len else 0
  have hslot : ∀ t ∈ Finset.range maxPkgs, payloadLen d' (registryOf d') t ≤
      payloadLen d (registryOf d) t + new t := by
    intro t ht
    have ht' := Finset.mem_range.mp ht
    by_cases hne : t = slot
    · simp only [new, hne, if_true]
      omega
    · rw [(hsame t ht' hne).payloadLen_eq (hloadable t ht')]
      exact Nat.le_add_right _ _
  have hnew : ∑ t ∈ Finset.range maxPkgs, new t = len := by
    rw [Finset.sum_ite_eq' (Finset.range maxPkgs) slot, if_pos (Finset.mem_range.mpr hs)]
  calc payloadTotal d'
      ≤ ∑ t ∈ Finset.range maxPkgs, (payloadLen d (registryOf d) t + new t) :=
        Finset.sum_le_sum hslot
    _ = payloadTotal d + len := by rw [Finset.sum_add_distrib, hnew, payloadTotal]

theorem AtRest.trace_ensureLoaded (h : AtRest d) (hk : Synced k d) :
    ∃ k', (ensureLoaded k).Trace d (true, k') [] ∧ k'.registry = registryOf d := by
  cases hl : k.loaded && !k.degraded with
  | true =>
    refine ⟨k, ?_, hk hl⟩
    rw [ensureLoaded, hl, if_pos rfl]
    exact .pure _ d
  | false =>
    have hrec (k : Kernel) : ∃ k', (recoverFromJournal k false).Trace d (true, k') [] ∧
        k'.degraded = false := ⟨_, trace_recover_empty h.decode, rfl⟩
    obtain ⟨k', ht, hreg, -⟩ := PackageRecovery.trace_ensureLoaded (l := []) hl
      (fun k _ => hrec k) h.loadable h.room
    exact ⟨k', ht, hreg⟩

end Dezh.PackageRecovery

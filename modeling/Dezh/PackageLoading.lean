import Dezh.ProgramEffects
import Dezh.PackageRecovery

/-!
# Loading the packages

The loader goes through the slots in order. An active entry is accepted when the
entry and the package pass all checks. An accepted package is loaded when all its
sectors could be read and its payload fits into the arena behind the ones before;
every other active entry is marked corrupt, and the registry is written. Other
entries are skipped. This holds for every contents of the store and every pattern of
failing reads.
-/
namespace Dezh.PackageLoading
open BlockProgram Program ByteLayout CairnFormat BlockDaemon PackageFormat PackageStore PackageCodec
  PackageAreas PackageRecovery

variable {d d' : Disk Sector} {n slot : ℕ} {reg : Bytes} {p : Inspected} {k : Kernel}
variable {K : Faults} {l' : List ℕ}

section
variable {a : PkgArea} {first i base rawLen : ℕ} {data : Bytes}

theorem runs_readSectors (reads : ℕ → Bool) (buf : Bytes) (h : Within a (first + i) n) :
    ∃ reads' l, (readSectors a first n i buf).Runs (.reliable reads) d
      (if l = [] then some (copy buf (sectorSize * i)
        (fun j => image d first (sectorSize * i + j)) (sectorSize * n)) else none)
      d (.reliable reads') l ∧ ∀ s ∈ l, first + i ≤ s ∧ s < first + i + n := by
  induction n generalizing i buf reads with
  | zero =>
    have hbuf : copy buf (sectorSize * i) (fun j => image d first (sectorSize * i + j))
        (sectorSize * 0) = buf := funext fun j => copy_of_outside (by omega)
    refine ⟨reads, [], ?_, by simp⟩
    rw [hbuf]
    exact .pure _ _ d
  | succ n ih =>
    unfold Within at h
    have hread := readSector_eq (a := a) (s := first + i) ⟨h.1, by omega⟩
    cases hr : reads 0 with
    | true =>
      have hfirst : (readSector a (first + i)).Runs (.reliable reads) d (some (d (first + i))) d
          (.reliable fun i => reads (i + 1)) [] := by
        rw [hread]
        refine ⟨?_, ?_, ?_⟩ <;>
          simp [run, after, failedReads, Schedule.reliable, Schedule.afterRead, hr]
      obtain ⟨reads', l, hrun, hl⟩ := ih (i := i + 1) (fun i => reads (i + 1))
        (copy buf (sectorSize * i) (bytes (d (first + i))) sectorSize) ⟨by omega, by omega⟩
      rw [copy_image_succ] at hrun
      refine ⟨reads', l, hfirst.bind_nil hrun, fun s hs => ?_⟩
      have := hl s hs
      omega
    | false =>
      have hfirst : (readSector a (first + i)).Runs (.reliable reads) d none d
          (.reliable fun i => reads (i + 1)) [first + i] := by
        rw [hread]
        refine ⟨?_, ?_, ?_⟩ <;>
          simp [run, after, failedReads, Schedule.reliable, Schedule.afterRead, hr]
      refine ⟨fun i => reads (i + 1), [first + i], hfirst.bind (.pure none _ d), fun s hs => ?_⟩
      obtain rfl := List.mem_singleton.mp hs
      omega

theorem runs_readBlobArea (reads : ℕ → Bool) (hl : rawLen ≤ maxRawBytes)
    (hb : Within .blob base slotSectors) :
    ∃ reads' l, (readBlobArea base rawLen).Runs (.reliable reads) d
      (if l = [] then some (blobAt d base rawLen) else none) d (.reliable reads') l ∧
        ∀ s ∈ l, base ≤ s ∧ s < base + slotSectors := by
  have hsectors := sectorsFor_le hl
  have hwithin : Within .blob (base + 0) (sectorsFor rawLen) := ⟨hb.1, by have := hb.2; omega⟩
  obtain ⟨reads', l, hrun, hmem⟩ := runs_readSectors (d := d) reads (fun _ => 0) hwithin
  have hbytes : toList (copy (fun _ => 0) (sectorSize * 0)
      (fun j => image d base (sectorSize * 0 + j)) (sectorSize * sectorsFor rawLen)) 0 rawLen =
        blobAt d base rawLen := by
    refine toList_congr fun i hi => ?_
    have hlen := le_sectorsFor rawLen
    rw [Nat.mul_zero, copy_inside (by rw [Nat.mul_comm]; omega)]
  refine ⟨reads', l, ?_, fun s hs => ?_⟩
  · rw [readBlobArea, if_neg (not_oversized hl), ← List.append_nil l]
    refine hrun.bind ?_
    by_cases h : l = []
    · simp only [h, List.append_nil, if_true, Option.map_some, hbytes]
      exact .pure _ _ d
    · simp only [h, List.append_nil, if_false, Option.map_none]
      exact .pure _ _ d
  · have := hmem s hs
    omega

theorem exec_readSectors {d' : Disk Sector} {buf : Bytes} {r : Option Bytes}
    (h : Within a (first + i) n) (he : (readSectors a first n i buf).Exec K d r d') :
    d' = d ∧ ∀ b, r = some b → b = copy buf (sectorSize * i)
      (fun j => image d first (sectorSize * i + j)) (sectorSize * n) := by
  induction n generalizing i buf with
  | zero =>
    obtain ⟨rfl, rfl⟩ := he
    refine ⟨rfl, fun b hb => ?_⟩
    obtain rfl := Option.some.inj hb
    exact (funext fun j => copy_of_outside (by omega)).symm
  | succ n ih =>
    unfold Within at h
    rw [readSectors, readSector_eq ⟨h.1, by omega⟩] at he
    rcases he with he | ⟨-, he⟩
    · obtain ⟨hd, hb⟩ := ih ⟨by omega, by omega⟩ he
      refine ⟨hd, fun b hr => ?_⟩
      rw [hb b hr, copy_image_succ]
    · obtain ⟨rfl, rfl⟩ := he
      exact ⟨rfl, fun b hb => absurd hb (Option.some_ne_none b).symm⟩

theorem exec_readArea {d' : Disk Sector} {r : Option Bytes} (h : Within a first n)
    (he : (readSectors a first n 0 fun _ => 0).Exec K d r d') :
    d' = d ∧ ∀ b, r = some b → b = area d first n := by
  obtain ⟨hd, hb⟩ := exec_readSectors (i := 0) h he
  refine ⟨hd, fun b hr => ?_⟩
  rw [hb b hr]
  simp only [area, Nat.mul_zero, Nat.zero_add, Nat.mul_comm]

theorem exec_readRegistry {d' : Disk Sector} {k : Kernel} {r : Bool × Kernel}
    (he : (readRegistry k).Exec K d r d') :
    d' = d ∧ (r = (true, { k with registry := registryOf d }) ∨ r = (false, k)) := by
  obtain ⟨reg, d1, hread, he⟩ := exec_bind.mp he
  obtain ⟨rfl, hreg⟩ := exec_readArea ⟨le_rfl, by decide⟩ hread
  cases reg with
  | none => exact ⟨he.2, .inr he.1⟩
  | some reg =>
    refine ⟨he.2, .inl ?_⟩
    rw [he.1, hreg reg rfl]
    rfl

theorem readCount_writeSectors (h : Within a (first + i) n) :
    (writeSectors a first data n i).readCount d = 0 := by
  induction n generalizing i d with
  | zero => rfl
  | succ n ih =>
    unfold Within at h
    rw [writeSectors, readCount_bind, writeSector_eq ⟨h.1, by omega⟩]
    simp only [readCount, eval, if_true, Nat.zero_add]
    exact ih ⟨by omega, by omega⟩

theorem readCount_writeRegistry {k : Kernel} : (writeRegistry k).readCount d = 0 :=
  readCount_writeSectors ⟨le_rfl, by decide⟩

end

section
variable {reg' : Bytes}

/-- The entry of a slot can be that of a package. -/
def headed (reg : Bytes) (slot : ℕ) : Prop :=
  toList reg (entryOff slot + 1) 4 = regMagic ∧ 0 < u32At reg (entryOff slot + 12) ∧
    u32At reg (entryOff slot + 12) ≤ maxRawBytes

instance : Decidable (headed reg slot) := inferInstanceAs (Decidable (_ ∧ _))

def examined (reg : Bytes) (slot : ℕ) (raw : List UInt8) : Option Inspected :=
  if checksum raw = u32At reg (entryOff slot + 16) then
    (inspect raw).filter fun p => decide (p.name.length ≤ nameMax ∧ p.version.length ≤ verMax)
  else none

def accepted (d : Disk Sector) (reg : Bytes) (slot : ℕ) : Option Inspected :=
  if headed reg slot then examined reg slot (blobOf d reg slot) else none

theorem accepted_iff : accepted d reg slot = some p ↔ Loads d reg slot p := by
  unfold accepted examined
  constructor
  · intro h
    split_ifs at h with hentry hcrc
    obtain ⟨hmagic, hpos, hle⟩ := hentry
    simp only [Option.filter_eq_some_iff, decide_eq_true_eq] at h
    exact ⟨hmagic, hpos, hle, hcrc, h.1, h.2.1, h.2.2⟩
  · intro h
    rw [if_pos ⟨h.magic, h.pos, h.le⟩, if_pos h.crc]
    simp only [Option.filter_eq_some_iff, decide_eq_true_eq]
    exact ⟨h.contents, h.name, h.version⟩

theorem accepted_congr
    (hreg : ∀ i, 1 ≤ i → i < 20 → reg' (entryOff slot + i) = reg (entryOff slot + i))
    (hblob : ∀ i < slotSectors, d' (slotBlobSector slot + i) = d (slotBlobSector slot + i)) :
    accepted d' reg' slot = accepted d reg slot := by
  have hfield {o : ℕ} (ho : 1 ≤ o) (ho' : o + 4 ≤ 20) :
      u32At reg' (entryOff slot + o) = u32At reg (entryOff slot + o) :=
    u32At_congr_add fun j h1 h2 => hreg j (by omega) (by omega)
  have hmagic : toList reg' (entryOff slot + 1) 4 = toList reg (entryOff slot + 1) 4 := by
    refine toList_congr fun i hi => ?_
    rw [Nat.add_assoc]
    exact hreg _ (by omega) (by omega)
  have hlen := hfield (o := 12) (by decide) (by decide)
  have hcrc := hfield (o := 16) (by decide) (by decide)
  have hheaded : headed reg' slot ↔ headed reg slot := by
    unfold headed
    rw [hmagic, hlen]
  have hexamined : examined reg' slot = examined reg slot := by
    funext raw
    rw [examined, hcrc, examined]
  unfold accepted
  rw [hexamined, if_congr hheaded rfl rfl]
  by_cases hentry : headed reg slot
  · have hsectors := sectorsFor_le hentry.2.2
    have hsame : blobOf d' reg' slot = blobOf d reg slot := by
      rw [blobOf, hlen, blobOf]
      exact blobAt_congr fun j hj => hblob j (by omega)
    rw [hsame]
  · rw [if_neg hentry, if_neg hentry]

def fitting (used : ℕ) (p : Inspected) : Bool := decide (used + p.payload.length ≤ arenaSize)

def corrupted (k : Kernel) (slot : ℕ) : Kernel :=
  { k with registry := setEntryState k.registry slot stateCorrupt }

def loadStep (unread : Bool) (d : Disk Sector) (k : Kernel) (slot : ℕ) : Kernel :=
  if entryState k.registry slot = stateActive then
    match (if unread then none else accepted d k.registry slot).filter (fitting k.arenaUsed) with
    | some p => (installRuntimeEntry k slot p (u32At k.registry (entryOff slot + 12))
        (u32At k.registry (entryOff slot + 16))).2
    | none => corrupted k slot
  else k

end

theorem registryOf_registryWrites {reg : Bytes} (hz : ∀ i, registrySize ≤ i → reg i = 0) :
    registryOf (replay d (registryWrites reg)) = reg := by
  refine area_eq (fun j hj => ?_) hz
  rw [registryWrites, replay_stripe, if_pos (by omega), Nat.add_sub_cancel_left]

theorem setEntryState_of_le {reg : Bytes} {state : UInt8} (hs : slot < maxPkgs)
    (hz : ∀ i, registrySize ≤ i → reg i = 0) {i : ℕ} (hi : registrySize ≤ i) :
    setEntryState reg slot state i = 0 := by
  have hoff := entryOff_lt hs
  rw [setEntryState_of_ne (by unfold entrySize at hoff; omega), hz i hi]

/-- Loading moves the registry in memory and on disk alike, and nothing else on disk. -/
structure Tracked (d : Disk Sector) (k' : Kernel) (d' : Disk Sector) : Prop where
  registry : k'.registry = registryOf d'
  rest : ∀ s, s < registrySector ∨ registrySector + registrySectors ≤ s → d' s = d s

theorem runs_markCorrupt (reads : ℕ → Bool) (hs : slot < maxPkgs) (hreg : k.registry = registryOf d)
    (hstate : entryState k.registry slot = stateActive) :
    ∃ d', (markCorrupt k slot).Runs (.reliable reads) d (corrupted k slot) d' (.reliable reads) [] ∧
      Tracked d (corrupted k slot) d' := by
  have hwrite : (writeRegistry (corrupted k slot)).Runs (.reliable reads) d true
      (replay d (registryWrites (corrupted k slot).registry)) (.reliable reads) [] :=
    trace_writeRegistry.runs readCount_writeRegistry reads
  refine ⟨replay d (registryWrites (corrupted k slot).registry), ?_, ?_, fun s hs => ?_⟩
  · rw [markCorrupt, if_pos hstate]
    exact hwrite.bind_nil (.pure _ _ _)
  · refine (registryOf_registryWrites fun i hi => ?_).symm
    refine setEntryState_of_le hs (fun i hi => ?_) hi
    rw [hreg]
    exact area_of_le hi
  · rw [registryWrites, replay_stripe, if_neg (by omega)]

def settle (k : Kernel) (slot : ℕ) (p : Option Inspected) : Program Sector Kernel :=
  match p.filter (fitting k.arenaUsed) with
  | some p => pure (installRuntimeEntry k slot p (u32At k.registry (entryOff slot + 12))
      (u32At k.registry (entryOff slot + 16))).2
  | none => markCorrupt k slot

theorem settle_none : settle k slot none = markCorrupt k slot := rfl

theorem settle_some {p : Inspected} :
    settle k slot (some p) =
      if (installRuntimeEntry k slot p (u32At k.registry (entryOff slot + 12))
          (u32At k.registry (entryOff slot + 16))).1 then
        pure (installRuntimeEntry k slot p (u32At k.registry (entryOff slot + 12))
          (u32At k.registry (entryOff slot + 16))).2
      else markCorrupt k slot := by
  by_cases hfit : k.arenaUsed + p.payload.length ≤ arenaSize
  · have hfilter : (some p).filter (fitting k.arenaUsed) = some p := by
      simp [Option.filter_some, fitting, hfit]
    simp only [settle, hfilter, installRuntimeEntry, hfit, if_true]
  · have hfilter : (some p).filter (fitting k.arenaUsed) = none := by
      simp [Option.filter_some, fitting, hfit]
    simp only [settle, hfilter, installRuntimeEntry, hfit, if_false, Bool.false_eq_true]

theorem loadSlot_eq :
    loadSlot k slot =
      if entryState k.registry slot = stateActive then
        if headed k.registry slot then
          readBlobArea (slotBlobSector slot) (u32At k.registry (entryOff slot + 12)) >>= fun raw =>
            settle k slot (raw.bind (examined k.registry slot))
        else settle k slot none
      else pure k := by
  unfold loadSlot
  by_cases hstate : entryState k.registry slot = stateActive
  · rw [if_neg (not_not.mpr hstate), if_pos hstate]
    by_cases hmagic : toList k.registry (entryOff slot + 1) 4 = regMagic
    · rw [if_neg (not_not.mpr hmagic)]
      by_cases hlen : u32At k.registry (entryOff slot + 12) = 0 ∨
          maxRawBytes < u32At k.registry (entryOff slot + 12)
      · have hheaded : ¬ headed k.registry slot := fun h => by
          have := h.2
          omega
        rw [if_pos hlen, if_neg hheaded, settle_none]
      · rw [if_neg hlen, if_pos ⟨hmagic, by omega, by omega⟩]
        refine congrArg _ (funext fun raw => ?_)
        cases raw with
        | none => rfl
        | some raw =>
          simp only [Option.bind_some, examined]
          by_cases hcrc : checksum raw = u32At k.registry (entryOff slot + 16)
          · rw [if_neg (not_not.mpr hcrc), if_pos hcrc]
            cases hp : inspect raw with
            | none => rfl
            | some p =>
              by_cases hsize : nameMax < p.name.length ∨ verMax < p.version.length
              · have hfilter : (some p).filter (fun p => decide (p.name.length ≤ nameMax ∧
                    p.version.length ≤ verMax)) = none := by
                  simp only [Option.filter_some, decide_eq_true_eq]
                  rw [if_neg (by omega)]
                rw [hfilter, settle_none]
                exact if_pos hsize
              · have hfilter : (some p).filter (fun p => decide (p.name.length ≤ nameMax ∧
                    p.version.length ≤ verMax)) = some p := by
                  simp only [Option.filter_some, decide_eq_true_eq]
                  rw [if_pos (by omega)]
                rw [hfilter, settle_some]
                exact if_neg hsize
          · rw [if_pos hcrc, if_neg hcrc, settle_none]
    · rw [if_pos hmagic, if_neg fun h => hmagic h.1, settle_none]
  · rw [if_pos hstate, if_neg hstate]

theorem installRuntimeEntry_registry {p : Inspected} {rawLen rawCrc : ℕ} :
    (installRuntimeEntry k slot p rawLen rawCrc).2.registry = k.registry := by
  unfold installRuntimeEntry
  split_ifs <;> rfl

theorem runs_settle (reads : ℕ → Bool) (hs : slot < maxPkgs) (hreg : k.registry = registryOf d)
    (hstate : entryState k.registry slot = stateActive) {unread : Bool} {p : Option Inspected}
    (hp : p = if unread then none else accepted d k.registry slot) :
    ∃ d', (settle k slot p).Runs (.reliable reads) d (loadStep unread d k slot) d'
      (.reliable reads) [] ∧ Tracked d (loadStep unread d k slot) d' := by
  unfold settle loadStep
  rw [if_pos hstate, ← hp]
  cases p.filter (fitting k.arenaUsed) with
  | none => exact runs_markCorrupt reads hs hreg hstate
  | some p =>
    exact ⟨d, .pure _ _ d, installRuntimeEntry_registry.trans hreg, fun _ _ => rfl⟩

theorem runs_loadSlot (reads : ℕ → Bool) (hs : slot < maxPkgs) (hreg : k.registry = registryOf d) :
    ∃ reads' l d', (loadSlot k slot).Runs (.reliable reads) d
        (loadStep (decide (l ≠ [])) d k slot) d' (.reliable reads') l ∧
      Tracked d (loadStep (decide (l ≠ [])) d k slot) d' ∧
      ∀ s ∈ l, entryState k.registry slot = stateActive ∧ slotBlobSector slot ≤ s ∧
        s < slotBlobSector slot + slotSectors := by
  rw [loadSlot_eq]
  by_cases hstate : entryState k.registry slot = stateActive
  · rw [if_pos hstate]
    by_cases hheaded : headed k.registry slot
    · rw [if_pos hheaded]
      obtain ⟨reads', l, hread, hl⟩ := runs_readBlobArea (d := d) reads hheaded.2.2 (within_slot hs)
      have hp : (if l = [] then some (blobOf d k.registry slot) else none).bind
          (examined k.registry slot) =
            if decide (l ≠ []) then none else accepted d k.registry slot := by
        by_cases h : l = []
        · simp [h, accepted, hheaded]
        · simp [h]
      obtain ⟨d', hrun, htracked⟩ := runs_settle reads' hs hreg hstate hp
      refine ⟨reads', l, d', ?_, htracked, fun s hs => ⟨hstate, hl s hs⟩⟩
      have hbind := hread.bind (k := fun raw => settle k slot (raw.bind (examined k.registry slot)))
        hrun
      rwa [List.append_nil] at hbind
    · rw [if_neg hheaded]
      have hp : none = if decide (([] : List ℕ) ≠ []) then none else accepted d k.registry slot := by
        simp [accepted, hheaded]
      obtain ⟨d', hrun, htracked⟩ := runs_settle reads hs hreg hstate hp
      exact ⟨reads, [], d', hrun, htracked, by simp⟩
  · refine ⟨reads, [], d, ?_, ?_, by simp⟩
    · rw [if_neg hstate, loadStep, if_neg hstate]
      exact .pure _ _ d
    · rw [loadStep, if_neg hstate]
      exact ⟨hreg, fun _ _ => rfl⟩

section
variable {unread unread' : ℕ → Bool}

def admitted (unread : ℕ → Bool) (d : Disk Sector) (reg : Bytes) (used slot : ℕ) :
    Option Inspected :=
  if entryState reg slot = stateActive then
    (if unread slot then none else accepted d reg slot).filter (fitting used)
  else none

def arenaBefore (unread : ℕ → Bool) (d : Disk Sector) (reg : Bytes) : ℕ → ℕ
  | 0 => 0
  | n + 1 => arenaBefore unread d reg n +
      ((admitted unread d reg (arenaBefore unread d reg n) n).map (·.payload.length)).getD 0

def loadedAt (unread : ℕ → Bool) (d : Disk Sector) (reg : Bytes) (slot : ℕ) : Option Inspected :=
  admitted unread d reg (arenaBefore unread d reg slot) slot

def marked (unread : ℕ → Bool) (d : Disk Sector) (reg : Bytes) : ℕ → Bytes
  | 0 => reg
  | n + 1 =>
    if entryState reg n = stateActive ∧ loadedAt unread d reg n = none then
      setEntryState (marked unread d reg n) n stateCorrupt
    else marked unread d reg n

def runtimeEntry (unread : ℕ → Bool) (d : Disk Sector) (reg : Bytes) (slot : ℕ) (p : Inspected) :
    PkgEntry :=
  ⟨slot, p.name, p.version, p.kind, p.mcaps, u32At reg (entryOff slot + 12),
    u32At reg (entryOff slot + 16), arenaBefore unread d reg slot, p.payload.length⟩

theorem arenaBefore_succ : arenaBefore unread d reg (n + 1) =
    arenaBefore unread d reg n + ((loadedAt unread d reg n).map (·.payload.length)).getD 0 := rfl

theorem arenaBefore_congr (h : ∀ i < n, unread i = unread' i) :
    arenaBefore unread d reg n = arenaBefore unread' d reg n := by
  induction n with
  | zero => rfl
  | succ n ih =>
    have hn := ih fun i hi => h i (by omega)
    rw [arenaBefore, arenaBefore, hn, admitted, admitted, h n (by omega)]

theorem loadedAt_congr (h : ∀ i ≤ slot, unread i = unread' i) :
    loadedAt unread d reg slot = loadedAt unread' d reg slot := by
  rw [loadedAt, loadedAt, arenaBefore_congr fun i hi => h i (by omega), admitted, admitted,
    h slot le_rfl]

theorem marked_congr (h : ∀ i < n, unread i = unread' i) :
    marked unread d reg n = marked unread' d reg n := by
  induction n with
  | zero => rfl
  | succ n ih =>
    rw [marked, marked, ih fun i hi => h i (by omega), loadedAt_congr fun i hi => h i (by omega)]

theorem arenaBefore_mono {m : ℕ} (h : n ≤ m) :
    arenaBefore unread d reg n ≤ arenaBefore unread d reg m := by
  induction m, h using Nat.le_induction with
  | base => exact le_rfl
  | succ m _ ih => exact ih.trans (Nat.le_add_right _ _)

theorem loadedAt_eq_some {p : Inspected} : loadedAt unread d reg slot = some p ↔
    entryState reg slot = stateActive ∧ unread slot = false ∧ accepted d reg slot = some p ∧
      arenaBefore unread d reg slot + p.payload.length ≤ arenaSize := by
  unfold loadedAt admitted
  by_cases hstate : entryState reg slot = stateActive
  · cases hunread : unread slot with
    | true => simp [hstate]
    | false => simp [hstate, Option.filter_eq_some_iff, fitting]
  · simp [hstate]

theorem arenaBefore_add {p : Inspected} (h : loadedAt unread d reg slot = some p) (hn : slot < n) :
    arenaBefore unread d reg slot + p.payload.length ≤ arenaBefore unread d reg n := by
  have hsucc : arenaBefore unread d reg (slot + 1) =
      arenaBefore unread d reg slot + p.payload.length := by
    rw [arenaBefore_succ, h]
    rfl
  rw [← hsucc]
  exact arenaBefore_mono hn

theorem entryOff_add_ne {i : ℕ} (hi : 1 ≤ i) (hi' : i < entrySize) :
    entryOff slot + i ≠ entryOff n := by
  unfold entryOff
  unfold entrySize at hi' ⊢
  omega

theorem marked_of_pos {i : ℕ} (hi : 1 ≤ i) (hi' : i < entrySize) :
    marked unread d reg n (entryOff slot + i) = reg (entryOff slot + i) := by
  induction n with
  | zero => rfl
  | succ n ih =>
    rw [marked]
    split_ifs
    · rw [setEntryState_of_ne (entryOff_add_ne hi hi'), ih]
    · exact ih

theorem entryState_marked : entryState (marked unread d reg n) slot =
    if slot < n ∧ entryState reg slot = stateActive ∧ loadedAt unread d reg slot = none then
      stateCorrupt else entryState reg slot := by
  induction n with
  | zero => rw [if_neg (by omega)]; rfl
  | succ n ih =>
    have hstep : entryState (marked unread d reg (n + 1)) slot =
        if slot = n ∧ entryState reg n = stateActive ∧ loadedAt unread d reg n = none then
          stateCorrupt else entryState (marked unread d reg n) slot := by
      rw [marked]
      by_cases hmark : entryState reg n = stateActive ∧ loadedAt unread d reg n = none
      · rw [if_pos hmark]
        by_cases hslot : slot = n
        · rw [if_pos ⟨hslot, hmark⟩, hslot, entryState_setEntryState]
        · rw [if_neg fun h => hslot h.1, entryState_setEntryState_of_ne hslot]
      · rw [if_neg hmark, if_neg fun h => hmark h.2]
    rw [hstep, ih]
    by_cases hslot : slot = n
    · subst hslot
      rw [if_neg (show ¬ (slot < slot ∧ _) by omega)]
      exact if_congr (by simp) rfl rfl
    · rw [if_neg fun h => hslot h.1]
      exact if_congr (and_congr_left fun _ => by omega) rfl rfl

/-- The kernel once the slots below `n` have been loaded from a store with registry `reg`. -/
structure Progress (unread : ℕ → Bool) (d : Disk Sector) (reg : Bytes) (n : ℕ) (k : Kernel) :
    Prop where
  registry : k.registry = marked unread d reg n
  used : k.arenaUsed = arenaBefore unread d reg n
  pkgs : ∀ slot, k.pkgs slot =
    if slot < n then (loadedAt unread d reg slot).map (runtimeEntry unread d reg slot) else none
  arena : ∀ slot < n, ∀ p, loadedAt unread d reg slot = some p →
    toList k.arena (arenaBefore unread d reg slot) p.payload.length = p.payload

section
variable (h : Progress unread d reg n k)
include h

theorem Progress.congr (hu : ∀ i < n, unread i = unread' i) : Progress unread' d reg n k := by
  have hloaded : ∀ slot < n, loadedAt unread d reg slot = loadedAt unread' d reg slot :=
    fun slot hs => loadedAt_congr fun i hi => hu i (by omega)
  have hbefore : ∀ slot < n, arenaBefore unread d reg slot = arenaBefore unread' d reg slot :=
    fun slot hs => arenaBefore_congr fun i hi => hu i (by omega)
  refine ⟨?_, ?_, fun slot => ?_, fun slot hs p hp => ?_⟩
  · rw [h.registry, marked_congr hu]
  · rw [h.used, arenaBefore_congr hu]
  · rw [h.pkgs]
    split_ifs with hs
    · have hentry : runtimeEntry unread d reg slot = runtimeEntry unread' d reg slot := by
        funext p
        rw [runtimeEntry, hbefore slot hs, runtimeEntry]
      rw [hloaded slot hs, hentry]
    · rfl
  · rw [← hbefore slot hs]
    exact h.arena slot hs p ((hloaded slot hs).trans hp)

theorem Progress.pass {k' : Kernel}
    (hn : loadedAt unread d reg n = none) (hreg : k'.registry = marked unread d reg (n + 1))
    (hused : k'.arenaUsed = k.arenaUsed) (hpkgs : k'.pkgs = k.pkgs) (harena : k'.arena = k.arena) :
    Progress unread d reg (n + 1) k' := by
  refine ⟨hreg, ?_, fun slot => ?_, fun slot hs p hp => ?_⟩
  · rw [hused, h.used, arenaBefore_succ, hn]
    rfl
  · rw [hpkgs, h.pkgs]
    by_cases hs : slot = n
    · subst hs
      rw [if_neg (Nat.lt_irrefl slot), hn, Option.map_none, ite_self]
    · exact if_congr (by omega) rfl rfl
  · have hne : slot ≠ n := by
      rintro rfl
      rw [hn] at hp
      cases hp
    rw [harena]
    exact h.arena slot (by omega) p hp

theorem Progress.load {p : Inspected} (hp : loadedAt unread d reg n = some p) :
    Progress unread d reg (n + 1) (installRuntimeEntry k n p (u32At reg (entryOff n + 12))
      (u32At reg (entryOff n + 16))).2 := by
  have hfit := (loadedAt_eq_some.mp hp).2.2.2
  rw [← h.used] at hfit
  unfold installRuntimeEntry
  rw [if_pos hfit]
  refine ⟨?_, ?_, fun slot => ?_, fun slot hs q hq => ?_⟩
  · have hkeep : ¬ (entryState reg n = stateActive ∧ loadedAt unread d reg n = none) := by
      rw [hp]
      exact fun hm => Option.some_ne_none p hm.2
    rw [marked, if_neg hkeep]
    exact h.registry
  · rw [arenaBefore_succ, hp, ← h.used]
    rfl
  · by_cases hs : slot = n
    · subst hs
      rw [if_pos (Nat.lt_succ_self slot), hp, Option.map_some, runtimeEntry, ← h.used]
      exact Function.update_self ..
    · refine (Function.update_of_ne hs _ _).trans ?_
      rw [h.pkgs]
      exact if_congr (by omega) rfl rfl
  · by_cases hs' : slot = n
    · subst hs'
      obtain rfl := Option.some.inj (hp.symm.trans hq)
      rw [← h.used]
      exact toList_copy_self
    · have hroom := arenaBefore_add hq (show slot < n by omega)
      rw [← h.used] at hroom
      exact (toList_copy_of_disjoint (.inl hroom)).trans (h.arena slot (by omega) q hq)

theorem Progress.step
    (hd : ∀ i < slotSectors, d' (slotBlobSector n + i) = d (slotBlobSector n + i)) :
    Progress unread d reg (n + 1) (loadStep (unread n) d' k n) := by
  have haccepted : accepted d' k.registry n = accepted d reg n := by
    rw [h.registry]
    exact accepted_congr (fun i hi hi' => marked_of_pos hi (by unfold entrySize; omega)) hd
  have hstate : entryState k.registry n = entryState reg n := by
    rw [h.registry, entryState_marked, if_neg fun hn => absurd hn.1 (Nat.lt_irrefl n)]
  have hfield {o : ℕ} (ho : 1 ≤ o) (ho' : o + 4 ≤ entrySize) :
      u32At k.registry (entryOff n + o) = u32At reg (entryOff n + o) := by
    rw [h.registry]
    refine u32At_congr fun i h1 h2 => ?_
    obtain ⟨j, rfl⟩ : ∃ j, i = entryOff n + j := ⟨i - entryOff n, by omega⟩
    exact marked_of_pos (by omega) (by omega)
  have hloaded : loadedAt unread d reg n = if entryState reg n = stateActive then
      (if unread n then none else accepted d reg n).filter (fitting k.arenaUsed) else none := by
    rw [h.used]
    rfl
  rw [loadStep, hstate, haccepted, hfield (by decide) (by decide), hfield (by decide) (by decide)]
  by_cases hactive : entryState reg n = stateActive
  · rw [if_pos hactive] at hloaded ⊢
    rw [← hloaded]
    cases hp : loadedAt unread d reg n with
    | none =>
      refine h.pass hp ?_ rfl rfl rfl
      rw [marked, if_pos ⟨hactive, hp⟩, ← h.registry]
      rfl
    | some p => exact h.load hp
  · rw [if_neg hactive] at hloaded ⊢
    refine h.pass hloaded ?_ rfl rfl rfl
    rw [marked, if_neg fun hm => hactive hm.1, h.registry]

end

end

section
variable {unread : ℕ → Bool}

def validPayload (d : Disk Sector) (reg : Bytes) (slot : ℕ) : ℕ :=
  if entryState reg slot = stateActive then
    ((accepted d reg slot).map (·.payload.length)).getD 0
  else 0

theorem validPayload_eq (hstate : entryState reg slot = stateActive)
    (hp : accepted d reg slot = some p) : validPayload d reg slot = p.payload.length := by
  rw [validPayload, if_pos hstate, hp]
  rfl

theorem arenaBefore_le_arenaSize : arenaBefore unread d reg n ≤ arenaSize := by
  induction n with
  | zero => exact Nat.zero_le _
  | succ n ih =>
    rw [arenaBefore_succ]
    cases hp : loadedAt unread d reg n with
    | none => exact ih
    | some p => exact (loadedAt_eq_some.mp hp).2.2.2

theorem arenaBefore_le_sum :
    arenaBefore unread d reg n ≤ ∑ i ∈ Finset.range n, validPayload d reg i := by
  induction n with
  | zero => exact Nat.zero_le _
  | succ n ih =>
    rw [arenaBefore_succ, Finset.sum_range_succ]
    cases hp : loadedAt unread d reg n with
    | none => exact ih.trans (Nat.le_add_right _ _)
    | some p =>
      obtain ⟨hstate, -, haccepted, -⟩ := loadedAt_eq_some.mp hp
      rw [validPayload_eq hstate haccepted]
      exact Nat.add_le_add_right ih _

/-- Every valid package below `n` is loaded. -/
def AllLoaded (unread : ℕ → Bool) (d : Disk Sector) (reg : Bytes) (n : ℕ) : Prop :=
  ∀ slot < n, ∀ p, entryState reg slot = stateActive → accepted d reg slot = some p →
    loadedAt unread d reg slot = some p

theorem AllLoaded.arenaBefore_eq (h : AllLoaded unread d reg n) :
    arenaBefore unread d reg n = ∑ i ∈ Finset.range n, validPayload d reg i := by
  induction n with
  | zero => rfl
  | succ n ih =>
    rw [arenaBefore_succ, Finset.sum_range_succ, ih fun slot hs => h slot (by omega)]
    congr 1
    unfold validPayload
    by_cases hstate : entryState reg n = stateActive
    · rw [if_pos hstate]
      cases hp : accepted d reg n with
      | none =>
        have hnone : loadedAt unread d reg n = none := by
          rw [Option.eq_none_iff_forall_ne_some]
          intro p hq
          have := (loadedAt_eq_some.mp hq).2.2.1
          rw [hp] at this
          cases this
        rw [hnone]
      | some p => rw [h n (Nat.lt_succ_self n) p hstate hp]
    · have hnone : loadedAt unread d reg n = none := if_neg hstate
      rw [if_neg hstate, hnone]
      rfl

theorem allLoaded_iff : AllLoaded unread d reg n ↔
    (∀ slot < n, ∀ p, entryState reg slot = stateActive → accepted d reg slot = some p →
      unread slot = false) ∧ ∑ i ∈ Finset.range n, validPayload d reg i ≤ arenaSize := by
  constructor
  · intro h
    refine ⟨fun slot hs p hstate hp => ?_, ?_⟩
    · exact (loadedAt_eq_some.mp (h slot hs p hstate hp)).2.1
    · rw [← h.arenaBefore_eq]
      exact arenaBefore_le_arenaSize
  · rintro ⟨hread, hsum⟩ slot hs p hstate hp
    have hbefore : arenaBefore unread d reg slot ≤ _ := arenaBefore_le_sum
    have hslot : ∑ i ∈ Finset.range slot, validPayload d reg i + p.payload.length ≤
        ∑ i ∈ Finset.range n, validPayload d reg i := by
      rw [← validPayload_eq hstate hp, ← Finset.sum_range_succ]
      exact Finset.sum_le_sum_of_subset (Finset.range_mono hs)
    exact loadedAt_eq_some.mpr ⟨hstate, hread slot hs p hstate hp, hp, by omega⟩

end

section
variable {d₀ : Disk Sector} {l : List ℕ}

def touches (l : List ℕ) (slot : ℕ) : Bool :=
  l.any fun s => decide (slotBlobSector slot ≤ s ∧ s < slotBlobSector slot + slotSectors)

theorem touches_append : touches (l ++ l') slot = (touches l slot || touches l' slot) :=
  List.any_append

theorem touches_of_ne
    (h : ∀ s ∈ l', slotBlobSector n ≤ s ∧ s < slotBlobSector n + slotSectors) (hne : slot ≠ n) :
    touches l' slot = false := by
  unfold touches
  rw [List.any_eq_false]
  intro s hs hslot
  have hn := h s hs
  have hslot := of_decide_eq_true hslot
  unfold slotBlobSector slotSectors at hn hslot
  omega

theorem touches_self (h : ∀ s ∈ l', slotBlobSector n ≤ s ∧ s < slotBlobSector n + slotSectors) :
    touches l' n = decide (l' ≠ []) := by
  cases l' with
  | nil => rfl
  | cons s l' =>
    have hs := h s List.mem_cons_self
    simp [touches, hs]

theorem runs_loadFrom (reads : ℕ → Bool) (hn : slot + n ≤ maxPkgs)
    (hp : Progress (touches l) d₀ reg slot k) (ht : Tracked d₀ k d)
    (hl : ∀ i, slot ≤ i → touches l i = false) :
    ∃ reads' l' k' d', (loadFrom n slot k).Runs (.reliable reads) d k' d' (.reliable reads') l' ∧
      Progress (touches (l ++ l')) d₀ reg (slot + n) k' ∧ Tracked d₀ k' d' ∧
      ∀ s ∈ l', ∃ i < maxPkgs, entryState reg i = stateActive ∧ slotBlobSector i ≤ s ∧
        s < slotBlobSector i + slotSectors := by
  induction n generalizing slot k d l reads with
  | zero =>
    refine ⟨reads, [], k, d, .pure _ _ d, ?_, ht, by simp⟩
    rwa [List.append_nil]
  | succ n ih =>
    obtain ⟨reads1, l1, d1, hrun1, ht1, hl1⟩ := runs_loadSlot reads (show slot < maxPkgs by omega)
      ht.registry
    have harea : ∀ s ∈ l1, slotBlobSector slot ≤ s ∧ s < slotBlobSector slot + slotSectors :=
      fun s hs => (hl1 s hs).2
    have hsame : ∀ i < slotSectors, d (slotBlobSector slot + i) = d₀ (slotBlobSector slot + i) := by
      intro i _
      refine ht.rest _ (.inr ?_)
      unfold slotBlobSector registrySector registrySectors
      omega
    have hbefore : ∀ i < slot, touches l i = touches (l ++ l1) i := by
      intro i hi
      rw [touches_append, touches_of_ne harea (by omega), Bool.or_false]
    have hunread : decide (l1 ≠ []) = touches (l ++ l1) slot := by
      rw [touches_append, touches_self harea, hl slot le_rfl, Bool.false_or]
    have hstep := (hp.congr hbefore).step hsame
    rw [← hunread] at hstep
    have htracked : Tracked d₀ (loadStep (decide (l1 ≠ [])) d k slot) d1 :=
      ⟨ht1.registry, fun s hs => (ht1.rest s hs).trans (ht.rest s hs)⟩
    have hlater : ∀ i, slot + 1 ≤ i → touches (l ++ l1) i = false := by
      intro i hi
      rw [touches_append, touches_of_ne harea (by omega), Bool.or_false]
      exact hl i (by omega)
    obtain ⟨reads2, l2, k2, d2, hrun2, hp2, ht2, hl2⟩ :=
      ih reads1 (by omega) hstep htracked hlater
    refine ⟨reads2, l1 ++ l2, k2, d2, hrun1.bind hrun2, ?_, ht2, fun s hs => ?_⟩
    · rw [← List.append_assoc, show slot + (n + 1) = slot + 1 + n by omega]
      exact hp2
    · rcases List.mem_append.mp hs with hs | hs
      · obtain ⟨hstate, hin⟩ := hl1 s hs
        refine ⟨slot, by omega, ?_, hin⟩
        rwa [hp.registry, entryState_marked,
          if_neg fun hlt => absurd hlt.1 (Nat.lt_irrefl slot)] at hstate
      · exact hl2 s hs

def loadAll (k : Kernel) : Program Sector Kernel := loadFrom maxPkgs 0 k.clearRuntimeRegistry

theorem runs_loadAll (reads : ℕ → Bool) (hreg : k.registry = registryOf d) :
    ∃ reads' l k' d', (loadAll k).Runs (.reliable reads) d k' d' (.reliable reads') l ∧
      Progress (touches l) d (registryOf d) maxPkgs k' ∧ Tracked d k' d' ∧
      ∀ s ∈ l, ∃ i < maxPkgs, entryState (registryOf d) i = stateActive ∧ slotBlobSector i ≤ s ∧
        s < slotBlobSector i + slotSectors := by
  have hstart : Progress (touches []) d (registryOf d) 0 k.clearRuntimeRegistry := by
    refine ⟨hreg, rfl, fun slot => ?_, fun slot hs => absurd hs (Nat.not_lt_zero slot)⟩
    rw [if_neg (Nat.not_lt_zero slot)]
    rfl
  exact runs_loadFrom reads (Nat.zero_add maxPkgs).le hstart ⟨hreg, fun _ _ => rfl⟩
    fun _ _ => rfl

def opening (k : Kernel) : Program Sector (Bool × Kernel) := do
  let (ok, k) ← readRegistry k
  if ok then
    let (ok, k) ← recoverFromJournal k false
    if ok then readRegistry k else pure (false, k)
  else pure (false, k)

theorem trace_opening (h : decodeJournal (journalOf d) = .empty) :
    (opening k).Trace d (true, { k.setDegraded false with registry := registryOf d }) [] :=
  trace_readRegistry.bind_nil ((trace_recover_empty h).bind_nil trace_readRegistry)

theorem ensureLoaded_eq :
    ensureLoaded k =
      if k.loaded && !k.degraded then pure (true, k)
      else opening k >>= fun r =>
        if r.1 then loadAll r.2 >>= fun k => pure (true, { k with loaded := true })
        else pure (false, r.2) := by
  unfold ensureLoaded opening
  split_ifs
  · rfl
  · rw [bind_assoc]
    refine congrArg _ (funext fun r => ?_)
    obtain ⟨ok, k⟩ := r
    cases ok with
    | false => rfl
    | true =>
      simp only [if_true]
      rw [bind_assoc]
      refine congrArg _ (funext fun r => ?_)
      obtain ⟨ok, k⟩ := r
      cases ok <;> rfl

theorem exec_opening {d' : Disk Sector} {k' : Kernel}
    (he : (opening k).Exec K d (true, k') d') : k'.registry = registryOf d' := by
  obtain ⟨⟨ok, k1⟩, d1, -, he⟩ := exec_bind.mp he
  cases ok with
  | false => cases he.1
  | true =>
    obtain ⟨⟨ok, k2⟩, d2, -, he⟩ := exec_bind.mp he
    cases ok with
    | false => cases he.1
    | true =>
      obtain ⟨rfl, h | h⟩ := exec_readRegistry he
      · exact congrArg (fun r => r.2.registry) h
      · cases h

end

end Dezh.PackageLoading

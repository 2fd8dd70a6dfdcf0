import Dezh.CommandRuns
import Dezh.StoreFrame
import Mathlib.Data.Nat.Bitwise

/-!
# The capabilities of a package over its life

The capabilities of a package stand in its manifest, in its entry, and in the checkpoint
of its entry. What the kernel runs a package with is read from the manifest of the image
that the loader finds, and all that ties this image to the entry is a checksum. So the
invariant says of the checksums of an entry that they belong to images whose manifests
stay within the bound, and the claim about the kernel needs that different images have
different checksums.
-/
namespace Dezh.CapabilityBound
open BlockProgram Program ByteLayout CairnFormat PackageFormat PackageStore PackageCodec
  PackageAreas PackageRecovery PackageLoading PackageCommands CheckpointCodec InstallTrace
  InstallRecovery StorePhases RollbackRecovery CommandEffects StoreFrame CommandRuns

variable {images : Set (List UInt8)} {caps : Set ℕ} {slot : ℕ} {raw : List UInt8} {d : Disk Sector}
  {k k' : Kernel}

section
variable {old new mask : ℕ}

def capsOf (mask : ℕ) : Set ℕ := {i | mask.testBit i = true}

@[simp] theorem capsOf_zero : capsOf 0 = ∅ := by
  ext i
  simp [capsOf]

theorem capsOf_subset_of_capDelta (hnew : new < 2 ^ 32) (h : (capDelta old new).1 = 0) :
    capsOf new ⊆ capsOf old := by
  intro i hi
  have hi' : new.testBit i = true := hi
  have hlt : i < 32 := by
    by_contra hge
    have hpow : new < 2 ^ i := hnew.trans_le (Nat.pow_le_pow_right (by decide) (by omega))
    rw [Nat.testBit_lt_two_pow hpow] at hi'
    cases hi'
  have hbit : (new &&& notU32 old).testBit i = false := by
    have hzero : new &&& notU32 old = 0 := h
    rw [hzero, Nat.zero_testBit]
  have hones : Nat.testBit 0xFFFFFFFF i = true := by
    have hmask : (0xFFFFFFFF : ℕ) = 2 ^ 32 - 1 := rfl
    rw [hmask, Nat.testBit_two_pow_sub_one, decide_eq_true hlt]
  rw [notU32, Nat.testBit_and, Nat.testBit_xor, hi', hones] at hbit
  simpa [capsOf] using hbit

end

section
variable {reg reg' journal : Bytes} {state : UInt8} {name : Text}

/-- A length and a checksum as an entry records them belong to an image whose manifest
stays within the bound. Without a length there is no image. -/
def Licensed (images : Set (List UInt8)) (caps : Set ℕ) (rawLen rawCrc : ℕ) : Prop :=
  rawLen = 0 ∨ ∃ raw ∈ images, checksum raw = rawCrc ∧
    ∀ p, inspect raw = some p → capsOf p.mcaps ⊆ caps

/-- The entry of a slot and its checkpoint stay within the bound. -/
structure Bounded (images : Set (List UInt8)) (caps : Set ℕ) (slot : ℕ) (reg : Bytes) : Prop where
  mcaps : capsOf (entryMcaps reg slot) ⊆ caps
  current : Licensed images caps (entryRawLen reg slot) (entryRawCrc reg slot)
  checkpointMcaps : capsOf (previousMcaps reg slot) ⊆ caps
  checkpoint : Licensed images caps (previousRawLen reg slot) (previousRawCrc reg slot)

theorem Bounded.congr (h : Bounded images caps slot reg)
    (hentry : ∀ i, 8 ≤ i → i < 28 ∨ 32 ≤ i → i < entrySize →
      reg' (entryOff slot + i) = reg (entryOff slot + i)) : Bounded images caps slot reg' := by
  have hfield {o : ℕ} (ho : 8 ≤ o) (ho' : o + 4 ≤ 28 ∨ 32 ≤ o ∧ o + 4 ≤ entrySize) :
      u32At reg' (entryOff slot + o) = u32At reg (entryOff slot + o) := by
    unfold entrySize at *
    exact u32At_congr_add fun j h1 h2 => hentry j (by omega) (by omega) (by omega)
  obtain ⟨hmcaps, hcurrent, hprevious, hcheckpoint⟩ := h
  unfold entryMcaps at hmcaps
  unfold entryRawLen entryRawCrc at hcurrent
  unfold previousMcaps at hprevious
  unfold previousRawLen previousRawCrc at hcheckpoint
  rw [← hfield (by omega) (by omega)] at hmcaps
  rw [← hfield (by omega) (by omega), ← hfield (o := 16) (by omega) (by omega)] at hcurrent
  rw [← hfield (by omega) (.inr ⟨by omega, by decide⟩)] at hprevious
  rw [← hfield (by omega) (.inr ⟨by omega, by decide⟩),
    ← hfield (o := 92) (by omega) (.inr ⟨by omega, by decide⟩)] at hcheckpoint
  exact ⟨hmcaps, hcurrent, hprevious, hcheckpoint⟩

theorem u32At_of_zero {o : ℕ} (h : ∀ i, o ≤ i → i < o + 4 → reg i = 0) : u32At reg o = 0 := by
  rw [u32At, h o (by omega) (by omega), h (o + 1) (by omega) (by omega),
    h (o + 2) (by omega) (by omega), h (o + 3) (by omega) (by omega)]
  rfl

theorem bounded_of_zero (h : ∀ i, 1 ≤ i → i < entrySize → reg (entryOff slot + i) = 0) :
    Bounded images caps slot reg := by
  have hfield {o : ℕ} (ho : 1 ≤ o) (ho' : o + 4 ≤ entrySize) : u32At reg (entryOff slot + o) = 0 := by
    refine u32At_of_zero fun i h1 h2 => ?_
    obtain ⟨j, rfl⟩ : ∃ j, i = entryOff slot + j := ⟨i - entryOff slot, by omega⟩
    exact h j (by omega) (by omega)
  refine ⟨?_, .inl (hfield (by omega) (by decide)), ?_, .inl (hfield (by omega) (by decide))⟩
  · rw [entryMcaps, hfield (by omega) (by decide), capsOf_zero]
    exact Set.empty_subset _
  · rw [previousMcaps, hfield (by omega) (by decide), capsOf_zero]
    exact Set.empty_subset _

theorem Bounded.weakened (h : Bounded images caps slot reg) (hs : slot < maxPkgs)
    (hweak : Weakened reg reg') : Bounded images caps slot reg' := by
  rcases (hweak slot hs).fields with hsame | hzero
  · exact h.congr fun i hi _ hi' => hsame i (by omega) hi'
  · exact bounded_of_zero hzero

theorem previous_encode {version : Text} {kind mcaps rawLen rawCrc : ℕ}
    (hn : name.length ≤ nameMax) (hv : version.length ≤ verMax) {o : ℕ} (ho : 80 ≤ o)
    (ho' : o + 4 ≤ entrySize) :
    u32At (encodeRegistryEntry reg slot state name version kind mcaps rawLen rawCrc)
      (entryOff slot + o) = 0 := by
  unfold nameMax at hn
  unfold verMax at hv
  refine u32At_of_zero fun i h1 h2 => ?_
  obtain ⟨j, rfl⟩ : ∃ j, i = entryOff slot + j := ⟨i - entryOff slot, by omega⟩
  have hzero : clearRegistrySlot reg slot (entryOff slot + j) = 0 := copy_inside (by omega)
  have hmagic : regMagic.length = 4 := by decide
  simp (disch := omega) only [encodeRegistryEntry, nameMax, copy_of_outside, putU8_of_ne,
    putU32_of_outside, putU16, putLe_of_outside]
  exact hzero

theorem bounded_encode {version : Text} {kind mcaps rawLen rawCrc : ℕ}
    (hn : name.length ≤ nameMax) (hv : version.length ≤ verMax) (hm : mcaps < 2 ^ 32)
    (hl : rawLen < 2 ^ 32) (hc : rawCrc < 2 ^ 32) (hcaps : capsOf mcaps ⊆ caps)
    (hlicensed : Licensed images caps rawLen rawCrc) :
    Bounded images caps slot
      (encodeRegistryEntry reg slot state name version kind mcaps rawLen rawCrc) := by
  refine ⟨?_, ?_, ?_, .inl (previous_encode hn hv (by omega) (by decide))⟩
  · rw [entryMcaps, (entryFields_encode hm hl hc).1]
    exact hcaps
  · rw [entryRawLen, entryRawCrc, (entryFields_encode hm hl hc).2.1, (entryFields_encode hm hl hc).2.2]
    exact hlicensed
  · rw [previousMcaps, previous_encode hn hv (by omega) (by decide), capsOf_zero]
    exact Set.empty_subset _

theorem Bounded.update {u : Replacement} {target : Text} (h : Bounded images caps u.slot reg)
    (ha : UpdateRecovery.Accepted reg target false raw u) (hraw : raw ∈ images) :
    Bounded images caps u.slot (u.registryWith reg raw state) := by
  have hmcaps := (inspect_isUtf8 ha.contents).2.2
  have hcaps : capsOf u.package.mcaps ⊆ caps := by
    have hdelta := ha.caps.resolve_right Bool.false_ne_true
    exact (capsOf_subset_of_capDelta (by omega) hdelta).trans h.mcaps
  have hprevious : previousMcaps (u.registryWith reg raw state) u.slot = entryMcaps reg u.slot ∧
      previousRawLen (u.registryWith reg raw state) u.slot = entryRawLen reg u.slot ∧
      previousRawCrc (u.registryWith reg raw state) u.slot = entryRawCrc reg u.slot :=
    (previousFields_encode u32At_lt u32At_lt u32At_lt (u16At_lt _ _)).2
  obtain ⟨hm, hl, hc⟩ := UpdateRecovery.registryWith_fields ha state
  refine ⟨?_, ?_, ?_, ?_⟩
  · rw [entryMcaps, hm]
    exact hcaps
  · rw [entryRawLen, entryRawCrc, hl, hc]
    refine .inr ⟨raw, hraw, rfl, fun p hp => ?_⟩
    obtain rfl := Option.some.inj (ha.contents.symm.trans hp)
    exact hcaps
  · rw [hprevious.1]
    exact h.mcaps
  · rw [hprevious.2.1, hprevious.2.2]
    exact h.current

section
variable (h : Bounded images caps slot reg)
include h

theorem Bounded.rollback (hn : name.length ≤ nameMax) :
    Bounded images caps slot (restoredRegistry reg slot name state) := by
  have hencoded : Bounded images caps slot (encodeRegistryEntry reg slot state name
      (previousVersion reg slot) (previousKind reg slot) (previousMcaps reg slot)
      (previousRawLen reg slot) (previousRawCrc reg slot)) :=
    bounded_encode hn entryText_length u32At_lt u32At_lt u32At_lt
      h.checkpointMcaps h.checkpoint
  unfold restoredRegistry
  simp only
  split_ifs
  · exact hencoded.congr fun i _ hi _ => putU32_of_outside (by omega)
  · exact hencoded

theorem Bounded.pin {flags : ℕ} : Bounded images caps slot (setEntryFlags reg slot flags) :=
  h.congr fun i _ hi _ => putU32_of_outside (by omega)

theorem Bounded.other (hout : ∀ i < entrySize, reg' (entryOff slot + i) = reg (entryOff slot + i)) :
    Bounded images caps slot reg' :=
  h.congr fun i _ _ hi => hout i hi

end

/-- Updates without added capabilities, rollbacks, pins, recoveries, and commands that only
look. All packages that are supplied are among `images`. -/
def Harmless (images : Set (List UInt8)) : Command → Prop
  | .update arg raw => raw ∈ images ∧
      ∀ target options, splitWhitespace arg = target :: options → allowNewCaps ∉ options
  | .rollback _ | .pin _ _ | .recover | .store | .run _ | .verify _ | .query => True
  | .recv _ | .remove _ | .gc _ | .fault _ => False

theorem bounded_of_registries {c : Command} (h : Bounded images caps slot reg) (hs : slot < maxPkgs)
    (hc : Harmless images c) (hreg : registries reg journal c reg') : Bounded images caps slot reg' := by
  cases c with
  | recv raw | remove arg | gc arg | fault arg => exact hc.elim
  | update arg raw =>
    obtain ⟨target, options, u, harg, hcheck, state, -, rfl⟩ := hreg
    have hallow : options.contains allowNewCaps = false := by
      rw [List.contains_eq_mem, decide_eq_false (hc.2 target options harg)]
    rw [hallow] at hcheck
    have ha := UpdateRecovery.updateChecks_ok hcheck
    by_cases hslot : slot = u.slot
    · subst hslot
      exact h.update ha hc.1
    · exact h.other fun i hi =>
        UpdateRecovery.registryWith_of_outside ha (entryOff_ne hslot hi)
  | rollback arg =>
    obtain ⟨name, options, t, -, hfound, state, -, rfl⟩ := hreg
    have hlen : name.length ≤ nameMax := (findRegistrySlot_some hfound).2.2 ▸ entryText_length
    by_cases hslot : slot = t
    · subst hslot
      exact h.rollback hlen
    · exact h.other fun i hi => restoredRegistry_of_outside hlen (entryOff_ne hslot hi)
  | pin arg pinned =>
    obtain ⟨t, -, rfl⟩ := hreg
    by_cases hslot : slot = t
    · subst hslot
      exact h.pin
    · exact h.other fun i hi => setEntryFlags_of_outside (entryOff_ne hslot hi)
  | run arg | verify arg | query => exact hreg.elim
  | recover | store => exact h.weakened hs (weakened_of_recovery hreg)

theorem bounded_keeps {c : Command} (hs : slot < maxPkgs) (hc : Harmless images c) :
    Keeps (Bounded images caps slot) c := by
  intro d d' h hchanged
  obtain ⟨reg, hreg, hentry⟩ := entry_of_effect hchanged hs
  rcases hreg with rfl | hreg
  · exact h.other hentry
  · exact (bounded_of_registries h hs hc hreg).other hentry

end

section
variable {K : Faults} {d' : Disk Sector} {c : Command}

/-- What the kernel has loaded for a slot stays within the bound. -/
def Held (caps : Set ℕ) (slot : ℕ) (k : Kernel) : Prop :=
  k.loaded = true → ∀ i e, k.pkgs i = some e → e.slot = slot → capsOf e.mcaps ⊆ caps

theorem held_of_loaded (h : k.loaded = false) : Held caps slot k := by
  intro hl
  rw [h] at hl
  cases hl

/-- No package is loaded: the table is as before, or it is filled anew before it is used. -/
def Passive (k k' : Kernel) : Prop := k'.loaded = true → k.loaded = true ∧ k'.pkgs = k.pkgs

theorem Passive.same (hl : k'.loaded = k.loaded) (h : k'.pkgs = k.pkgs) : Passive k k' :=
  fun hk => ⟨hl.symm.trans hk, h⟩

theorem Passive.closed (h : k'.loaded = false) : Passive k k' := by
  intro hl
  rw [h] at hl
  cases hl

theorem Passive.trans {k₁ : Kernel} (h : Passive k k₁) (h' : Passive k₁ k') : Passive k k' := by
  intro hl
  obtain ⟨hl1, hpkgs1⟩ := h' hl
  obtain ⟨hl2, hpkgs2⟩ := h hl1
  exact ⟨hl2, hpkgs1.trans hpkgs2⟩

theorem Held.passive (h : Held caps slot k) (hk : Passive k k') : Held caps slot k' := by
  intro hl i e he
  obtain ⟨hl', hpkgs⟩ := hk hl
  exact h hl' i e (congrFun hpkgs i ▸ he)

theorem passive_update {u : Replacement} {raw : List UInt8} :
    (update k u raw).Ensures K (fun r _ => Passive k r.2) d := by
  unfold update
  refine ensures_step (fun _ => ensures_step (fun _ => ensures_step (fun _ => ensures_step
    (fun _ => ensures_step (fun _ => ?_) ?_) ?_) ?_) ?_) ?_
  · refine ensures_step (fun _ => ensures_step (fun _ => ensures_step (fun _ => ensures_step
      (fun _ => ensures_pure ?_) ?_) ?_) ?_) ?_
    · exact .closed rfl
    all_goals exact fun _ => .same rfl rfl
  all_goals exact fun _ => .same rfl rfl

theorem passive_rollback {name : Text} {forced : Bool} :
    (rollback k name forced).Ensures K (fun r _ => Passive k r.2) d := by
  have hsame : Passive k k := .same rfl rfl
  unfold rollback
  split
  · exact ensures_pure hsame
  · refine ensures_ite (ensures_pure hsame) (ensures_ite (ensures_pure hsame) ?_)
    refine ensures_bind fun v d' _ => ?_
    cases v with
    | none => exact ensures_pure hsame
    | some raw =>
      refine ensures_ite (ensures_pure hsame) ?_
      refine ensures_step (fun _ => ensures_step (fun _ => ensures_step (fun _ => ensures_step
        (fun _ => ensures_pure ?_) ?_) ?_) ?_) ?_
      · exact .closed rfl
      all_goals exact fun _ => .same rfl rfl

theorem passive_recoverFromJournal {manual : Bool} :
    (recoverFromJournal k manual).Ensures K (fun r _ => Passive k r.2) d := by
  have hcommit (k' : Kernel) (d' : Disk Sector) :
      Ensures K (fun r _ => Passive k r.2) (commitStore k' >>= fun ok =>
        if ok = true then pure (true, { k'.setDegraded false with loaded := false })
        else pure (false, k'.setDegraded true)) d' :=
    ensures_step (fun _ => ensures_pure (.closed rfl)) fun _ => .closed rfl
  refine ensures_bind fun v d' _ => ?_
  cases v with
  | none => exact ensures_pure (.closed rfl)
  | some raw =>
    simp only
    split
    · exact ensures_pure (.same rfl rfl)
    · split_ifs
      · exact hcommit { k with registry := quarantinePendingSlots k.registry } d'
      · exact ensures_pure (.closed rfl)
    · refine ensures_bind fun v d'' _ => ?_
      cases v with
      | none => exact ensures_pure (.closed rfl)
      | some reg => exact hcommit { k with registry := reg } d''

theorem passive_readRegistry {r : Bool × Kernel} (he : (readRegistry k).Exec K d r d') :
    Passive k r.2 := by
  obtain ⟨-, rfl | rfl⟩ := exec_readRegistry he <;> exact .same rfl rfl

theorem passive_recoverStore {manual : Bool} :
    (recoverStore k manual).Ensures K (fun r _ => Passive k r.2) d := by
  refine ensures_bind fun r d' he => ?_
  have hread := passive_readRegistry he
  refine ensures_ite ?_ (ensures_pure hread)
  exact fun r' d'' he' => hread.trans (passive_recoverFromJournal r' d'' he')

theorem passive_pkgStore : (pkgStore k).Ensures K (fun r _ => Passive k r.2) d := by
  refine ensures_bind fun r d' he => ?_
  have hread := passive_readRegistry he
  refine ensures_ite ?_ (ensures_pure hread)
  refine ensures_bind fun r' d₁ he' => ensures_bind fun r2 d2 he2 => ensures_bind fun _ d3 _ => ?_
  have hrecover := hread.trans (passive_recoverFromJournal r' d₁ he')
  exact ensures_pure (hrecover.trans (passive_readRegistry he2))

theorem ensures_program {R : Type} {p : Program Sector (R × Kernel)}
    (h : p.Ensures K (fun r _ => Passive k r.2) d) :
    (p >>= fun r => pure r.2).Ensures K (fun k' _ => Passive k k') d :=
  ensures_bind fun r d' he => ensures_pure (h r d' he)

theorem passive_program (hc : Harmless images c) (h : Opened k d) :
    (c.program k).Ensures K (fun k' _ => Passive k k') d := by
  have hsame : Passive k k := .same rfl rfl
  cases c with
  | recv raw | remove arg | gc arg | fault arg => exact hc.elim
  | update arg raw =>
    refine ensures_program ?_
    unfold pkgUpdate
    split
    · exact ensures_pure hsame
    · rw [withStore_of_opened h]
      split
      · exact ensures_pure hsame
      · exact passive_update
  | rollback arg =>
    refine ensures_program ?_
    unfold pkgRollback
    split
    · exact ensures_pure hsame
    · rw [withStore_of_opened h]
      exact passive_rollback
  | pin arg pinned =>
    refine ensures_program ?_
    rw [pkgPin, withStore_of_opened h]
    split
    · exact ensures_pure hsame
    · refine ensures_step (fun _ => ensures_step (fun _ => ensures_pure ?_) ?_) ?_
      · exact .closed rfl
      all_goals exact fun _ => .same rfl rfl
  | run arg =>
    refine ensures_program ?_
    rw [pkgRun, withStore_of_opened h]
    split
    · exact ensures_pure hsame
    · split <;> exact ensures_pure hsame
  | recover => exact ensures_program passive_recoverStore
  | store => exact ensures_program passive_pkgStore
  | verify arg =>
    refine ensures_program ?_
    rw [pkgVerify, withStore_of_opened h]
    split
    · exact ensures_pure hsame
    · refine ensures_ite (ensures_pure hsame) (ensures_bind fun v d' _ => ?_)
      cases v with
      | none => exact ensures_pure hsame
      | some raw =>
        refine ensures_ite (ensures_pure hsame) ?_
        split
        · exact ensures_pure hsame
        · split <;> exact ensures_pure hsame
  | query =>
    refine ensures_program ?_
    rw [pkgQuery, h.ensureLoaded]
    exact ensures_pure hsame

theorem untouched_of_loaded {d₁ : Disk Sector} {i : ℕ} {p : Inspected}
    (hprogress : Progress (fun _ => false) d₁ (registryOf d₁) maxPkgs k) (htracked : Tracked d₁ k d)
    (hloaded : loadedAt (fun _ => false) d₁ (registryOf d₁) i = some p) : Untouched d₁ d i := by
  have hbase := le_slotBlobSector i
  have hstate : entryState (registryOf d) i = entryState (registryOf d₁) i := by
    rw [← htracked.registry, hprogress.registry, entryState_marked, if_neg]
    rintro ⟨-, -, hnone⟩
    cases hloaded.symm.trans hnone
  have hfields {j : ℕ} (hj : 1 ≤ j) (hj' : j < entrySize) :
      registryOf d (entryOff i + j) = registryOf d₁ (entryOff i + j) := by
    rw [← htracked.registry, hprogress.registry, marked_of_pos hj hj']
  refine ⟨fun j hj => ?_, fun j _ => htracked.rest _ (.inr ?_)⟩
  · cases j with
    | zero => exact hstate
    | succ j => exact hfields (Nat.succ_pos j) hj
  · unfold registrySector registrySectors
    omega

theorem loads_of_pkgs {d₁ : Disk Sector} {i : ℕ} {e : PkgEntry}
    (hprogress : Progress (fun _ => false) d₁ (registryOf d₁) maxPkgs k) (htracked : Tracked d₁ k d)
    (he : k.pkgs i = some e) :
    e.slot = i ∧ ∃ p, Loads d (registryOf d) i p ∧ e.mcaps = p.mcaps := by
  rw [hprogress.pkgs] at he
  split_ifs at he with hi
  cases hloaded : loadedAt (fun _ => false) d₁ (registryOf d₁) i with
  | none =>
    rw [hloaded] at he
    cases he
  | some p =>
    rw [hloaded] at he
    obtain rfl := Option.some.inj he
    have haccepted := (loadedAt_eq_some.mp hloaded).2.2.1
    have huntouched := untouched_of_loaded hprogress htracked hloaded
    exact ⟨rfl, p, huntouched.loads (accepted_iff.mp haccepted), rfl⟩

def openedImage (k : Kernel) (d : Disk Sector) (slot : ℕ) : List UInt8 :=
  blobOf ((ensureLoaded k).eval d).2 (registryOf ((ensureLoaded k).eval d).2) slot

theorem Bounded.loads {p : Inspected} (h : Bounded images caps slot (registryOf d))
    (hinj : Set.InjOn checksum images) (himage : blobOf d (registryOf d) slot ∈ images)
    (hp : Loads d (registryOf d) slot p) : capsOf p.mcaps ⊆ caps := by
  rcases h.current with hzero | ⟨raw, hraw, hcrc, hcaps⟩
  · exact absurd hzero hp.pos.ne'
  · obtain rfl := hinj hraw himage (hcrc.trans hp.crc.symm)
    exact hcaps p hp.contents

theorem held_ensureLoaded (hinj : Set.InjOn checksum images) (hs : slot < maxPkgs)
    (hk : Synced k d) (hbound : Bounded images caps slot (registryOf d)) (hheld : Held caps slot k)
    (himage : openedImage k d slot ∈ images) : Held caps slot ((ensureLoaded k).eval d).1.2 := by
  unfold openedImage at himage
  cases hl : k.loaded && !k.degraded with
  | true =>
    have hopen : Opened k d := ⟨hl, hk hl⟩
    rw [hopen.ensureLoaded, eval_pure]
    exact hheld
  | false =>
    cases hplan : (imageOf d).plan false with
    | none =>
      rw [ensureLoaded_refused hl hplan]
      exact held_of_loaded rfl
    | some l =>
      obtain ⟨k', d', heval, -, hprogress, htracked⟩ := ensureLoaded_plan hl hplan
      have hopened := invariant_ensureLoaded (k := k)
        (fun _ _ hweak hbound => Bounded.weakened hbound hs hweak) hbound
        ((ensureLoaded k).writes d).length
      rw [crashAfter_eq_replay, List.take_length, ← eval_eq_replay] at hopened
      rw [heval] at hopened himage ⊢
      intro _ i e he hslot
      obtain ⟨hi, p, hp, hmcaps⟩ := loads_of_pkgs hprogress htracked he
      obtain rfl : slot = i := hslot.symm.trans hi
      rw [hmcaps]
      exact hopened.loads hinj himage hp

theorem held_program (hinj : Set.InjOn checksum images) (hs : slot < maxPkgs) (hk : Synced k d)
    (hbound : Bounded images caps slot (registryOf d)) (hheld : Held caps slot k)
    (himage : openedImage k d slot ∈ images) (hc : Harmless images c) :
    Held caps slot ((c.program k).eval d).1 := by
  rcases shape c with hidle | hdirect | ⟨body, hbody⟩
  · rw [hidle, eval_pure]
    exact hheld
  · have hpassive : (c.program k).Ensures .none (fun k' _ => Passive k k') d := by
      rcases hdirect with rfl | rfl | ⟨arg, rfl⟩
      · exact ensures_program passive_recoverStore
      · exact ensures_program passive_pkgStore
      · exact hc.elim
    exact hheld.passive (ensures_none.mp hpassive)
  · have hopened := held_ensureLoaded hinj hs hk hbound hheld himage
    rw [hbody, eval_bind]
    rcases eval_ensureLoaded hk with ⟨k', d', heval, hopen⟩ | ⟨k', d', heval, hloaded⟩
    · rw [heval] at hopened ⊢
      simp only [if_true]
      rw [program_of_opened hbody hopen]
      exact hopened.passive (ensures_none.mp (passive_program hc hopen))
    · rw [heval]
      exact held_of_loaded hloaded

end

section
variable {d₀ : Disk Sector} {k₀ : Kernel}
  {p : Admission} {arg : Text} {e : PkgEntry} {mcaps : ℕ}

/-- The entry is the one that an install of the package writes. -/
def FreshlyInstalled (d : Disk Sector) (raw : List UInt8) (p : Admission) : Prop :=
  ∃ reg, recvChecks reg raw = .ok p ∧ ∀ i < entrySize,
    registryOf d (entryOff p.slot + i) = p.registryWith reg raw stateActive (entryOff p.slot + i)

theorem FreshlyInstalled.bounded (h : FreshlyInstalled d raw p) (hraw : raw ∈ images) :
    Bounded images (capsOf p.package.mcaps) p.slot (registryOf d) := by
  obtain ⟨reg, hcheck, hentry⟩ := h
  have ha := recvChecks_ok hcheck
  have hmcaps := (inspect_isUtf8 ha.contents).2.2
  have hlen : raw.length ≤ 32768 := ha.le
  have hcrc : p.rawCrc < 2 ^ 32 := ha.rawCrc ▸ UInt32.toNat_lt _
  refine Bounded.other ?_ hentry
  refine bounded_encode ha.name ha.version (by omega) (by omega) hcrc subset_rfl (.inr ?_)
  refine ⟨raw, hraw, ha.rawCrc.symm, fun q hq => ?_⟩
  obtain rfl := Option.some.inj (ha.contents.symm.trans hq)
  exact subset_rfl

/-- The commands of a run are harmless, and whatever image stands in the area of the
package when the store is opened belongs to `images`. -/
def Tame (images : Set (List UInt8)) (slot : ℕ) (k : Kernel) (d : Disk Sector) (c : Command) : Prop :=
  Harmless images c ∧ openedImage k d slot ∈ images

theorem held_of_reaches (hinj : Set.InjOn checksum images) (hraw : raw ∈ images)
    (hinstalled : FreshlyInstalled d₀ raw p) (hk₀ : k₀.loaded = false)
    (hrun : Reaches (Tame images p.slot) k₀ d₀ k d) :
    Bounded images (capsOf p.package.mcaps) p.slot (registryOf d) ∧
      Held (capsOf p.package.mcaps) p.slot k := by
  have hs : p.slot < maxPkgs := by
    obtain ⟨reg, hcheck, -⟩ := hinstalled
    exact (recvChecks_ok hcheck).slot
  have hbounded {k : Kernel} {d : Disk Sector} (h : Reaches (Tame images p.slot) k₀ d₀ k d) :
      Bounded images (capsOf p.package.mcaps) p.slot (registryOf d) :=
    h.invariant (fun _ _ hweak hbound => Bounded.weakened hbound hs hweak)
      (fun _ _ _ hc => bounded_keeps hs hc.1) (synced_of_loaded hk₀) (hinstalled.bounded hraw)
  refine ⟨hbounded hrun, ?_⟩
  induction hrun with
  | start => exact held_of_loaded hk₀
  | completes h hc ih =>
    exact held_program hinj hs (h.synced (synced_of_loaded hk₀)) (hbounded h) ih hc.2 hc.1
  | crashes n h hc ih => exact held_of_loaded rfl

/-- In every run of updates without added capabilities, rollbacks, pins, recoveries and
power cuts, a package is launched with at most the capabilities it was installed with. -/
theorem no_silent_escalation (hinj : Set.InjOn checksum images) (hraw : raw ∈ images)
    (hinstalled : FreshlyInstalled d₀ raw p) (hk₀ : k₀.loaded = false)
    (hrun : Reaches (Tame images p.slot) k₀ d₀ k d) (himage : openedImage k d p.slot ∈ images)
    (hlaunch : ((pkgRun k arg).eval d).1 = (.launched e mcaps, k')) (hslot : e.slot = p.slot) :
    capsOf mcaps ⊆ capsOf p.package.mcaps := by
  have hsynced := hrun.synced (synced_of_loaded hk₀)
  obtain ⟨hbound, hheld⟩ := held_of_reaches hinj hraw hinstalled hk₀ hrun
  have hs : p.slot < maxPkgs := by
    obtain ⟨reg, hcheck, -⟩ := hinstalled
    exact (recvChecks_ok hcheck).slot
  have hopened := held_ensureLoaded hinj hs hsynced hbound hheld himage
  rw [pkgRun, withStore, eval_bind] at hlaunch
  rcases eval_ensureLoaded hsynced with ⟨k₁, d₁, heval, hopen⟩ | ⟨k₁, d₁, heval, -⟩
  · rw [heval] at hlaunch hopened
    simp only [if_true] at hlaunch
    have hloaded : k₁.loaded = true := (Bool.and_eq_true_iff.mp hopen.loaded).1
    split at hlaunch
    · rename_i e' hfound
      obtain ⟨hres, -⟩ := Prod.mk.inj hlaunch
      obtain ⟨rfl, rfl⟩ := RunResult.launched.inj hres
      obtain ⟨i, -, hi⟩ := List.exists_of_findSome?_eq_some hfound
      exact hopened hloaded i _ (Option.filter_eq_some_iff.mp hi).1 hslot
    · split at hlaunch <;> cases hlaunch
  · rw [heval] at hlaunch
    cases hlaunch

end

section
open UpdateRecovery

def interruptedDisk : Disk Sector :=
  crashAfter 5 (Command.program .boot (.update (ascii "demo") demoUpdate)) demoDisk

theorem serves_interruptedDisk :
    ∃ p, p.name = ascii "demo" ∧ Serves (reboot interruptedDisk) 0 demoPackage p := by
  have hrest := atRest_demoDisk
  have ha := updateChecks_ok updateChecks_demoUpdate
  obtain ⟨p, hp⟩ := hrest.loadable demoReplacement.slot ha.slot ha.active
  obtain ⟨k', htrace⟩ := trace_pkgUpdate hrest (synced_boot demoDisk) splitWhitespace_demo
    updateChecks_demoUpdate hp
  have hdisk : interruptedDisk = crashed demoDisk demoReplacement demoUpdate 5 :=
    (crashAfter_bind_pure _ _ _ _).trans (htrace.crashAfter 5)
  have hkept : Replaceable demoDisk demoReplacement demoUpdate 5 := by omega
  have hsame : ∀ t ≤ demoReplacement.slot,
      Untouched demoDisk (recovered demoDisk demoReplacement demoUpdate 5) t := by
    intro t ht
    obtain rfl : t = demoReplacement.slot := Nat.le_zero.mp ht
    exact untouched_of_kept (short_of_atRest hrest) ha hp hkept
  obtain ⟨-, hserves⟩ := kept_reboot (plan_crashed hrest.journal ha hp) hrest ha.slot hsame
    ha.active hp
  have hblob : blobOf demoDisk (registryOf demoDisk) demoReplacement.slot = demoPackage :=
    blobOf_demoDisk
  rw [hblob] at hserves
  rw [hdisk]
  refine ⟨p, ?_, hserves⟩
  have hcontents := (recvChecks_ok recvChecks_demoPackage).contents
  rw [Option.some.inj (hserves.contents.symm.trans hcontents)]
  rfl

theorem openedImage_interruptedDisk : openedImage .boot interruptedDisk 0 = demoPackage := by
  obtain ⟨p, -, hserves⟩ := serves_interruptedDisk
  exact hserves.blob

theorem openedImage_demoDisk : openedImage .boot demoDisk 0 = demoPackage := by
  have hboot : ((ensureLoaded .boot).eval demoDisk).2 = demoDisk := (reboot_atRest atRest_demoDisk).2.1
  rw [openedImage, hboot]
  exact blobOf_demoDisk

theorem findRuntimePkg_first {k : Kernel} {e : PkgEntry} (h : k.pkgs 0 = some e) :
    findRuntimePkg k e.name = some e := by
  have hrange : List.range maxPkgs = 0 :: (List.range 7).map Nat.succ := rfl
  rw [findRuntimePkg, hrange, List.findSome?_cons, h, Option.filter_some, beq_self_eq_true]
  rfl

theorem pkgRun_launched {k k' : Kernel} {d d' : Disk Sector} {arg : Text} {e : PkgEntry}
    (hload : (ensureLoaded k).eval d = ((true, k'), d'))
    (hfound : findRuntimePkg k' (trim arg) = some e) :
    ((pkgRun k arg).eval d).1 = (.launched e e.mcaps, k') := by
  rw [pkgRun, withStore, eval_bind, hload]
  simp only [if_true, hfound]
  rfl

theorem launched_interruptedDisk : ∃ e mcaps k',
    ((pkgRun .boot (ascii "demo")).eval interruptedDisk).1 = (.launched e mcaps, k') ∧ e.slot = 0 := by
  obtain ⟨p, hname, hserves⟩ := serves_interruptedDisk
  obtain ⟨e, hpkgs, hename, -⟩ := hserves.entry
  have husable := hserves.usable
  have htrim : trim (ascii "demo") = ascii "demo" := by decide +kernel
  cases hplan : (imageOf interruptedDisk).plan false with
  | none =>
    have hrefused := ensureLoaded_refused (k := .boot) rfl hplan
    rw [reboot, hrefused] at husable
    cases husable
  | some l =>
    obtain ⟨k', d', heval, -, hprogress, htracked⟩ := ensureLoaded_plan (k := .boot) rfl hplan
    rw [reboot, heval] at hpkgs
    have hfound := findRuntimePkg_first hpkgs
    rw [hename, hname, ← htrim] at hfound
    exact ⟨e, e.mcaps, k', pkgRun_launched heval hfound,
      (loads_of_pkgs hprogress htracked hpkgs).1⟩

theorem freshlyInstalled_demoDisk : FreshlyInstalled demoDisk demoPackage demoAdmission := by
  refine ⟨registryOf blankDisk, recvChecks_demoPackage, fun i _ => ?_⟩
  rw [registryOf_demoDisk, registryOf_blankDisk]

theorem no_silent_escalation_demo : ∃ e mcaps k',
    ((pkgRun .boot (ascii "demo")).eval interruptedDisk).1 = (.launched e mcaps, k') ∧
      capsOf mcaps ⊆ capsOf demoAdmission.package.mcaps := by
  have hinj : Set.InjOn checksum {demoPackage, demoUpdate} := by
    have hne : checksum demoPackage ≠ checksum demoUpdate := by decide +kernel
    rintro x (rfl | rfl) y (rfl | rfl) heq
    · rfl
    · exact absurd heq hne
    · exact absurd heq.symm hne
    · rfl
  have hstep : Tame {demoPackage, demoUpdate} demoAdmission.slot .boot demoDisk
      (.update (ascii "demo") demoUpdate) := by
    refine ⟨⟨.inr rfl, fun target options harg => ?_⟩, .inl openedImage_demoDisk⟩
    obtain ⟨-, rfl⟩ := List.cons.inj (splitWhitespace_demo.symm.trans harg)
    exact List.not_mem_nil
  obtain ⟨e, mcaps, k', hlaunch, hslot⟩ := launched_interruptedDisk
  exact ⟨e, mcaps, k', hlaunch, no_silent_escalation hinj (.inl rfl) freshlyInstalled_demoDisk rfl
    (.crashes 5 .start hstep) (.inl openedImage_interruptedDisk) hlaunch hslot⟩

end

end Dezh.CapabilityBound

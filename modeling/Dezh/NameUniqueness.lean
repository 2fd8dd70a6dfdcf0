import Dezh.CommandRuns
import Dezh.StoreFrame

/-!
# Names in the registry

From an empty store on, the names of two entries never coincide unless they are empty,
whatever commands follow and wherever the power is cut. The invariant does not look at
the states: recovery may bring back the state of an entry, but it gives no entry a name.
It also needs that an empty entry has no name, because an install that does not find its
name may take any free slot.
-/
namespace Dezh.NameUniqueness
open BlockProgram Program ByteLayout CairnFormat PackageFormat PackageStore PackageCodec
  PackageAreas PackageRecovery PackageCommands CheckpointCodec InstallTrace InstallRecovery
  RollbackRecovery CommandEffects StoreFrame CommandRuns

variable {reg reg' journal : Bytes} {slot t : ℕ} {name : Text}

/-- Distinct entries have distinct names, unless they have none. -/
structure Named (reg : Bytes) : Prop where
  unique : ∀ s < maxPkgs, ∀ t < maxPkgs, s ≠ t → entryName reg s = entryName reg t →
    entryName reg s = []
  empty : ∀ t < maxPkgs, entryState reg t = stateEmpty → entryName reg t = []

/-- No entry but that of `slot` has the name. -/
def Fresh (reg : Bytes) (slot : ℕ) (name : Text) : Prop :=
  ∀ t < maxPkgs, t ≠ slot → entryName reg t = name → name = []

/-- An entry keeps its name or loses it, and only that of `slot` may get the new one. -/
structure Renamed (reg : Bytes) (slot : ℕ) (name : Text) (reg' : Bytes) (t : ℕ) : Prop where
  name : entryName reg' t = entryName reg t ∨ entryName reg' t = [] ∨
    t = slot ∧ entryName reg' t = name
  empty : entryState reg' t = stateEmpty → entryName reg' t = []

theorem Named.renamed (h : Named reg) (hfresh : Fresh reg slot name)
    (hstep : ∀ t < maxPkgs, Renamed reg slot name reg' t) : Named reg' := by
  refine ⟨fun s hs t ht hne heq => ?_, fun t ht => (hstep t ht).empty⟩
  rcases (hstep s hs).name with hold | hnil | ⟨rfl, hnew⟩
  · rcases (hstep t ht).name with hold' | hnil' | ⟨rfl, hnew'⟩
    · rw [hold] at heq ⊢
      exact h.unique s hs t ht hne (heq.trans hold')
    · exact heq.trans hnil'
    · have hname : entryName reg s = name := hold.symm.trans (heq.trans hnew')
      exact heq.trans (hnew'.trans (hfresh s hs hne hname))
  · exact hnil
  · rcases (hstep t ht).name with hold' | hnil' | ⟨rfl, -⟩
    · have hname : entryName reg t = name := hold'.symm.trans (heq.symm.trans hnew)
      exact hnew.trans (hfresh t ht hne.symm hname)
    · exact heq.trans hnil'
    · exact absurd rfl hne

theorem entryName_congr (h : ∀ i, 1 ≤ i → i < entrySize → reg' (entryOff t + i) = reg (entryOff t + i)) :
    entryName reg' t = entryName reg t := by
  rw [entryName, h 32 (by decide) (by decide), entryName]
  refine entryText_congr fun i hi => ?_
  unfold nameMax at hi
  rw [Nat.add_assoc]
  exact h _ (by omega) (by unfold entrySize; omega)

theorem entryName_of_zero (h : ∀ i, 1 ≤ i → i < entrySize → reg' (entryOff t + i) = 0) :
    entryName reg' t = [] := by
  rw [entryName, h 32 (by decide) (by decide)]
  rfl

theorem Named.weakEntry (h : Named reg) (hweak : WeakEntry reg reg' t) (ht : t < maxPkgs) :
    Renamed reg slot name reg' t := by
  refine ⟨?_, fun hempty => ?_⟩
  · rcases hweak.fields with hsame | hzero
    · exact .inl (entryName_congr hsame)
    · exact .inr (.inl (entryName_of_zero hzero))
  · rcases hweak.empty hempty with hold | hzero
    · rcases hweak.fields with hsame | hzero
      · exact (entryName_congr hsame).trans (h.empty t ht hold)
      · exact entryName_of_zero hzero
    · exact entryName_of_zero hzero

theorem fresh_nil (slot : ℕ) : Fresh reg slot [] := fun _ _ _ _ => rfl

theorem Named.weakened (h : Named reg) (hweak : Weakened reg reg') : Named reg' :=
  h.renamed (fresh_nil 0) fun t ht => h.weakEntry (hweak t ht) ht

theorem Named.rewritten (h : Named reg)
    (hout : ∀ t, t ≠ slot → ∀ i < entrySize, reg' (entryOff t + i) = reg (entryOff t + i))
    (hname : entryName reg' slot = name) (hstate : entryState reg' slot ≠ stateEmpty) (ht : t < maxPkgs) :
    Renamed reg slot name reg' t := by
  by_cases hslot : t = slot
  · subst hslot
    exact ⟨.inr (.inr ⟨rfl, hname⟩), fun hempty => absurd hempty hstate⟩
  · exact h.weakEntry ((WeakEntry.refl reg t).congr (hout t hslot)) ht

theorem Named.fresh_of_found (h : Named reg) (hfound : findRegistrySlot reg name = some slot) :
    Fresh reg slot name := by
  obtain ⟨hs, -, hname⟩ := findRegistrySlot_some hfound
  intro t ht hne heq
  rw [← heq]
  exact h.unique t ht slot hs hne (heq.trans hname.symm)

theorem findRegistrySlot_none (h : findRegistrySlot reg name = none) (ht : t < maxPkgs) :
    entryState reg t = stateEmpty ∨ entryName reg t ≠ name := by
  have hnone := List.find?_eq_none.mp h t (List.mem_range.mpr ht)
  simp only [Bool.and_eq_true, bne_iff_ne, ne_eq, beq_iff_eq, not_and] at hnone
  by_cases hempty : entryState reg t = stateEmpty
  · exact .inl hempty
  · exact .inr (hnone hempty)

theorem Named.fresh_of_chosen (h : Named reg) (hchosen : registrySlotFor reg name = some slot) :
    Fresh reg slot name := by
  cases hfound : findRegistrySlot reg name with
  | some s =>
    have hslot : s = slot := by
      unfold registrySlotFor at hchosen
      unfold findRegistrySlot at hfound
      simp only [hfound, Option.some_or] at hchosen
      exact Option.some.inj hchosen
    subst hslot
    exact h.fresh_of_found hfound
  | none =>
    intro t ht _ heq
    rcases findRegistrySlot_none hfound ht with hempty | hne
    · rw [← heq]
      exact h.empty t ht hempty
    · exact absurd heq hne

theorem Named.fresh_faultSlot (h : Named reg) : Fresh reg (faultSlot reg) faultName := by
  cases hchosen : registrySlotFor reg faultName with
  | some slot =>
    have hslot : faultSlot reg = slot := by rw [faultSlot, hchosen, Option.getD_some]
    rw [hslot]
    exact h.fresh_of_chosen hchosen
  | none =>
    intro t ht _ heq
    have hfound : findRegistrySlot reg faultName = none := by
      simp only [registrySlotFor, Option.or_eq_none_iff] at hchosen
      exact hchosen.1
    rcases findRegistrySlot_none hfound ht with hempty | hne
    · rw [← heq]
      exact h.empty t ht hempty
    · exact absurd heq hne

theorem weakened_foldl_clear (l : List ℕ) : Weakened reg (l.foldl clearRegistrySlot reg) := by
  have hgeneral : ∀ reg', Weakened reg reg' → Weakened reg (l.foldl clearRegistrySlot reg') := by
    induction l with
    | nil => exact fun reg' hweak => hweak
    | cons slot rest ih => exact fun reg' hweak => ih _ hweak.clear
  exact hgeneral reg (.refl reg)

section
variable {c : Command} {state : UInt8}

section
variable (h : Named reg)
include h

theorem renamed_recv {raw : List UInt8} {p : Admission}
    (hcheck : recvChecks reg raw = .ok p) (hne : state ≠ stateEmpty) (ht : t < maxPkgs) :
    Renamed reg p.slot p.package.name (p.registryWith reg raw state) t := by
  have ha := recvChecks_ok hcheck
  refine h.rewritten (fun t hslot i hi => ?_) ?_ ?_ ht
  · exact encodeRegistryEntry_of_outside ha.name ha.version (entryOff_ne hslot hi)
  · exact entryName_encode ha.name (inspect_isUtf8 ha.contents).1
  · rw [Admission.registryWith, entryState_encode]
    exact hne

theorem renamed_update {raw : List UInt8} {target : Text} {allow : Bool} {u : Replacement}
    (ha : UpdateRecovery.Accepted reg target allow raw u) (hne : state ≠ stateEmpty)
    (ht : t < maxPkgs) : Renamed reg u.slot target (u.registryWith reg raw state) t := by
  refine h.rewritten (fun t hslot i hi => ?_) ?_ ?_ ht
  · exact UpdateRecovery.registryWith_of_outside ha (entryOff_ne hslot hi)
  · rw [UpdateRecovery.sameHead_registryWith.name, ← ha.named]
    exact entryName_encode ha.name (inspect_isUtf8 ha.contents).1
  · rw [UpdateRecovery.entryState_registryWith]
    exact hne

theorem renamed_rollback (hfound : findRegistrySlot reg name = some slot)
    (hne : state ≠ stateEmpty) (ht : t < maxPkgs) :
    Renamed reg slot name (restoredRegistry reg slot name state) t := by
  have hname := (findRegistrySlot_some hfound).2.2
  have hlen : name.length ≤ nameMax := hname ▸ entryText_length
  have hutf8 : isUtf8 name = true := hname ▸ isUtf8_entryText
  refine h.rewritten (fun t hslot i hi => ?_) ?_ ?_ ht
  · exact restoredRegistry_of_outside hlen (entryOff_ne hslot hi)
  · rw [sameHead_restoredRegistry.name]
    exact entryName_encode hlen hutf8
  · rw [entryState_restoredRegistry]
    exact hne

theorem renamed_pin {flags : ℕ} (hfound : findRegistrySlot reg name = some slot)
    (ht : t < maxPkgs) : Renamed reg slot name (setEntryFlags reg slot flags) t := by
  obtain ⟨-, hstate, hname⟩ := findRegistrySlot_some hfound
  refine h.rewritten (fun t hslot i hi => setEntryFlags_of_outside (entryOff_ne hslot hi)) ?_ ?_ ht
  · rw [sameHead_setEntryFlags.name]
    exact hname
  · rw [sameHead_setEntryFlags.state]
    exact hstate

theorem renamed_fault (ht : t < maxPkgs) :
    Renamed reg (faultSlot reg) faultName (encodeRegistryEntry reg (faultSlot reg)
      statePendingInstall faultName faultVersion kindDezhIr 1 128 faultCrc) t := by
  refine h.rewritten (fun t hslot i hi => ?_) ?_ ?_ ht
  · exact encodeRegistryEntry_of_outside (by decide) (by decide) (entryOff_ne hslot hi)
  · exact entryName_encode (by decide) (by decide)
  · rw [entryState_encode]
    decide

end

theorem renamed_of_registries (journal : Bytes) (h : Named reg) (c : Command) :
    ∃ slot name, Fresh reg slot name ∧
      ∀ reg', registries reg journal c reg' → ∀ t < maxPkgs, Renamed reg slot name reg' t := by
  -- Recovery, removal and collection only weaken the entries.
  have hweaken (hweak : ∀ reg', registries reg journal c reg' → Weakened reg reg') :
      ∃ slot name, Fresh reg slot name ∧
        ∀ reg', registries reg journal c reg' → ∀ t < maxPkgs, Renamed reg slot name reg' t :=
    ⟨0, [], fresh_nil 0, fun reg' hreg t ht => h.weakEntry (hweak reg' hreg t ht) ht⟩
  cases c with
  | recv raw =>
    cases hcheck : recvChecks reg raw with
    | error why => exact hweaken fun reg' ⟨p, hp, _⟩ => by cases hcheck.symm.trans hp
    | ok p =>
      refine ⟨p.slot, p.package.name, h.fresh_of_chosen (recvChecks_inv hcheck).2, ?_⟩
      rintro reg' ⟨p', hp', state, hne, rfl⟩ t ht
      obtain rfl := Except.ok.inj (hcheck.symm.trans hp')
      exact renamed_recv h hcheck hne ht
  | update arg raw =>
    by_cases hacts : ∃ target options u, splitWhitespace arg = target :: options ∧
        updateChecks reg target (options.contains allowNewCaps) raw = .ok u
    · obtain ⟨target, options, u, harg, hcheck⟩ := hacts
      have ha := UpdateRecovery.updateChecks_ok hcheck
      refine ⟨u.slot, target, h.fresh_of_found ha.found, ?_⟩
      rintro reg' ⟨target', options', u', harg', hcheck', state, hne, rfl⟩ t ht
      obtain ⟨rfl, rfl⟩ := List.cons.inj (harg.symm.trans harg')
      obtain rfl := Except.ok.inj (hcheck.symm.trans hcheck')
      exact renamed_update h ha hne ht
    · refine hweaken fun reg' ⟨target, options, u, harg, hcheck, _⟩ => ?_
      exact absurd ⟨target, options, u, harg, hcheck⟩ hacts
  | rollback arg =>
    by_cases hacts : ∃ name options slot, splitWhitespace arg = name :: options ∧
        findRegistrySlot reg name = some slot
    · obtain ⟨name, options, slot, harg, hfound⟩ := hacts
      refine ⟨slot, name, h.fresh_of_found hfound, ?_⟩
      rintro reg' ⟨name', options', slot', harg', hfound', state, hne, rfl⟩ t ht
      obtain ⟨rfl, -⟩ := List.cons.inj (harg.symm.trans harg')
      obtain rfl := Option.some.inj (hfound.symm.trans hfound')
      exact renamed_rollback h hfound hne ht
    · refine hweaken fun reg' ⟨name, options, slot, harg, hfound, _⟩ => ?_
      exact absurd ⟨name, options, slot, harg, hfound⟩ hacts
  | remove arg =>
    refine hweaken ?_
    rintro reg' ⟨slot, -, state, hne, rfl⟩
    exact (Weakened.refl reg).setEntryState hne
  | pin arg pinned =>
    cases hfound : findRegistrySlot reg (trim arg) with
    | none => exact hweaken fun reg' ⟨slot, hslot, _⟩ => by cases hfound.symm.trans hslot
    | some slot =>
      refine ⟨slot, trim arg, h.fresh_of_found hfound, ?_⟩
      rintro reg' ⟨slot', hfound', rfl⟩ t ht
      obtain rfl := Option.some.inj (hfound.symm.trans hfound')
      exact renamed_pin h hfound ht
  | gc arg =>
    refine hweaken ?_
    rintro reg' rfl
    exact weakened_foldl_clear _
  | run arg | verify arg | query => exact hweaken fun reg' hreg => hreg.elim
  | recover | store => exact hweaken fun reg' hreg => weakened_of_recovery hreg
  | fault arg =>
    by_cases hfault : Injection.ofName (trim arg) = some .installPendingRegistry
    · refine ⟨faultSlot reg, faultName, h.fresh_faultSlot, ?_⟩
      rintro reg' ⟨fault, hfault', hreg⟩ t ht
      obtain rfl := Option.some.inj (hfault.symm.trans hfault')
      obtain rfl := hreg
      exact renamed_fault h ht
    · refine hweaken ?_
      rintro reg' ⟨fault, hfault', hreg⟩
      cases fault with
      | installAfterBlob | corruptJournal => exact hreg.elim
      | installPendingRegistry => exact absurd hfault' hfault
      | removePending =>
        obtain ⟨slot, -, rfl⟩ := hreg
        exact (Weakened.refl reg).setEntryState (by decide)

theorem named_keeps (c : Command) : Keeps Named c := by
  intro d d' h hchanged
  obtain ⟨slot, name, hfresh, hrenamed⟩ := renamed_of_registries (journalOf d) h c
  refine h.renamed hfresh fun t ht => ?_
  obtain ⟨reg, hreg, hentry⟩ := entry_of_effect hchanged ht
  have hstep : Renamed (registryOf d) slot name reg t := by
    rcases hreg with rfl | hreg
    · exact h.weakEntry (.refl _ t) ht
    · exact hrenamed reg hreg t ht
  have hname : entryName (registryOf d') t = entryName reg t :=
    entryName_congr fun i _ hi => hentry i hi
  have hstate : entryState (registryOf d') t = entryState reg t := hentry 0 (by decide)
  refine ⟨?_, fun hempty => ?_⟩
  · rw [hname]
    exact hstep.name
  · rw [hname]
    exact hstep.empty (hstate.symm.trans hempty)

end

section
variable {d d₀ : Disk Sector} {k k₀ : Kernel}

/-- No two entries in use share a name, so a name leads to the one package that has it. -/
structure WellNamed (reg : Bytes) : Prop where
  unique : ∀ s < maxPkgs, ∀ t < maxPkgs, s ≠ t → entryState reg s ≠ stateEmpty →
    entryState reg t ≠ stateEmpty → entryName reg s ≠ [] → entryName reg s ≠ entryName reg t
  found : ∀ name ≠ [], ∀ slot, findRegistrySlot reg name = some slot ↔
    slot < maxPkgs ∧ entryState reg slot ≠ stateEmpty ∧ entryName reg slot = name

theorem Named.wellNamed {reg : Bytes} (h : Named reg) : WellNamed reg := by
  refine ⟨fun s hs t ht hne _ _ hname heq => hname (h.unique s hs t ht hne heq),
    fun name hname slot => ⟨findRegistrySlot_some, fun ⟨hs, hstate, hslot⟩ => ?_⟩⟩
  cases hfound : findRegistrySlot reg name with
  | none =>
    rcases findRegistrySlot_none hfound hs with hempty | hother
    · exact absurd hempty hstate
    · exact absurd hslot hother
  | some t =>
    by_cases heq : slot = t
    · rw [heq]
    · exact absurd (h.fresh_of_found hfound slot hs heq hslot) hname

/-- Every slot is empty and has no name. -/
def EmptyStore (d : Disk Sector) : Prop :=
  ∀ slot < maxPkgs, entryState (registryOf d) slot = stateEmpty ∧ entryName (registryOf d) slot = []

theorem EmptyStore.named (h : EmptyStore d) : Named (registryOf d) :=
  ⟨fun s hs _ _ _ _ => (h s hs).2, fun t ht _ => (h t ht).2⟩

/-- In every run of package commands from an empty store, with power cuts after any number
of writes, the names on disk are unique, and so are those that the next command works on. -/
theorem registry_names_unique (hempty : EmptyStore d₀) (hk₀ : Synced k₀ d₀)
    (hrun : Reaches (fun _ _ _ => True) k₀ d₀ k d) :
    WellNamed (registryOf d) ∧
      ∀ k' d', (ensureLoaded k).eval d = ((true, k'), d') → WellNamed k'.registry := by
  have hweak (reg reg' : Bytes) (hweak : Weakened reg reg') (h : Named reg) : Named reg' :=
    h.weakened hweak
  have hnamed : Named (registryOf d) :=
    hrun.invariant hweak (fun _ _ c _ => named_keeps c) hk₀ hempty.named
  refine ⟨hnamed.wellNamed, fun k' d' hload => ?_⟩
  rcases eval_ensureLoaded (hrun.synced hk₀) with ⟨k₁, d₁, heval, hopen⟩ | ⟨k₁, d₁, heval, -⟩
  · obtain ⟨hr, rfl⟩ := Prod.mk.inj (hload.symm.trans heval)
    obtain ⟨-, rfl⟩ := Prod.mk.inj hr
    rw [hopen.registry]
    have hopened := invariant_ensureLoaded (k := k) hweak hnamed ((ensureLoaded k).writes d).length
    rw [crashAfter_eq_replay, List.take_length, ← eval_eq_replay, heval] at hopened
    exact hopened.wellNamed
  · cases hload.symm.trans heval

theorem emptyStore_blankDisk : EmptyStore blankDisk := by
  have hzero : registryOf blankDisk = fun _ => 0 := registryOf_blankDisk
  intro slot _
  rw [hzero]
  exact ⟨rfl, rfl⟩

/-- An install that is cut off after 18 writes, and the next one. -/
theorem registry_names_unique_demo :
    EmptyStore blankDisk ∧ Synced .boot blankDisk ∧
    WellNamed (registryOf ((Command.program .boot (.recv demoPackage)).eval
      (crashAfter 18 (Command.program .boot (.recv demoPackage)) blankDisk)).2) :=
  ⟨emptyStore_blankDisk, synced_boot _, (registry_names_unique emptyStore_blankDisk (synced_boot _)
    (.completes (c := .recv demoPackage) (.crashes 18 .start trivial) trivial)).1⟩

end

end Dezh.NameUniqueness

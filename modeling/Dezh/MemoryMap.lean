import Mathlib.Data.List.Basic
import Mathlib.Data.Set.Card
import Mathlib.Order.CompletePartialOrder
import Mathlib.Order.Interval.Finset.Nat
import Mathlib.Order.Interval.Set.Disjoint

/-!
# The memory map of the boot plan

`validate_memory_map` sorts the regions by their starts and compares neighbours;
`plan_boot` adds up the lengths of the usable ones. Numbers are words of 64 bits.
-/
namespace Dezh.MemoryMap

inductive MemoryKind where
  | usable | reserved | bootloader | kernel | framebuffer | mmio
  deriving DecidableEq, Repr

structure MemoryRegion where
  start : ℕ
  len : ℕ
  kind : MemoryKind
  deriving DecidableEq, Repr

inductive KernelCapability where
  | allocateFrames | mapAddressSpace | startService | sendIpc | openVirtioDevice | openCairnRoot
  | openWasmRuntime
  deriving DecidableEq, Repr

structure CapabilitySeed where
  service : String
  capability : KernelCapability
  deriving DecidableEq, Repr

inductive ServiceKind where
  | init | cairn | wasmRuntime | virtioBlock | virtioNet
  deriving DecidableEq, Repr

structure ServiceSpec where
  name : String
  kind : ServiceKind
  requiredCaps : List KernelCapability
  deriving DecidableEq, Repr

inductive BootTarget where
  | qemuVirtioX86 | qemuVirtioRiscV
  deriving DecidableEq, Repr

structure DiskLayout where
  markerSector : ℕ
  cairnCurrentSector : ℕ
  cairnPreviousSector : ℕ
  rootMetadataSector : ℕ
  rootMetadataSectors : ℕ

structure InstallManifest where
  version : ℕ
  target : BootTarget
  rootService : String
  blockService : String
  layout : DiskLayout

structure BootInfo where
  target : BootTarget
  memory : List MemoryRegion
  initServices : List ServiceSpec
  capabilitySeeds : List CapabilitySeed
  installManifest : InstallManifest

structure KernelPlan where
  target : BootTarget
  usableBytes : ℕ
  services : List ServiceSpec
  capabilitySeeds : List CapabilitySeed
  installManifest : InstallManifest

inductive BootError where
  | emptyMemoryMap | emptyRegion | regionOverflow | overlappingRegions | noUsableMemory
  | missingInitService
  | missingRequiredCapability (service : String) (capability : KernelCapability)
  | ambientCapabilitySeed | missingInstallService | invalidInstallTarget | invalidRootStorage
  deriving DecidableEq, Repr

structure Span where
  start : ℕ
  stop : ℕ
  kind : MemoryKind

def MemoryRegion.stop (r : MemoryRegion) : Option ℕ :=
  if r.start + r.len < 2 ^ 64 then some (r.start + r.len) else none

def normalize : List MemoryRegion → Except BootError (List Span)
  | [] => .ok []
  | r :: rest =>
    if r.len = 0 then .error .emptyRegion
    else
      match r.stop with
      | none => .error .regionOverflow
      | some stop => (normalize rest).map (⟨r.start, stop, r.kind⟩ :: ·)

/-- Whether a usable region was seen. -/
def scan : Option ℕ → Bool → List Span → Except BootError Bool
  | _, hasUsable, [] => .ok hasUsable
  | previousEnd, hasUsable, s :: rest =>
    if previousEnd.any (s.start < ·) then .error .overlappingRegions
    else scan (some s.stop) (hasUsable || s.kind = .usable) rest

def sortByStart (l : List Span) : List Span := l.mergeSort fun a b => a.start ≤ b.start

def validateMemoryMap (regions : List MemoryRegion) : Except BootError Unit :=
  if regions = [] then .error .emptyMemoryMap
  else do
    let normalized ← normalize regions
    let hasUsable ← scan none false (sortByStart normalized)
    if hasUsable then .ok () else .error .noUsableMemory

def validateServices (services : List ServiceSpec) (seeds : List CapabilitySeed) :
    Except BootError Unit :=
  if ¬ services.any (·.kind = .init) then .error .missingInitService
  else if seeds.any fun seed => ¬ services.any (·.name = seed.service) then
    .error .ambientCapabilitySeed
  else
    let required := services.flatMap fun s => s.requiredCaps.map fun cap => (s.name, cap)
    match required.find? fun r => ¬ seeds.any fun seed => seed.service = r.1 ∧ seed.capability = r.2 with
    | some (service, capability) => .error (.missingRequiredCapability service capability)
    | none => .ok ()

def validateInstallManifest (manifest : InstallManifest) (services : List ServiceSpec)
    (target : BootTarget) : Except BootError Unit :=
  let layout := manifest.layout
  if manifest.target ≠ target then .error .invalidInstallTarget
  else if ¬ services.any (·.name = manifest.rootService) ∨
      ¬ services.any (·.name = manifest.blockService) then .error .missingInstallService
  else if layout.rootMetadataSectors = 0 ∨ layout.markerSector = layout.cairnCurrentSector ∨
      layout.markerSector = layout.cairnPreviousSector ∨
      layout.markerSector = layout.rootMetadataSector ∨
      layout.cairnCurrentSector = layout.cairnPreviousSector ∨
      layout.rootMetadataSector ≤ layout.cairnPreviousSector then .error .invalidRootStorage
  else .ok ()

def usableLens (memory : List MemoryRegion) : List ℕ :=
  (memory.filter (·.kind = .usable)).map MemoryRegion.len

def planBoot (info : BootInfo) : Except BootError KernelPlan := do
  validateMemoryMap info.memory
  validateServices info.initServices info.capabilitySeeds
  validateInstallManifest info.installManifest info.initServices info.target
  pure ⟨info.target, (usableLens info.memory).foldl (fun sum len => (sum + len) % 2 ^ 64) 0,
    info.initServices, info.capabilitySeeds, info.installManifest⟩

theorem bind_ok {α β : Type} (a : α) (f : α → Except BootError β) :
    ((Except.ok a : Except BootError α) >>= f) = f a :=
  rfl

section
variable {l : List Span} {regions : List MemoryRegion}

def MemoryRegion.addresses (r : MemoryRegion) : Set ℕ := Set.Ico r.start (r.start + r.len)

/-- A region that is not empty and ends within the words. -/
def MemoryRegion.Fits (r : MemoryRegion) : Prop := 0 < r.len ∧ r.start + r.len < 2 ^ 64

def MemoryRegion.span (r : MemoryRegion) : Span := ⟨r.start, r.start + r.len, r.kind⟩

theorem normalize_iff :
    normalize regions = .ok l ↔ (∀ r ∈ regions, r.Fits) ∧ l = regions.map MemoryRegion.span := by
  induction regions generalizing l with
  | nil => simp [normalize, eq_comm]
  | cons r rest ih =>
    rw [normalize, List.forall_mem_cons, MemoryRegion.Fits, MemoryRegion.stop]
    by_cases hlen : r.len = 0
    · simp [hlen]
    · by_cases hend : r.start + r.len < 2 ^ 64
      · rw [if_neg hlen, if_pos hend]
        cases hrest : normalize rest with
        | error e =>
          rw [hrest] at ih
          have hnot : ¬ ∀ r ∈ rest, r.Fits := fun hall => nomatch ih.mpr ⟨hall, rfl⟩
          simp only [Except.map, reduceCtorEq, hnot, and_false, false_and]
        | ok l' =>
          obtain ⟨hall, rfl⟩ := ih.mp hrest
          have hpos := Nat.pos_of_ne_zero hlen
          simp only [Except.map, Except.ok.injEq, hpos, hend, and_self, true_and]
          exact ⟨fun h => ⟨hall, h.symm⟩, fun h => h.2.symm⟩
      · rw [if_neg hlen, if_neg hend]
        simp only [hend, reduceCtorEq, and_false, false_and]

theorem scan_iff {prev : Option ℕ} {u b : Bool} (hl : ∀ s ∈ l, s.start ≤ s.stop) :
    scan prev u l = .ok b ↔ (l.Pairwise fun s t => s.stop ≤ t.start) ∧
      (∀ p ∈ prev, ∀ s ∈ l, p ≤ s.start) ∧ b = (u || l.any (·.kind = .usable)) := by
  induction l generalizing prev u with
  | nil => simp [scan, eq_comm]
  | cons s l ih =>
    have hs := hl s List.mem_cons_self
    have hrest := @ih (some s.stop) (u || s.kind = .usable)
      fun t ht => hl t (List.mem_cons_of_mem s ht)
    rw [scan, List.pairwise_cons, List.any_cons, ← Bool.or_assoc]
    cases prev with
    | none =>
      simp only [Option.any_none, Bool.false_eq_true, if_false, hrest, Option.mem_some_iff,
        forall_eq']
      exact ⟨fun h => ⟨⟨h.2.1, h.1⟩, nofun, h.2.2⟩, fun h => ⟨h.1.2, h.1.1, h.2.2⟩⟩
    | some p =>
      simp only [Option.any_some, decide_eq_true_eq, Option.mem_some_iff, forall_eq',
        List.forall_mem_cons]
      by_cases hover : s.start < p
      · simp only [if_pos hover, reduceCtorEq, Nat.not_le.mpr hover, false_and, and_false]
      · simp only [if_neg hover, hrest, Option.mem_some_iff, forall_eq', Nat.le_of_not_lt hover,
          true_and]
        constructor
        · rintro ⟨hpair, hnext, hb⟩
          exact ⟨⟨hnext, hpair⟩, fun t ht => (Nat.le_of_not_lt hover).trans (hs.trans (hnext t ht)), hb⟩
        · rintro ⟨⟨hnext, hpair⟩, -, hb⟩
          exact ⟨hpair, hnext, hb⟩

theorem sorted_sortByStart (l : List Span) :
    (sortByStart l).Pairwise fun a b => a.start ≤ b.start := by
  have hsorted := @List.pairwise_mergeSort Span (fun a b => decide (a.start ≤ b.start))
    (fun a b c => by simpa using Nat.le_trans) (fun a b => by simpa using Nat.le_total _ _) l
  simpa [sortByStart] using hsorted

/-- Between nonempty spans in the order of their starts, being disjoint is to end before
the other starts. -/
theorem disjoint_iff {a b : Span} (hab : a.start ≤ b.start) (hb : b.start < b.stop) :
       a.stop ≤ b.start ↔ Disjoint (Set.Ico a.start a.stop) (Set.Ico b.start b.stop) := by
  rw [Set.Ico_disjoint_Ico, min_le_iff, max_eq_right hab]
  omega

theorem pairwise_sortByStart (hl : ∀ s ∈ l, s.start < s.stop) :
    ((sortByStart l).Pairwise fun s t => s.stop ≤ t.start) ↔
      l.Pairwise fun s t => Disjoint (Set.Ico s.start s.stop) (Set.Ico t.start t.stop) := by
  have hperm : (sortByStart l).Perm l := List.mergeSort_perm l _
  rw [← hperm.pairwise_iff fun h => h.symm]
  have hmem : ∀ s ∈ sortByStart l, s.start < s.stop := fun s hs => hl s (hperm.mem_iff.mp hs)
  constructor
  · intro h
    refine (h.and (sorted_sortByStart l)).imp_of_mem fun _ hb hab => ?_
    exact (disjoint_iff hab.2 (hmem _ hb)).mp hab.1
  · intro h
    refine (h.and (sorted_sortByStart l)).imp_of_mem fun _ hb hab => ?_
    exact (disjoint_iff hab.2 (hmem _ hb)).mpr hab.1

end

section
variable {regions : List MemoryRegion}

theorem validateMemoryMap_iff : validateMemoryMap regions = .ok () ↔
    regions ≠ [] ∧ (∀ r ∈ regions, r.Fits) ∧
      (regions.Pairwise fun r s => Disjoint r.addresses s.addresses) ∧
      ∃ r ∈ regions, r.kind = .usable := by
  unfold validateMemoryMap
  by_cases hne : regions = []
  · simp [hne]
  · rw [if_neg hne]
    by_cases hfits : ∀ r ∈ regions, r.Fits
    · have hspans : ∀ s ∈ regions.map MemoryRegion.span, s.start < s.stop := by
        intro s hs
        obtain ⟨r, hr, rfl⟩ := List.mem_map.mp hs
        exact Nat.lt_add_of_pos_right (hfits r hr).1
      have hperm : (sortByStart (regions.map MemoryRegion.span)).Perm _ := List.mergeSort_perm _ _
      have hscan (b : Bool) : scan none false _ = .ok b ↔ _ := scan_iff
        fun s hs => (hspans s (hperm.mem_iff.mp hs)).le
      have hany : (sortByStart (regions.map MemoryRegion.span)).any (·.kind = .usable) = true ↔
          ∃ r ∈ regions, r.kind = .usable := by
        rw [hperm.any_eq]
        simp only [List.any_map, List.any_eq_true, Function.comp_apply, MemoryRegion.span]
        exact exists_congr fun r => and_congr_right fun _ => decide_eq_true_iff
      rw [normalize_iff.mpr ⟨hfits, rfl⟩]
      simp only [pairwise_sortByStart hspans, List.pairwise_map, Option.not_mem_none,
        false_imp_iff, implies_true, true_and, Bool.false_or] at hscan
      rw [← hany, bind_ok]
      cases hs : scan none false (sortByStart (regions.map MemoryRegion.span)) with
      | error e =>
        refine iff_of_false nofun fun h => ?_
        have hok := hs.symm.trans ((hscan _).mpr ⟨h.2.2.1, rfl⟩)
        contradiction
      | ok b =>
        obtain ⟨hdisjoint, rfl⟩ := (hscan b).mp hs
        rw [bind_ok]
        cases (sortByStart (regions.map MemoryRegion.span)).any (·.kind = .usable) with
        | false => simp
        | true => simpa using ⟨hne, hfits, hdisjoint⟩
    · cases hnorm : normalize regions with
      | error e => exact iff_of_false nofun fun h => hfits h.2.1
      | ok l => exact absurd (normalize_iff.mp hnorm).1 hfits

/-- The bytes that usable regions cover. -/
def usableBytes (memory : List MemoryRegion) : Set ℕ :=
  {x | ∃ r ∈ memory, r.kind = .usable ∧ x ∈ r.addresses}

theorem usableBytes_cons {r : MemoryRegion} : usableBytes (r :: regions) =
    (if r.kind = .usable then r.addresses else ∅) ∪ usableBytes regions := by
  ext x
  by_cases hkind : r.kind = .usable <;> simp [usableBytes, hkind]

theorem usableLens_cons {r : MemoryRegion} : (usableLens (r :: regions)).sum =
    (if r.kind = .usable then r.len else 0) + (usableLens regions).sum := by
  by_cases hkind : r.kind = .usable <;> simp [usableLens, hkind]

theorem usableBytes_subset (hfits : ∀ r ∈ regions, r.Fits) :
    usableBytes regions ⊆ Set.Iio (2 ^ 64 - 1) := by
  rintro x ⟨r, hr, -, hx⟩
  have hend := (hfits r hr).2
  exact Set.mem_Iio.mpr (Nat.lt_sub_of_add_lt (lt_of_le_of_lt (Nat.succ_le_of_lt hx.2) hend))

/-- The lengths of disjoint usable regions add up to the number of bytes they cover. -/
theorem ncard_usableBytes (hfits : ∀ r ∈ regions, r.Fits)
    (hdisjoint : regions.Pairwise fun r s => Disjoint r.addresses s.addresses) :
    (usableBytes regions).ncard = (usableLens regions).sum := by
  induction regions with
  | nil => simp [usableBytes, usableLens]
  | cons r rest ih =>
    obtain ⟨hr, hrest⟩ := List.pairwise_cons.mp hdisjoint
    have hfits' := (List.forall_mem_cons.mp hfits).2
    have hfinite : (usableBytes rest).Finite := (Set.finite_Iio _).subset (usableBytes_subset hfits')
    rw [usableBytes_cons, usableLens_cons]
    by_cases hkind : r.kind = .usable
    · have hoff : Disjoint r.addresses (usableBytes rest) := by
        rw [Set.disjoint_right]
        rintro x ⟨s, hs, -, hx⟩
        exact Set.disjoint_right.mp (hr s hs) hx
      have hlen : r.addresses.ncard = r.len := by
        rw [MemoryRegion.addresses, ← Finset.coe_Ico, Set.ncard_coe_finset, Nat.card_Ico,
          Nat.add_sub_cancel_left]
      rw [if_pos hkind, if_pos hkind, Set.ncard_union_eq hoff (Set.finite_Ico _ _) hfinite, hlen,
        ih hfits' hrest]
    · rw [if_neg hkind, if_neg hkind, Set.empty_union, Nat.zero_add, ih hfits' hrest]

theorem sum_usableLens_lt (hfits : ∀ r ∈ regions, r.Fits)
    (hdisjoint : regions.Pairwise fun r s => Disjoint r.addresses s.addresses) :
    (usableLens regions).sum < 2 ^ 64 := by
  have hle := Set.ncard_le_ncard (usableBytes_subset hfits) (Set.finite_Iio _)
  rw [ncard_usableBytes hfits hdisjoint, ← Finset.coe_Iio, Set.ncard_coe_finset, Nat.card_Iio] at hle
  omega

theorem foldl_wrapping (l : List ℕ) (n : ℕ) :
    l.foldl (fun sum len => (sum + len) % 2 ^ 64) (n % 2 ^ 64) = (n + l.sum) % 2 ^ 64 := by
  induction l generalizing n with
  | nil => rfl
  | cons len l ih =>
    rw [List.foldl_cons, Nat.mod_add_mod, ih, List.sum_cons, Nat.add_assoc]

theorem planBoot_ok {info : BootInfo} {plan : KernelPlan} (h : planBoot info = .ok plan) :
    validateMemoryMap info.memory = .ok () ∧
      plan.usableBytes = (usableLens info.memory).sum % 2 ^ 64 := by
  unfold planBoot at h
  cases hmap : validateMemoryMap info.memory with
  | error e => rw [hmap] at h; contradiction
  | ok _ =>
    rw [hmap, bind_ok] at h
    cases hservices : validateServices info.initServices info.capabilitySeeds with
    | error e => rw [hservices] at h; contradiction
    | ok _ =>
      rw [hservices, bind_ok] at h
      cases hinstall : validateInstallManifest info.installManifest info.initServices info.target with
      | error e => rw [hinstall] at h; contradiction
      | ok _ =>
        rw [hinstall, bind_ok] at h
        obtain rfl := Except.ok.inj h
        exact ⟨rfl, by simpa using foldl_wrapping (usableLens info.memory) 0⟩

/-- Validation accepts exactly the nonempty maps of nonempty, pairwise disjoint regions that
end within the words and have a usable one among them. The total of a plan is added up
without leaving the words and is the size of the union of the usable regions. -/
theorem memory_map_exact (regions : List MemoryRegion) (info : BootInfo) :
    (validateMemoryMap regions = .ok () ↔
      regions ≠ [] ∧ (∀ r ∈ regions, 0 < r.len ∧ r.start + r.len < 2 ^ 64) ∧
        (regions.Pairwise fun r s => Disjoint r.addresses s.addresses) ∧
        ∃ r ∈ regions, r.kind = .usable) ∧
      ∀ plan, planBoot info = .ok plan → (usableLens info.memory).sum < 2 ^ 64 ∧
        plan.usableBytes = (usableLens info.memory).sum ∧
        plan.usableBytes = (usableBytes info.memory).ncard := by
  refine ⟨validateMemoryMap_iff, fun plan hplan => ?_⟩
  obtain ⟨hvalid, htotal⟩ := planBoot_ok hplan
  obtain ⟨-, hfits, hdisjoint, -⟩ := validateMemoryMap_iff.mp hvalid
  have hlt := sum_usableLens_lt hfits hdisjoint
  rw [Nat.mod_eq_of_lt hlt] at htotal
  exact ⟨hlt, htotal, htotal.trans (ncard_usableBytes hfits hdisjoint).symm⟩

/-- A plan over two usable regions that touch, given in the wrong order. -/
theorem memory_map_exact_touching :
    let info : BootInfo := ⟨.qemuVirtioRiscV, [⟨4096, 512, .usable⟩, ⟨0, 4096, .usable⟩],
      [⟨"cairn", .init, []⟩], [], ⟨0, .qemuVirtioRiscV, "cairn", "cairn", ⟨0, 2, 3, 4, 4⟩⟩⟩
    ∃ plan, planBoot info = .ok plan ∧ (usableBytes info.memory).ncard = 4608 := by
  intro info
  have hmap : validateMemoryMap info.memory = .ok () := by
    refine (memory_map_exact info.memory info).1.mpr ⟨by decide, by decide, ?_, by decide⟩
    simpa [info, MemoryRegion.addresses, Set.disjoint_left] using fun a ha _ => ha
  have hplan : planBoot info = .ok ⟨.qemuVirtioRiscV, 4608, info.initServices,
      info.capabilitySeeds, info.installManifest⟩ := by
    rw [planBoot, hmap]
    rfl
  exact ⟨_, hplan, ((memory_map_exact info.memory info).2 _ hplan).2.2.symm⟩

end

/-! ### The layout of an install -/

/-- The marker, the two Cairn sectors and the root metadata. -/
def DiskLayout.areas (layout : DiskLayout) : List (Set ℕ) :=
  [{layout.markerSector}, {layout.cairnCurrentSector}, {layout.cairnPreviousSector},
    Set.Ico layout.rootMetadataSector (layout.rootMetadataSector + layout.rootMetadataSectors)]

/-- The areas of an accepted layout are apart, within 64-bit sector numbers, exactly if the
marker and the current Cairn sector are not among the root metadata and its end is no more
than `2 ^ 64`. The check compares them with its first sector, or not at all. -/
theorem install_layout_apart (manifest : InstallManifest) (services : List ServiceSpec)
    (target : BootTarget) (h : validateInstallManifest manifest services target = .ok ()) :
    let layout := manifest.layout
    let stop := layout.rootMetadataSector + layout.rootMetadataSectors
    layout.areas.Pairwise Disjoint ∧ stop ≤ 2 ^ 64 ↔
      (layout.markerSector < layout.rootMetadataSector ∨ stop ≤ layout.markerSector) ∧
      (layout.cairnCurrentSector < layout.rootMetadataSector ∨
        stop ≤ layout.cairnCurrentSector) ∧ stop ≤ 2 ^ 64 := by
  unfold validateInstallManifest at h
  dsimp only at h ⊢
  split_ifs at h with htarget hservices hlayout
  simp only [DiskLayout.areas, List.pairwise_cons, List.mem_cons, List.not_mem_nil, or_false,
    forall_eq_or_imp, forall_eq, Set.disjoint_singleton_left, Set.mem_singleton_iff, Set.mem_Ico,
    List.Pairwise.nil, IsEmpty.forall_iff, implies_true, and_true]
  omega

/-- The layout of the first disk image. -/
theorem install_layout_apart_first :
    let manifest : InstallManifest := ⟨0, .qemuVirtioRiscV, "cairn", "cairn", ⟨0, 2, 3, 4, 4⟩⟩
    validateInstallManifest manifest [⟨"cairn", .init, []⟩] .qemuVirtioRiscV = .ok () ∧
      manifest.layout.areas.Pairwise Disjoint := by
  have hvalid : validateInstallManifest ⟨0, .qemuVirtioRiscV, "cairn", "cairn", ⟨0, 2, 3, 4, 4⟩⟩
      [⟨"cairn", .init, []⟩] .qemuVirtioRiscV = .ok () := by decide
  exact ⟨hvalid, ((install_layout_apart _ _ _ hvalid).mpr (by decide)).1⟩

/-- The current Cairn sector is the second sector of the root metadata. -/
theorem install_layout_overlaps :
    let manifest : InstallManifest := ⟨0, .qemuVirtioRiscV, "cairn", "cairn", ⟨0, 3, 1, 2, 4⟩⟩
    validateInstallManifest manifest [⟨"cairn", .init, []⟩] .qemuVirtioRiscV = .ok () ∧
      ¬ manifest.layout.areas.Pairwise Disjoint := by
  refine ⟨by decide, ?_⟩
  simp [DiskLayout.areas]

end Dezh.MemoryMap

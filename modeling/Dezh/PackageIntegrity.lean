import Dezh.CairnStore
import Dezh.DaemonWalks

/-!
# What a request can do to the package store

The package marker, the registry, the journal and the package blobs are plain
sectors below the Cairn region. The operations of the daemon fall into three
groups: those that write the legacy sectors, those that write the Cairn region, and
the raw write, the store initialisation and the three package writes, which put
bytes of the sender's choice or a fixed text into a sector the sender names. None
of the last group looks at the attested capabilities.
-/
namespace Dezh.PackageIntegrity
open BlockProgram Program ByteLayout CairnFormat CairnService BlockDaemon CairnStore
open DaemonWalks

section
variable {K : Faults} {P : ℕ → Sector → Prop} {d : CairnDisk} {w : Bytes} {sector : ℕ}

theorem emits_access_write (h : P sector (take sectorSize w)) :
    (access w sector true).Emits K P d :=
  (stays_access_write (Q := fun _ => True) h).emits d

theorem emits_answered {p : Program Sector (Answer Status)} (h : p.Emits K P d) :
    (answered p).Emits K P d :=
  h.bind fun _ _ _ => trivial

theorem emits_dispatch (hL : ∀ s b, s ∈ legacySectors → P s b) (hC : ∀ b, P superSector b) {op : Op}
    (hS : appends op = true → ∀ slot b, P (commitFirstSector + slot) b)
    (h : namesSector op = false) (fuel : ℕ) (r : Request) :
    (dispatch fuel op r w).Emits K P d := by
  have hread : ∀ s, (fun _ : ℕ => True) s := fun _ => trivial
  cases hplain : plain op with
  | true =>
    -- a plain operation that names no sector writes the legacy ones
    have hnames : namesSector op = true → ∀ s b, s < superSector → P s b := fun hn =>
      absurd (hn.symm.trans h) Bool.noConfusion
    exact (stays_plain hplain (fun s _ => hread s) hL hnames fuel r).emits d
  | false =>
    cases hstore : isStoreOp op with
    | true => exact (stays_store hC hread hstore hS fuel r).emits d
    | false =>
      cases op with
      | bread => exact (stays_answered (stays_access_read (Q := fun _ => True) trivial)).emits d
      | bwrite => cases h
      | _ => simp_all [plain, isStoreOp]

end

def packageSectors : Set ℕ :=
  {s | s = pkgStoreMarkerSector ∨ ∃ area : PkgArea, area.first ≤ s ∧ s ≤ area.last}

theorem packageSectors_not_legacy {s : ℕ} (h : s ∈ packageSectors) : s ∉ legacySectors := by
  intro hl
  have hs : s ≤ 19 := by
    cases hl with
    | inl hl => omega
    | inr hl => exact hl.2
  cases h with
  | inl h =>
    have : pkgStoreMarkerSector = 24 := rfl
    omega
  | inr h =>
    obtain ⟨area, hfirst, -⟩ := h
    have : 25 ≤ area.first := by cases area <;> decide
    omega

theorem packageSectors_below {s : ℕ} (h : s ∈ packageSectors) : s < superSector := by
  have hsuper : superSector = 1600 := rfl
  cases h with
  | inl h =>
    have : pkgStoreMarkerSector = 24 := rfl
    omega
  | inr h =>
    obtain ⟨area, -, hlast⟩ := h
    have : area.last ≤ 1599 := by cases area <;> decide
    omega

def overwrite (r : Request) (w : Bytes) : Op → Option (ℕ × Sector)
  | .bwrite => some (r.sector, take sectorSize (setData w (ascii "DEZH-DAEMON-BLOCK-OK")))
  | .pkgStoreInit => some (pkgStoreMarkerSector, take sectorSize (setData w pkgStoreMarker))
  | .pkgWrite area =>
    if r.sector < area.first ∨ area.last < r.sector then none
    else some (r.sector, take sectorSize (copyInput w r.input sectorSize))
  | _ => none

/-- The request overwrites a package sector with something else. -/
def Overwrites (d : CairnDisk) (r : Request) (w : Bytes) : Prop :=
  r.wellFormed = true ∧ ∃ op s b, r.op = some op ∧ overwrite r w op = some (s, b) ∧
    s ∈ packageSectors ∧ d s ≠ b

section
variable {d : CairnDisk} {r : Request} {w : Bytes} {fuel : ℕ}

theorem dispatch_of_overwrite {op : Op} {s : ℕ} {b : Sector} (h : overwrite r w op = some (s, b)) :
    ∃ w', b = take sectorSize w' ∧ dispatch fuel op r w = answered (access w' s true) := by
  cases op with
  | bwrite | pkgStoreInit =>
    cases h
    exact ⟨_, rfl, rfl⟩
  | pkgWrite area =>
    dsimp only [overwrite] at h
    split_ifs at h with hr
    cases h
    refine ⟨_, rfl, ?_⟩
    rw [dispatch, pkgWrite, if_neg hr]
  | _ => cases h

theorem emits_dispatch_package (op : Op) {P : ℕ → Sector → Prop}
    (hL : ∀ s b, s ∈ legacySectors → P s b) (hC : ∀ s b, superSector ≤ s → P s b)
    (hO : ∀ s b, overwrite r w op = some (s, b) → P s b) :
    (dispatch fuel op r w).Emits .all P d := by
  cases hn : namesSector op with
  | false =>
    have hfirst : superSector ≤ commitFirstSector := by decide
    exact emits_dispatch hL (fun b => hC _ b (Nat.le_refl _))
      (fun _ slot b => hC _ b (Nat.le_trans hfirst (Nat.le_add_right _ _))) hn fuel r
  | true =>
    cases ho : overwrite r w op with
    | some q =>
      obtain ⟨w', hb, hx⟩ := @dispatch_of_overwrite r w fuel _ _ _ ho
      rw [hx]
      apply emits_answered
      apply emits_access_write
      rw [← hb]
      exact hO _ _ ho
    | none =>
      cases op with
      | pkgWrite area =>
        dsimp only [overwrite] at ho
        split_ifs at ho with hr
        rw [dispatch, pkgWrite, if_pos hr]
        trivial
      | bwrite | pkgStoreInit => cases ho
      | _ => cases hn

theorem serve_eq {op : Op} (hw : r.wellFormed = true) (hop : r.op = some op) :
    serve fuel r w = (dispatch fuel op r w >>= fun a =>
      pure (a.map fun a => ⟨replyWord r.word a.value, a.window⟩)) := by
  rw [serve, if_pos hw, hop]

theorem package_unchanged {a : Option Reply} {d' : CairnDisk} (hno : ¬ Overwrites d r w)
    (he : (serve fuel r w).Exec .all d a d') {s : ℕ} (hs : s ∈ packageSectors) : d' s = d s := by
  have hemits : (serve fuel r w).Emits .all (fun s b => s ∉ packageSectors ∨ d s = b) d := by
    by_cases hw : r.wellFormed = true
    · cases hop : r.op with
      | none =>
        rw [serve, if_pos hw, hop]
        trivial
      | some op =>
        rw [serve_eq hw hop]
        refine (emits_dispatch_package op ?_ ?_ ?_).bind fun _ _ _ => trivial
        · exact fun s b hl => Or.inl fun hp => packageSectors_not_legacy hp hl
        · exact fun s b hc => Or.inl fun hp => absurd (packageSectors_below hp) (by omega)
        · intro s b ho
          by_cases hp : s ∈ packageSectors
          · right
            by_contra hne
            exact hno ⟨hw, op, s, b, hop, ho, hp, hne⟩
          · exact Or.inl hp
    · rw [serve, if_neg hw]
      trivial
  cases hemits.changed he s with
  | inl h => exact h
  | inr h => exact (h.resolve_left fun hn => hn hs).symm

theorem package_changed (h : Overwrites d r w) :
    ∃ s ∈ packageSectors, ((serve fuel r w).eval d).2 s ≠ d s := by
  obtain ⟨hw, op, s, b, hop, ho, hs, hne⟩ := h
  obtain ⟨w', hb, hx⟩ := @dispatch_of_overwrite r w fuel _ _ _ ho
  refine ⟨s, hs, ?_⟩
  rw [serve_eq hw hop, hx]
  change Function.update d s (take sectorSize w') s ≠ d s
  rw [Function.update_self, ← hb]
  exact hne.symm

end

/-- One service step leaves every package sector as it is, whatever fails, exactly
when the request is no overwrite. The capabilities of the sender do not enter. -/
theorem package_integrity_iff (fuel : ℕ) (d : CairnDisk) (w : Bytes) (r : Request) :
    (∀ a d', (serve fuel r w).Exec .all d a d' → ∀ s ∈ packageSectors, d' s = d s) ↔
      ¬ Overwrites d r w := by
  constructor
  · intro h hover
    obtain ⟨s, hs, hne⟩ := @package_changed d r w fuel hover
    exact hne (h _ _ (exec_eval .all _ _) s hs)
  · intro hno a d' he s hs
    exact package_unchanged hno he hs

def taskIpc : ℕ := 1 <<< 2
def taskBlockWrite : ℕ := 1 <<< 5

/-- A registry write by an application with IPC and nothing else; its input window
is empty. -/
def strayRegistryWrite : Request := ⟨typedWord 37 1 0 25, 2, taskIpc, fun _ => 0⟩

def strayBlockWrite : Request := ⟨typedWord 2 1 0 64, 2, taskIpc, fun _ => 0⟩
def strayInit : Request := ⟨typedWord 35 1 0 0, 2, taskIpc, fun _ => 0⟩

/-- On a disk of ones the application replaces the first registry sector, the first
blob sector and the store marker. -/
theorem packages_overwritten :
    taskIpc &&& taskBlockWrite = 0 ∧
      {25, 64, pkgStoreMarkerSector} ⊆ packageSectors ∧
      ((serve 0 strayRegistryWrite fun _ => 0).eval fun _ _ => 1).2 25 ≠ (fun _ => 1) ∧
      ((serve 0 strayBlockWrite fun _ => 0).eval fun _ _ => 1).2 64 ≠ (fun _ => 1) ∧
      ((serve 0 strayInit fun _ => 0).eval fun _ _ => 1).2 pkgStoreMarkerSector ≠ fun _ => 1 := by
  have differs : ∀ {s : Sector}, s ⟨0, by decide⟩ ≠ 1 → s ≠ fun _ => 1 :=
    fun hs h => hs (congrFun h _)
  refine ⟨by decide, ?_, differs (by decide), differs (by decide), differs (by decide)⟩
  intro s hs
  rcases hs with rfl | rfl | rfl
  · exact Or.inr ⟨.registry, by decide⟩
  · exact Or.inr ⟨.blob, by decide⟩
  · exact Or.inl rfl

end Dezh.PackageIntegrity

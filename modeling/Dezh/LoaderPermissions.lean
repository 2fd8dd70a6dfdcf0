import Dezh.LoaderTotality

/-!
# Writable or executable

The flags of a page are those of all the segments that reach into it, so one segment that
asks for both permissions, or two that share a page and ask for one each, make it writable
and executable. The stack and the device windows are never executable.
-/
namespace Dezh.Loader
open PageTables PackageFormat

/-- Not writable and executable at once. -/
def Apart (e : ℕ) : Prop := e &&& pteW = 0 ∨ e &&& pteX = 0

instance (e : ℕ) : Decidable (Apart e) := inferInstanceAs (Decidable (_ ∨ _))

theorem apart_pte {page flags : ℕ} : Apart (pte page flags) ↔ Apart flags := by
  have hmask : ∀ mask, mask < 2 ^ 10 → (pteV ||| pteA ||| pteD) &&& mask = 0 →
      pte page flags &&& mask = flags &&& mask := by
    intro mask hlt hnone
    rw [pte, entry_and hlt, Nat.and_or_distrib_right, hnone, Nat.zero_or]
  rw [Apart, hmask pteW (by decide) (by decide), hmask pteX (by decide) (by decide), Apart]

/-- The two addresses are in pages with the same entry: addresses wrap at `2 ^ 39`. -/
def SamePage (va va' : ℕ) : Prop := EntryOf va (vpn2 va') (vpn1 va') (vpn0 va')

theorem spanPage_injective {segs : List Segment} {k k' : ℕ} (hk : k < maxTaskOwnedFrames)
    (hk' : k' < maxTaskOwnedFrames) (h : SamePage (spanPage segs k) (spanPage segs k')) : k = k' := by
  obtain ⟨h2, h1, h0⟩ := h
  have hmask : ∀ x, x &&& 0x1ff = x % 2 ^ 9 := fun x => Nat.and_two_pow_sub_one_eq_mod x 9
  rw [vpn2, vpn2, hmask, hmask, Nat.shiftRight_eq_div_pow, Nat.shiftRight_eq_div_pow] at h2
  rw [vpn1, vpn1, hmask, hmask, Nat.shiftRight_eq_div_pow, Nat.shiftRight_eq_div_pow] at h1
  rw [vpn0, vpn0, hmask, hmask, Nat.shiftRight_eq_div_pow, Nat.shiftRight_eq_div_pow] at h0
  rw [spanPage, spanPage, frameSize] at h2 h1 h0
  rw [maxTaskOwnedFrames] at hk hk'
  omega

section
variable {m : Machine} {spec : ProcessSpec} {s₀ : Start m} {segs : List Segment} {root : ℕ}
  {kind : Kinds} {st : Loading}

/-- A page of the span that nothing is mapped over has a leaf with the flags of its segments. -/
theorem Laid.leaf_span (h : Laid m spec segs s₀ root kind st) {k : ℕ} (hk : k < spanPages segs)
    (hnot : ∀ va, Later m spec va → ¬ SamePage va (spanPage segs k)) :
    ∃ page, Leaf st.mem root (pte page (pageFlags segs (spanPage segs k))) := by
  obtain ⟨z, hpath, hne⟩ := h.span k hk
  have hz : kind z = some (.lower _ _) := hpath.choose_spec.2.1
  obtain ⟨hlt2, hlt1, hlt0⟩ := vpn_lt (spanPage segs k)
  rcases h.words z _ _ hz (vpn0 (spanPage segs k)) with hzero | hleaf | hleaf
  · exact absurd hzero hne
  · obtain ⟨va, page, flags, hentry, -, -, ⟨k', hk', rfl, rfl⟩, hword⟩ := hleaf
    obtain rfl := spanPage_injective (hk'.trans_le h.few) (hk.trans_le h.few) hentry
    refine ⟨page, ?_⟩
    rw [← hword]
    refine h.shape.leaf_path hpath hlt2 hlt1 hlt0 ?_ ?_
    · rw [hword]
      exact valid_entry.mpr (or_and_ne_zero (by decide))
    · rw [hword, pte, isLeaf_entry, Nat.or_comm]
      exact or_and_ne_zero (pageFlags_user segs _).2
  · obtain ⟨va, page, flags, hentry, -, -, ⟨hlater, -⟩, -⟩ := hleaf
    exact absurd hentry (hnot va hlater)

/-- A user leaf is one of the kernel's table, or has the flags of a page of the span that
nothing is mapped over, or those of a data page. -/
theorem Laid.leaf (h : Laid m spec segs s₀ root kind st) {e : ℕ} (he : Leaf st.mem root e)
    (hu : IsUser e) :
    (∃ i < 512, e = s₀.mem m.l1 i) ∨
      (∃ page, ∃ k < spanPages segs, (∀ va, Later m spec va → ¬ SamePage va (spanPage segs k)) ∧
        e = pte page (pageFlags segs (spanPage segs k))) ∨
      ∃ page, e = pte page (pteU ||| pteR ||| pteW) := by
  rcases h.shape.leaf he hu with hl1 | ⟨i, j, l, z, hpath, rfl, hv⟩
  · exact .inl hl1
  have hz : kind z = some (.lower i j) := hpath.choose_spec.2.1
  rcases h.words z i j hz l with hzero | hleaf | hleaf
  · rw [hzero] at hv
    exact absurd hv not_valid_zero
  · obtain ⟨va, page, flags, ⟨rfl, rfl, rfl⟩, -, -, ⟨k, hk, rfl, rfl⟩, hword⟩ := hleaf
    by_cases hover : ∃ va, Later m spec va ∧ SamePage va (spanPage segs k)
    · -- the word is that of the later mapping, at the end of the same path
      obtain ⟨va, hlater, h2, h1, h0⟩ := hover
      obtain ⟨z', hpath', -, page', flags', -, -, -, ⟨-, rfl⟩, hword'⟩ := h.later va hlater
      rw [h2, h1] at hpath'
      rw [h.shape.path_unique hpath hpath', h0] at hword'
      exact .inr (.inr ⟨page', hword'⟩)
    · exact .inr (.inl ⟨page, k, hk, fun va hva hsame => hover ⟨va, hva, hsame⟩, hword⟩)
  · obtain ⟨va, page, flags, -, -, -, ⟨-, rfl⟩, hword⟩ := hleaf
    exact .inr (.inr ⟨page, hword⟩)

end

/-- The image of the program with all permissions for its segment. -/
def Demo.mixed : List UInt8 := (Demo.image 0 0x40).set 68 7

def Demo.unprotected : Outcome × Loading :=
  buildAddressSpace Demo.machine ⟨Demo.mixed, 0, true, false, false, false⟩
    ⟨(Demo.start false).mem, (Demo.start false).free, []⟩

end Dezh.Loader

import Dezh.Capabilities
import Dezh.Histories

/-!
# Named authorities

The console holds a handle for every namespace and for every device, minted from a
capability table on first use. Revoking an object advances its generation in the
table; granting it again mints a new handle. A gate asks whether the handle it
finds is still live.
-/
namespace Dezh.Authority
open Capabilities Histories

variable {n : ℕ}

/-- A capability table with a handle for each of its named objects. -/
structure Holder (n : ℕ) where
  table : CapTable n
  handle : ℕ → Option Cap
  minted : Bool

/-- The number of names and the rights of a handle. -/
structure Profile where
  names : ℕ
  rights : UInt8

namespace Holder
def boot : Holder n := ⟨.new, fun _ => none, false⟩

def authorityInit (p : Profile) (a : Holder n) : Holder n :=
  if a.minted then a
  else { a with
    handle := fun i => if i < p.names then a.table.mint i p.rights else a.handle i
    minted := true }

def authorityOk (p : Profile) (a : Holder n) (object : ℕ) : Bool :=
  ((a.authorityInit p).handle object).map ((a.authorityInit p).table.check · rRead) == some .ok

def revoke (p : Profile) (a : Holder n) (object : ℕ) : Holder n :=
  { a.authorityInit p with table := (a.authorityInit p).table.revoke object }

def grant (p : Profile) (a : Holder n) (object : ℕ) : Holder n :=
  { a.authorityInit p with
    handle := Function.update (a.authorityInit p).handle object
      ((a.authorityInit p).table.mint object p.rights) }

@[simp]
theorem authorityInit_revoke (p : Profile) (a : Holder n) (object : ℕ) :
    (a.revoke p object).authorityInit p = a.revoke p object := by
  by_cases h : a.minted = true
  all_goals simp [revoke, authorityInit, h]

@[simp]
theorem authorityInit_grant (p : Profile) (a : Holder n) (object : ℕ) :
    (a.grant p object).authorityInit p = a.grant p object := by
  by_cases h : a.minted = true
  all_goals simp [grant, authorityInit, h]

end Holder

/-- What happens to the authority over an object. -/
inductive Change where
  | revoke | grant
  deriving DecidableEq, Repr

/-- The object was revoked and not granted again. -/
def Withdrawn (h : List Change) : Prop := Since (· = .revoke) (· = .grant) h

instance (h : List Change) : Decidable (Withdrawn h) :=
  inferInstanceAs (Decidable (Since _ _ h))

@[simp]
theorem withdrawn_revoke (h : List Change) : Withdrawn (h ++ [.revoke]) := by
  simp [Withdrawn, since_concat]

@[simp]
theorem not_withdrawn_grant (h : List Change) : ¬ Withdrawn (h ++ [.grant]) := by
  simp [Withdrawn, since_concat]

/-- The object has a handle, and its generation has advanced since the handle was
minted by some of the revocations in the history, not by none if it is withdrawn. -/
def Holder.Tracks {n : ℕ} (a : Holder n) (p : Profile) (object : ℕ) (h : List Change) : Prop :=
  ∃ lt : object < n, ∃ generation : UInt32, ∃ k ≤ h.count .revoke,
    (a.authorityInit p).handle object = some ⟨object, p.rights, generation⟩ ∧
    (a.authorityInit p).table.generation ⟨object, lt⟩ = generation + .ofNat k ∧
    (Withdrawn h → 0 < k)

section
variable {a : Holder n} {p : Profile} {object : ℕ} {h : List Change}

theorem Holder.tracks_boot (hp : p.names ≤ n) (ho : object < p.names) :
    (Holder.boot : Holder n).Tracks p object [] := by
  have lt : object < n := Nat.lt_of_lt_of_le ho hp
  refine ⟨lt, 1, 0, Nat.le_refl _, ?_, rfl, fun hw => absurd hw not_since_nil⟩
  simp [authorityInit, boot, ho, CapTable.mint, lt, CapTable.new]

section
variable (ht : a.Tracks p object h)
include ht

theorem Holder.Tracks.revoke : (a.revoke p object).Tracks p object (h ++ [.revoke]) := by
  obtain ⟨lt, g, k, hk, hh, hg, -⟩ := ht
  refine ⟨lt, g, k + 1, by simpa using hk, ?_, ?_, fun _ => Nat.succ_pos k⟩
  · rwa [authorityInit_revoke]
  · rw [authorityInit_revoke]
    simp [Holder.revoke, hg, UInt32.add_assoc]

theorem Holder.Tracks.revoke_other {other : ℕ} (hne : object ≠ other) :
    (a.revoke p other).Tracks p object h := by
  obtain ⟨lt, g, k, hk, hh, hg, hw⟩ := ht
  refine ⟨lt, g, k, hk, ?_, ?_, hw⟩
  · rwa [authorityInit_revoke]
  · rw [authorityInit_revoke]
    simp [Holder.revoke, hg, hne]

theorem Holder.Tracks.grant : (a.grant p object).Tracks p object (h ++ [.grant]) := by
  obtain ⟨lt, -⟩ := ht
  refine ⟨lt, (a.authorityInit p).table.generation ⟨object, lt⟩, 0, Nat.zero_le _, ?_, ?_,
    fun hw => absurd hw (not_withdrawn_grant h)⟩
  · rw [authorityInit_grant]
    simp [Holder.grant, CapTable.mint, lt]
  · rw [authorityInit_grant]
    simp [Holder.grant]

theorem Holder.Tracks.grant_other {other : ℕ} (hne : object ≠ other) :
    (a.grant p other).Tracks p object h := by
  obtain ⟨lt, g, k, hk, hh, hg, hw⟩ := ht
  refine ⟨lt, g, k, hk, ?_, ?_, hw⟩
  · rw [authorityInit_grant]
    simpa [Holder.grant, hne] using hh
  · rwa [authorityInit_grant]

theorem Holder.Tracks.not_withdrawn (hfew : h.count .revoke < 2 ^ 32)
    (hok : a.authorityOk p object = true) : ¬ Withdrawn h := by
  obtain ⟨lt, g, k, hk, hh, hg, hw⟩ := ht
  intro hwith
  have hcheck : (a.authorityInit p).table.check ⟨object, p.rights, g⟩ rRead = .ok := by
    simpa [authorityOk, hh] using hok
  obtain ⟨-, -, _, hlive⟩ := CapTable.check_eq_ok.mp hcheck
  have hzero : UInt32.ofNat k = 0 := by
    have heq : g + UInt32.ofNat k = g := hg.symm.trans hlive
    simpa using heq
  have hmod : k % 2 ^ 32 = 0 := by
    simpa [← UInt32.toNat_inj] using hzero
  have hpos := hw hwith
  omega

end

end

/-! ### The two holders of the console -/

def nsProfile : Profile := ⟨5, rRead ||| rWrite ||| rDelegate⟩

def devProfile : Profile := ⟨2, rRead ||| rWrite⟩

def devObjNet : ℕ := 1

abbrev NsHolder := Holder 8
abbrev DevHolder := Holder 4

namespace NsHolder

def nsAuthorityOk (a : NsHolder) (ns : ℕ) : Bool := a.authorityOk nsProfile ns
def nsRevoke (a : NsHolder) (ns : ℕ) : NsHolder := a.revoke nsProfile ns
def nsGrant (a : NsHolder) (ns : ℕ) : NsHolder := a.grant nsProfile ns

end NsHolder

namespace DevHolder

def devAuthorityOk (a : DevHolder) (object : ℕ) : Bool := a.authorityOk devProfile object

def devAuthoritySet (a : DevHolder) (object : ℕ) (grant : Bool) : DevHolder :=
  if grant then a.grant devProfile object else a.revoke devProfile object

end DevHolder

end Dezh.Authority

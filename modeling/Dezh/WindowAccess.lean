import Dezh.RequestTermination
import Dezh.ValueRoundTrip

/-!
# Accesses stay in the data window

The daemon's data window is 512 bytes of the device memory. Behind it stand the status
byte that the device writes for every access, and then other memory. An operation stays
in the window if it leaves every byte behind the status byte alone and does not depend on
any of them: started from two memories that agree on the window it makes the same
accesses, writes the same blocks and gives the same answer. The same goes for the input
window of a request. The copy of a read of a namespace must also take its bytes from the
window; it is as long as the record says, and stays in the window exactly for records of
at most 448 bytes.
-/
namespace Dezh.WindowAccess
open BlockProgram Program ByteLayout CairnFormat CairnService SfarService CairnStore
open BlockDaemon DaemonWalks RequestTermination ValueRoundTrip NamespaceSecrets
open StorageStatus

variable {w₀ v₀ w v : Bytes} {ns : ℕ} {s t : Staging}

/-! ### Two memories with one window -/

/-- The memories `w` and `v` agree on the window, and behind the status byte they are
still `w₀` and `v₀`. -/
structure Twin (w₀ v₀ w v : Bytes) : Prop where
  inside : ∀ i < sectorSize, w i = v i
  left : ∀ i, sectorSize < i → w i = w₀ i
  right : ∀ i, sectorSize < i → v i = v₀ i

theorem Twin.start {w v : Bytes} (h : ∀ i < sectorSize, w i = v i) : Twin w v w v :=
  ⟨h, fun _ _ => rfl, fun _ _ => rfl⟩

theorem entry_le {ns field : ℕ} (hns : ns < nsMax) (hfield : field ≤ 28) :
    nsEntryOff ns + field + 4 ≤ sectorSize := by
  simp only [nsMax, nsEntryOff, sectorSize] at *
  omega

namespace Twin
variable {o n : ℕ}

/-! What is read in the window is the same in both. -/

section
variable (h : Twin w₀ v₀ w v)
include h

theorem take_eq : take sectorSize w = take sectorSize v :=
  take_congr h.inside

theorem u32At_eq (ho : o + 4 ≤ sectorSize) : u32At w o = u32At v o :=
  u32At_congr fun i _ hi => h.inside i (by omega)

theorem u64At_eq (ho : o + 8 ≤ sectorSize) : u64At w o = u64At v o :=
  u64At_congr fun i _ hi => h.inside i (by omega)

theorem toList_eq (ho : o + n ≤ sectorSize) : toList w o n = toList v o n :=
  toList_congr fun i hi => h.inside (o + i) (by omega)

theorem startsWith_eq {s : List UInt8} (hs : s.length ≤ sectorSize) :
    startsWith w s = startsWith v s :=
  startsWith_congr fun i hi => h.inside i (by omega)

theorem isCommit_eq : isCommit w = isCommit v :=
  h.startsWith_eq (by decide)

theorem header_eq : header w = header v :=
  header_congr fun i hi => h.inside i (Nat.lt_of_lt_of_le hi (by decide))

theorem head_eq (hns : ns < nsMax) :
    u32At w (nsEntryOff ns + nsOffHead) = u32At v (nsEntryOff ns + nsOffHead) :=
  h.u32At_eq (entry_le hns (by decide))

theorem heads_eq : ∀ ns < nsMax, heads w ns = heads v ns :=
  fun _ hns => h.head_eq hns

theorem count_eq (hns : ns < nsMax) :
    u32At w (nsEntryOff ns + nsOffCount) = u32At v (nsEntryOff ns + nsOffCount) :=
  h.u32At_eq (entry_le hns (by decide))

theorem ofMission_eq (ahd : UInt32) : ofMission ahd w = ofMission ahd v := by
  rw [ofMission, ofMission, h.u32At_eq (by decide)]

theorem extractCompensation_eq (cap : ℕ) :
    extractCompensation w cap = extractCompensation v cap := by
  have hlen : u32At w offLen = u32At v offLen := h.u32At_eq (by decide)
  have hvalue : toList w valueOff (min (u32At v offLen) valueMax) =
      toList v valueOff (min (u32At v offLen) valueMax) := by
    refine h.toList_eq ?_
    simp only [valueOff, valueMax, sectorSize]
    omega
  unfold extractCompensation
  simp only [hlen, hvalue]

end

/-! What is written in the window keeps them twins. -/

section
variable (h : Twin w₀ v₀ w v)
include h

theorem load (s : Sector) : Twin w₀ v₀ (ByteLayout.load w s) (ByteLayout.load v s) where
  inside i hi := by rw [load_of_lt hi, load_of_lt hi]
  left i hi := (load_of_gt hi).trans (h.left i hi)
  right i hi := (load_of_gt hi).trans (h.right i hi)

theorem update {w' v' : Bytes} (hin : ∀ i < sectorSize, w' i = v' i)
    (hw : ∀ i, sectorSize < i → w' i = w i) (hv : ∀ i, sectorSize < i → v' i = v i) :
    Twin w₀ v₀ w' v' where
  inside := hin
  left i hi := (hw i hi).trans (h.left i hi)
  right i hi := (hv i hi).trans (h.right i hi)

theorem reported (ok : Bool) :
    Twin w₀ v₀ (CairnService.reported w ok) (CairnService.reported v ok) := by
  refine h.update (fun i hi => ?_) (fun i hi => reported_of_ne (by omega))
    fun i hi => reported_of_ne (by omega)
  rw [reported_of_ne (by omega), reported_of_ne (by omega), h.inside i hi]

theorem putU32 (x : ℕ) (ho : o + 4 ≤ sectorSize) :
    Twin w₀ v₀ (ByteLayout.putU32 w o x) (ByteLayout.putU32 v o x) :=
  h.update (putU32_congr h.inside) (fun _ hi => putU32_of_outside (by omega))
    fun _ hi => putU32_of_outside (by omega)

theorem putU8 (x : UInt8) (ho : o < sectorSize) :
    Twin w₀ v₀ (ByteLayout.putU8 w o x) (ByteLayout.putU8 v o x) := by
  refine h.update (fun i hi => ?_) (fun _ hi => putU8_of_ne (by omega))
    fun _ hi => putU8_of_ne (by omega)
  simp only [ByteLayout.putU8, h.inside i hi]

theorem copy {src src' : Bytes} (hsrc : ∀ i < n, src i = src' i) (ho : o + n ≤ sectorSize) :
    Twin w₀ v₀ (ByteLayout.copy w o src n) (ByteLayout.copy v o src' n) := by
  refine h.update (fun i hi => ?_) (fun _ hi => copy_of_outside (by omega))
    fun _ hi => copy_of_outside (by omega)
  unfold ByteLayout.copy
  split
  · exact hsrc _ (by omega)
  · exact h.inside i hi

theorem zeroFill :
    Twin w₀ v₀ (ByteLayout.zeroFill w sectorSize) (ByteLayout.zeroFill v sectorSize) :=
  h.update (fun _ hi => (zeroFill_of_lt hi).trans (zeroFill_of_lt hi).symm)
    (fun _ hi => zeroFill_of_le hi.le) fun _ hi => zeroFill_of_le hi.le

theorem setData (s : List UInt8) : Twin w₀ v₀ (CairnFormat.setData w s) (CairnFormat.setData v s) :=
  h.zeroFill.copy (fun _ _ => rfl) (by simp only [sectorSize]; omega)

theorem formatEntry (hns : ns < nsMax) :
    Twin w₀ v₀ (CairnFormat.formatEntry w ns) (CairnFormat.formatEntry v ns) :=
  h.update (formatEntry_congr h.inside ns) (fun _ hi => formatEntry_of_le hns hi.le)
    fun _ hi => formatEntry_of_le hns hi.le

end

theorem foldl {g : Bytes → ℕ → Bytes} {l : List ℕ}
    (hg : ∀ w v, Twin w₀ v₀ w v → ∀ ns ∈ l, Twin w₀ v₀ (g w ns) (g v ns))
    (h : Twin w₀ v₀ w v) : Twin w₀ v₀ (l.foldl g w) (l.foldl g v) := by
  induction l generalizing w v with
  | nil => exact h
  | cons ns l ih =>
    exact ih (fun w v h m hm => hg w v h m (List.mem_cons_of_mem ns hm))
      (hg w v h ns List.mem_cons_self)

section
variable (h : Twin w₀ v₀ w v)
include h

theorem formatSuper : Twin w₀ v₀ (CairnFormat.formatSuper w) (CairnFormat.formatSuper v) := by
  unfold CairnFormat.formatSuper
  refine foldl (fun _ _ h ns hns => h.formatEntry (List.mem_range.mp hns)) ?_
  exact (h.zeroFill.setData superMagic).putU32 0 (by decide)

theorem encode (c : CommitHeader) : Twin w₀ v₀ (c.encode w) (c.encode v) := by
  unfold CommitHeader.encode
  iterate 4 refine putU8 ?_ _ (by decide)
  iterate 10 refine putU32 ?_ _ (by decide)
  exact h.copy (fun _ _ => rfl) (by decide)

theorem buildCommit (c : CommitHeader) {value value' : Bytes}
    (hvalue : ∀ i < n, value i = value' i) (hn : n ≤ valueMax) :
    Twin w₀ v₀ (CairnService.buildCommit w c value n) (CairnService.buildCommit v c value' n) :=
  (h.zeroFill.encode c).copy hvalue (by simp only [valueOff, valueMax, sectorSize] at *; omega)

theorem rawCommit (slot parent ns : ℕ) (value : List UInt8)
    (actor intent derived : ℕ) (status : UInt8) (generation : ℕ) :
    Twin w₀ v₀ (SfarService.rawCommit w slot parent ns value actor intent derived status generation)
      (SfarService.rawCommit v slot parent ns value actor intent derived status generation) := by
  refine copy ?_ (fun _ _ => rfl) ?_
  · iterate 4 refine putU8 ?_ _ (by decide)
    iterate 5 refine putU32 ?_ _ (by decide)
    exact ((((h.zeroFill.setData commitMagic).putU32 _ (by decide)).putU32 _ (by decide)).putU32 _
      (by decide)).putU32 _ (by decide) |>.putU32 _ (by decide)
  · simp only [valueOff, valueMax, sectorSize]
    omega

end

end Twin

/-! ### The namespace operations -/

/-- The same result, with twin windows. -/
def SameAnswer {A : Type} (w₀ v₀ : Bytes) (a b : Answer A) : Prop :=
  a.value = b.value ∧ Twin w₀ v₀ a.window b.window

/-- The copy of a read takes its bytes from the data window. -/
def CopyInside (a : Answer Status) : Prop :=
  a.value = .ok → valueOff + u32At a.window offLen ≤ sectorSize

section
variable {P : ℕ → Sector → Prop}

/-- The superblock `s` may be used: it is one, or it is read back after a format. -/
def Super (P : ℕ → Sector → Prop) (s : Sector) : Prop :=
  P superSector s ∧ (startsWith (bytes s) superMagic = true ∨
    ∃ t, P superSector t ∧ startsWith (bytes t) superMagic = false)

/-- The block `s` may be delivered as the head record of a namespace. -/
def HeadRecord (P : ℕ → Sector → Prop) (ns : ℕ) (s : Sector) : Prop :=
  ∃ t, Super P t ∧ heads (bytes t) ns ≠ noSlot ∧
    P (commitFirstSector + heads (bytes t) ns) s ∧ isCommit (bytes s) = true

section
variable (h : Twin w₀ v₀ w v)
include h

theorem alike_write (sector : ℕ) :
    Alike P (SameAnswer w₀ v₀) (rw w sector true) (rw v sector true) :=
  ⟨rfl, h.take_eq, fun ok => ⟨rfl, h.reported ok⟩⟩

theorem alike_load (sector : ℕ) :
    Alike P (fun a b => SameAnswer w₀ v₀ a b ∧ (a.value = true → ∃ s, P sector s ∧
        a.window = load w s)) (rw w sector false) (rw v sector false) := by
  refine ⟨rfl, fun r hr => ?_⟩
  cases r with
  | none => exact ⟨⟨rfl, h.reported false⟩, fun hv => absurd hv Bool.false_ne_true⟩
  | some s => exact ⟨⟨rfl, h.load s⟩, fun _ => ⟨s, hr s rfl, rfl⟩⟩

theorem alike_read (sector : ℕ) :
    Alike P (SameAnswer w₀ v₀) (rw w sector false) (rw v sector false) :=
  (alike_load h sector).imp fun _ _ hab => hab.1

theorem alike_super :
    Alike P (fun a b => SameAnswer w₀ v₀ a b ∧ (a.value = true → ∃ s w, Super P s ∧
        a.window = load w s)) (cairnLoadSuper w) (cairnLoadSuper v) := by
  refine (alike_load h superSector).bind fun a b hab => ?_
  obtain ⟨hab, hblock⟩ := hab
  rw [← hab.1, ← hab.2.startsWith_eq (by decide)]
  refine .ite (fun hv => ?_) fun _ => ⟨⟨rfl, hab.2⟩, nofun⟩
  obtain ⟨s, hs, hwin⟩ := hblock hv
  rw [show startsWith a.window superMagic = startsWith (bytes s) superMagic from
    hwin ▸ startsWith_congr fun i hi => load_of_lt (Nat.lt_of_lt_of_le hi (by decide))]
  refine .ite (fun hm => ⟨⟨rfl, hab.2⟩, fun _ => ⟨s, _, ⟨hs, .inl hm⟩, hwin⟩⟩) fun hm => ?_
  refine (alike_write hab.2.formatSuper superSector).bind fun c d hcd => ?_
  rw [hcd.1]
  refine .ite (fun _ => (alike_load hcd.2 superSector).imp fun e f hef => ?_)
    fun _ => ⟨⟨rfl, hcd.2⟩, nofun⟩
  refine ⟨hef.1, fun hv => ?_⟩
  obtain ⟨t, ht, hwin⟩ := hef.2 hv
  exact ⟨t, _, ⟨ht, .inr ⟨s, hs, Bool.eq_false_of_not_eq_true hm⟩⟩, hwin⟩

theorem alike_cairnLoadSuper : Alike P (SameAnswer w₀ v₀) (cairnLoadSuper w) (cairnLoadSuper v) :=
  (alike_super h).imp fun _ _ hab => hab.1

theorem alike_gated (caps : ℕ) {k k' : Bytes → Program Sector (Answer Status)}
    {R : Answer Status → Answer Status → Prop}
    (hdenied : ∀ w v, Twin w₀ v₀ w v → R ⟨.denied, w⟩ ⟨.denied, v⟩)
    (hk : cairnNsAllowed ns caps = true → ∀ w v, Twin w₀ v₀ w v → Alike P R (k w) (k' v)) :
    Alike P R (gated ns caps w k) (gated ns caps v k') := by
  have hflag : Alike P (SameAnswer w₀ v₀) (cairnNsRevoked w ns) (cairnNsRevoked v ns) := by
    refine (alike_cairnLoadSuper h).bind fun a b hab => .pure ⟨?_, hab.2⟩
    -- a namespace beyond the table is refused without a look at its entry
    by_cases hns : ns < nsMax
    · simp only [hab.1, hab.2.u32At_eq (entry_le hns (by decide : nsOffRevoked ≤ 28))]
    · simp only [hns, decide_false, Bool.and_false, Bool.false_and]
  refine hflag.bind fun a b hab => ?_
  rw [hab.1]
  refine .ite (fun _ => hdenied _ _ hab.2) fun _ => .ite (fun hc => ?_) fun _ => hdenied _ _ hab.2
  exact hk hc _ _ hab.2

/-- A gated operation that stays in the window if the sender may use the namespace. -/
theorem alike_guarded (caps : ℕ) {k k' : Bytes → Program Sector (Answer Status)}
    (hk : ns < nsMax → ∀ w v, Twin w₀ v₀ w v → Alike P (SameAnswer w₀ v₀) (k w) (k' v)) :
    Alike P (SameAnswer w₀ v₀) (gated ns caps w k) (gated ns caps v k') :=
  alike_gated h caps (fun _ _ h => ⟨rfl, h⟩) fun hc => hk (lt_of_allowed hc).1

theorem alike_cairnNsSetRevoked (revoked : Bool) :
    Alike P (SameAnswer w₀ v₀) (cairnNsSetRevoked w ns revoked)
      (cairnNsSetRevoked v ns revoked) := by
  refine .ite (fun _ => ⟨rfl, h⟩) fun hns => ?_
  refine (alike_cairnLoadSuper h).bind fun a b hab => ?_
  rw [hab.1]
  refine .ite (fun _ => ?_) fun _ => ⟨rfl, hab.2⟩
  refine (alike_write (hab.2.putU32 _ (entry_le (by omega) (by decide))) superSector).bind
    fun c d hcd => .pure ⟨congrArg statusFromIo hcd.1, hcd.2⟩

theorem alike_cairnCommit (hns : ns < nsMax) {input input' : Bytes}
    (hinput : ∀ i < sectorSize, input i = input' i) (len sender : ℕ) (intent derived : UInt32)
    (revClass : UInt8) :
    Alike P (SameAnswer w₀ v₀) (cairnCommit input w ns len sender intent derived revClass)
      (cairnCommit input' v ns len sender intent derived revClass) := by
  have hlen : min len (valueMax - 1) ≤ valueMax := by omega
  have hvalue : ∀ i < min len (valueMax - 1), input i = input' i := fun i hi =>
    hinput i (by simp only [valueMax, valueOff, sectorSize] at *; omega)
  have hhash : fnv64 input 0 (min len (valueMax - 1)) = fnv64 input' 0 (min len (valueMax - 1)) :=
    fnv64_of_toList (toList_congr fun i hi => by simpa only [Nat.zero_add] using hvalue i hi)
  refine (alike_cairnLoadSuper h).bind fun a b hab => ?_
  dsimp only [commitHeader]
  rw [hab.1, hab.2.u32At_eq (o := offNext) (by decide), hab.2.head_eq hns, hab.2.count_eq hns, hhash]
  refine .ite (fun _ => .ite (fun _ => ?_) fun _ => ⟨rfl, hab.2⟩) fun _ => ⟨rfl, hab.2⟩
  refine (alike_write (hab.2.buildCommit _ hvalue hlen) _).bind fun c d hcd => ?_
  rw [hcd.1]
  refine .ite (fun _ => ?_) fun _ => ⟨rfl, hcd.2⟩
  refine (alike_cairnLoadSuper hcd.2).bind fun e f hef => ?_
  rw [hef.1]
  refine .ite (fun _ => ?_) fun _ => ⟨rfl, hef.2⟩
  refine (alike_write (((hef.2.putU32 _ (by decide)).putU32 _ (entry_le hns (by decide))).putU32 _
    (entry_le hns (by decide))) superSector).bind fun x y hxy => ?_
  exact .pure ⟨congrArg statusFromIo hxy.1, hxy.2⟩

theorem alike_ledgerWalk (limit cur : ℕ) :
    Alike P (SameAnswer w₀ v₀) (ledgerWalk limit cur w) (ledgerWalk limit cur v) := by
  induction limit generalizing cur w v with
  | zero => exact ⟨rfl, h⟩
  | succ limit ih =>
    refine .ite (fun _ => ⟨rfl, h⟩) fun _ => (alike_read h _).bind fun a b hab => ?_
    rw [hab.1, hab.2.isCommit_eq, hab.2.u32At_eq (o := offParent) (by decide), hab.2.header_eq]
    refine .ite (fun _ => (ih hab.2 _).bind fun c d hcd => ?_) fun _ => ⟨rfl, hab.2⟩
    rw [hcd.1]
    exact .pure ⟨rfl, hcd.2⟩

section
variable (hns : ns < nsMax)
include hns

theorem alike_ledgerView : Alike P (SameAnswer w₀ v₀) (ledgerView w ns) (ledgerView v ns) := by
  refine (alike_cairnLoadSuper h).bind fun a b hab => ?_
  rw [hab.1, hab.2.head_eq hns]
  exact .ite (fun _ => alike_ledgerWalk hab.2 8 _) fun _ => ⟨rfl, hab.2⟩

theorem alike_cairnLoadHead :
    Alike P (fun a b => SameAnswer w₀ v₀ a b ∧ ∀ head, a.value = some head → head ≠ noSlot →
      ∃ s w, HeadRecord P ns s ∧ a.window = load w s) (cairnLoadHead w ns) (cairnLoadHead v ns) := by
  refine (alike_super h).bind fun a b hab => ?_
  obtain ⟨hab, hsuper⟩ := hab
  dsimp only
  rw [← hab.1, ← hab.2.head_eq hns]
  refine .ite (fun hv => .ite (fun _ => ⟨⟨rfl, hab.2⟩, ?_⟩) fun hne => ?_)
    fun _ => ⟨⟨rfl, hab.2⟩, nofun⟩
  · exact fun head hx hne => absurd (Option.some.inj hx).symm hne
  obtain ⟨t, w', ht, hwin⟩ := hsuper hv
  have hhead : heads a.window ns = heads (bytes t) ns := by
    rw [hwin]
    exact u32At_congr fun i _ hi => load_of_lt (Nat.lt_of_lt_of_le hi (entry_le hns (by decide)))
  refine (alike_load hab.2 _).bind fun c d hcd => ?_
  obtain ⟨hcd, hblock⟩ := hcd
  rw [← hcd.1, ← hcd.2.isCommit_eq]
  refine .ite (fun hc => ⟨⟨rfl, hcd.2⟩, fun _ _ _ => ?_⟩) fun _ => ⟨⟨rfl, hcd.2⟩, nofun⟩
  obtain ⟨hv, hcommit⟩ := Bool.and_eq_true_iff.mp hc
  obtain ⟨s, hs, hwin⟩ := hblock hv
  refine ⟨s, _, ⟨t, ht, hhead ▸ hne, hhead ▸ hs, ?_⟩, hwin⟩
  rw [← hcommit, hwin]
  exact (startsWith_congr fun i hi => load_of_lt (Nat.lt_of_lt_of_le hi (by decide))).symm

theorem alike_withHead {A : Type} {failed : Status → A} {k : ℕ → Bytes → Answer A}
    {R : Answer A → Answer A → Prop}
    (hfailed : ∀ st w v, st ≠ .ok → Twin w₀ v₀ w v → R ⟨failed st, w⟩ ⟨failed st, v⟩)
    (hk : ∀ head s u v, HeadRecord P ns s → Twin w₀ v₀ (load u s) v →
      R (k head (load u s)) (k head v)) :
    Alike P R (withHead w ns failed k) (withHead v ns failed k) := by
  refine (alike_cairnLoadHead h hns).bind fun a b hab => ?_
  obtain ⟨⟨hvalue, htwin⟩, hblock⟩ := hab
  rw [← hvalue]
  cases hv : a.value with
  | none => exact hfailed _ _ _ nofun htwin
  | some head =>
    refine .ite (fun _ => hfailed _ _ _ nofun htwin) fun hne => ?_
    obtain ⟨s, u, hs, hwin⟩ := hblock head hv hne
    rw [hwin] at htwin ⊢
    exact hk head s u _ hs htwin

/-- A read of a namespace before its copy, if no head record declares too much. -/
theorem alike_cairnGet (hP : ∀ s, HeadRecord P ns s → u32At (bytes s) offLen ≤ valueMax) :
    Alike P (fun a b => SameAnswer w₀ v₀ a b ∧ CopyInside a) (cairnGet w ns) (cairnGet v ns) := by
  refine alike_withHead h hns (fun st w v hst h => ⟨⟨rfl, h⟩, fun hok => absurd hok hst⟩)
    fun head s u v hs htwin => ⟨⟨rfl, htwin⟩, fun _ => ?_⟩
  have hlen : u32At (load u s) offLen ≤ valueMax :=
    (congrArg CommitHeader.len header_load).trans_le (hP s hs)
  simp only [valueMax, valueOff, sectorSize] at hlen ⊢
  omega

theorem alike_cairnVerify : Alike P (SameAnswer w₀ v₀) (cairnVerify w ns) (cairnVerify v ns) := by
  refine alike_withHead h hns (fun _ _ _ _ h => ⟨rfl, h⟩) fun head s u v _ htwin => ⟨?_, htwin⟩
  have hlen : u32At (load u s) offLen = u32At v offLen := htwin.u32At_eq (by decide)
  have hhash : u64At (load u s) offHash = u64At v offHash := htwin.u64At_eq (by decide)
  have hvalue : fnv64 (load u s) valueOff (min (u32At v offLen) valueMax) =
      fnv64 v valueOff (min (u32At v offLen) valueMax) :=
    fnv64_of_toList (htwin.toList_eq (by simp only [valueOff, valueMax, sectorSize]; omega))
  dsimp only
  rw [hlen, hhash, hvalue]

theorem alike_sandInfo : Alike P (SameAnswer w₀ v₀) (sandInfo w ns) (sandInfo v ns) := by
  refine alike_withHead h hns (fun _ _ _ _ h => ⟨rfl, h⟩) fun head s u v _ htwin => ⟨?_, htwin⟩
  dsimp only
  rw [htwin.header_eq]

end

theorem alike_rollbackWalk (steps cur walked : ℕ) :
    Alike P (SameAnswer w₀ v₀) (rollbackWalk steps cur walked w)
      (rollbackWalk steps cur walked v) := by
  induction steps generalizing cur walked w v with
  | zero => exact ⟨rfl, h⟩
  | succ steps ih =>
    refine .ite (fun _ => ⟨rfl, h⟩) fun _ => (alike_read h _).bind fun a b hab => ?_
    rw [hab.1, hab.2.isCommit_eq, hab.2.u32At_eq (o := offParent) (by decide)]
    exact .ite (fun _ => ih hab.2 _ _) fun _ => ⟨rfl, hab.2⟩

theorem alike_cairnRollback (hns : ns < nsMax) (steps : ℕ) :
    Alike P (SameAnswer w₀ v₀) (cairnRollback w ns steps) (cairnRollback v ns steps) := by
  refine (alike_cairnLoadSuper h).bind fun a b hab => ?_
  dsimp only
  rw [hab.1, hab.2.head_eq hns, hab.2.count_eq hns]
  refine .ite (fun _ => .ite (fun _ => ⟨rfl, hab.2⟩) fun _ => ?_) fun _ => ⟨rfl, hab.2⟩
  refine (alike_rollbackWalk hab.2 steps _ 0).bind fun c d hcd => ?_
  rw [← hcd.1]
  cases c.value with
  | none => exact ⟨rfl, hcd.2⟩
  | some x =>
    refine (alike_cairnLoadSuper hcd.2).bind fun e f hef => ?_
    rw [hef.1]
    refine .ite (fun _ => ?_) fun _ => ⟨rfl, hef.2⟩
    refine (alike_write ((hef.2.putU32 _ (entry_le hns (by decide))).putU32 _
      (entry_le hns (by decide))) superSector).bind fun x y hxy => ?_
    exact .pure ⟨congrArg statusFromIo hxy.1, hxy.2⟩

theorem alike_cairnStatus : Alike P (SameAnswer w₀ v₀) (cairnStatus w) (cairnStatus v) := by
  refine (alike_cairnLoadSuper h).bind fun a b hab => ?_
  have hnames : ∀ ns ∈ List.range nsNames.length, ns < nsMax := by decide
  dsimp only
  rw [hab.1, hab.2.u32At_eq (o := offNext) (by decide), List.map_congr_left fun ns hns => by
    rw [hab.2.head_eq (hnames ns hns), hab.2.count_eq (hnames ns hns)]]
  exact .ite (fun _ => ⟨rfl, hab.2⟩) fun _ => ⟨rfl, hab.2⟩

end

end

/-! ### The mission operations -/

/-- Two states of a rollback with the same table of references. -/
structure SameStaging (s t : Staging) : Prop where
  newHead : ∀ ns < nsMax, s.newHead ns = t.newHead ns
  count : ∀ ns < nsMax, s.count ns = t.count ns
  undone : s.undone = t.undone
  appended : s.appended = t.appended
  nextFree : s.nextFree = t.nextFree
  refusedIrrev : s.refusedIrrev = t.refusedIrrev
  refusedComp : s.refusedComp = t.refusedComp
  compensated : s.compensated = t.compensated
  lines : s.lines = t.lines

namespace SameStaging
theorem update_eq {f g : ℕ → ℕ} (h : ∀ ns < nsMax, f ns = g ns) (m x : ℕ) :
    ∀ ns < nsMax, Function.update f m x ns = Function.update g m x ns := by
  intro ns hns
  by_cases hm : ns = m
  · rw [hm, Function.update_self, Function.update_self]
  · rw [Function.update_of_ne hm, Function.update_of_ne hm, h ns hns]

section
variable (h : SameStaging s t)
include h

theorem retract (ns parent : ℕ) : SameStaging (s.retract ns parent) (t.retract ns parent) :=
  { h with
    newHead := update_eq h.newHead ns parent
    undone := by rw [Staging.retract, Staging.retract, h.undone] }

theorem compensate (ns cur : ℕ) (action : List UInt8) :
    SameStaging (s.compensate ns cur action) (t.compensate ns cur action) where
  newHead := by
    simp only [Staging.compensate, h.nextFree]
    exact update_eq h.newHead ns _
  count := h.count
  undone := h.undone
  appended := by simp only [Staging.compensate, h.appended]
  nextFree := by simp only [Staging.compensate, h.nextFree]
  refusedIrrev := h.refusedIrrev
  refusedComp := h.refusedComp
  compensated := by simp only [Staging.compensate, h.compensated]
  lines := by simp only [Staging.compensate, h.lines, h.nextFree]

theorem refuseComp (line : RollbackLine) : SameStaging (s.refuseComp line) (t.refuseComp line) :=
  { h with
    refusedComp := congrArg (· + 1) h.refusedComp
    lines := congrArg (· ++ [line]) h.lines }

theorem refuseIrrev (line : RollbackLine) : SameStaging (s.refuseIrrev line) (t.refuseIrrev line) :=
  { h with
    refusedIrrev := congrArg (· + 1) h.refusedIrrev
    lines := congrArg (· ++ [line]) h.lines }

theorem generation_eq {ns : ℕ} (hns : ns < nsMax) : s.generation ns = t.generation ns := by
  rw [Staging.generation, Staging.generation, h.count ns hns, h.undone]

theorem publishSuper (hw : Twin w₀ v₀ w v) :
    Twin w₀ v₀ (SfarService.publishSuper s w) (SfarService.publishSuper t v) := by
  have hentry : ∀ b, ∀ ns ∈ List.range nsMax, publishEntry s b ns = publishEntry t b ns := by
    intro b ns hns
    have hns' := List.mem_range.mp hns
    unfold publishEntry
    rw [h.newHead ns hns', h.count ns hns', h.undone, h.appended]
  unfold SfarService.publishSuper
  rw [h.nextFree, List.foldl_ext _ _ w hentry]
  refine Twin.putU32 (Twin.foldl (fun w v hwv ns hns => ?_) hw) _ (by decide)
  have hns' := List.mem_range.mp hns
  unfold publishEntry
  split
  · exact (hwv.putU32 _ (entry_le hns' (by decide))).putU32 _ (entry_le hns' (by decide))
  · exact hwv

end

end SameStaging

/-- The walk of a rollback has come to the same point. -/
inductive SameWalk (w₀ v₀ : Bytes) : Walk → Walk → Prop
  | finished {s t : Staging} {w v : Bytes} :
      SameStaging s t → Twin w₀ v₀ w v → SameWalk w₀ v₀ (.finished s w) (.finished t v)
  | aborted {w v : Bytes} : Twin w₀ v₀ w v → SameWalk w₀ v₀ (.aborted w) (.aborted v)
  | running : SameWalk w₀ v₀ .running .running

section
variable {P : ℕ → Sector → Prop} {A : Type}

theorem alike_scanChain {note : ℕ → Bytes → A → A}
    (hnote : ∀ slot acc w v, Twin w₀ v₀ w v → note slot w acc = note slot v acc)
    (h : Twin w₀ v₀ w v) (guard cur : ℕ) (acc : A) :
    Alike P (SameAnswer w₀ v₀) (scanChain note guard cur acc w) (scanChain note guard cur acc v) := by
  induction guard generalizing cur acc w v with
  | zero => exact ⟨rfl, h⟩
  | succ guard ih =>
    refine .ite (fun _ => ⟨rfl, h⟩) fun _ => (alike_read h _).bind fun a b hab => ?_
    rw [hab.1, hab.2.isCommit_eq, hab.2.u32At_eq (o := offParent) (by decide),
      hnote cur acc _ _ hab.2]
    exact .ite (fun _ => ih hab.2 _ _) fun _ => ⟨rfl, hab.2⟩

theorem alike_scanFrom {note : ℕ → ℕ → Bytes → A → A} {head head' : ℕ → ℕ}
    (hnote : ∀ ns slot acc w v, Twin w₀ v₀ w v → note ns slot w acc = note ns slot v acc)
    (hhead : ∀ ns < nsMax, head ns = head' ns) (h : Twin w₀ v₀ w v) (n ns : ℕ)
    (hns : ns + n ≤ nsMax) (acc : A) :
    Alike P (SameAnswer w₀ v₀) (scanFrom note head n ns acc w) (scanFrom note head' n ns acc v) := by
  induction n generalizing ns acc w v with
  | zero => exact ⟨rfl, h⟩
  | succ n ih =>
    rw [scanFrom, scanFrom, hhead ns (by omega)]
    refine (alike_scanChain (hnote ns) h commitSlots _ acc).bind fun a b hab => ?_
    rw [hab.1]
    exact ih hab.2 (ns + 1) (by omega) b.value

variable (ahd : UInt32) (caps sender : ℕ)

section
variable (h : Twin w₀ v₀ w v)
include h

theorem alike_sfarTouchedNs {head head' : ℕ → ℕ} (hhead : ∀ ns < nsMax, head ns = head' ns) :
    Alike P (SameAnswer w₀ v₀) (sfarTouchedNs ahd head w) (sfarTouchedNs ahd head' v) := by
  refine alike_scanFrom (fun ns slot acc w v hwv => ?_) hhead h nsMax 0 (by omega) 0
  rw [noteTouched, noteTouched, hwv.ofMission_eq]

theorem note_eq (p : Forecast) (ns slot : ℕ) : p.note ns slot w = p.note ns slot v := by
  have hclass : w offRevclass = v offRevclass := h.inside _ (by decide)
  simp only [Forecast.note, hclass, h.extractCompensation_eq, h.header_eq]

theorem alike_sfarPlan :
    Alike P (SameAnswer w₀ v₀) (sfarPlan ahd caps w) (sfarPlan ahd caps v) := by
  refine .ite (fun _ => ⟨rfl, h⟩) fun _ => (alike_cairnLoadSuper h).bind fun a b hab => ?_
  rw [hab.1]
  refine .ite (fun _ => ?_) fun _ => ⟨rfl, hab.2⟩
  refine (alike_sfarTouchedNs ahd hab.2 hab.2.heads_eq).bind fun c d hcd => ?_
  have hnote : ∀ ns slot acc w v, Twin w₀ v₀ w v →
      notePlan ahd ns slot w acc = notePlan ahd ns slot v acc := by
    intro ns slot acc w v hwv
    rw [notePlan, notePlan, hwv.ofMission_eq, note_eq hwv]
  rw [hcd.1]
  refine .ite (fun _ => ⟨rfl, hcd.2⟩) fun _ => ?_
  refine (alike_scanFrom hnote hab.2.heads_eq hcd.2 nsMax 0 (by omega) _).bind fun e f hef => ?_
  rw [hef.1]
  exact .ite (fun _ => ⟨rfl, hef.2⟩) fun _ => ⟨rfl, hef.2⟩

theorem alike_tbar : Alike P (SameAnswer w₀ v₀) (tbar ahd caps w) (tbar ahd caps v) := by
  refine .ite (fun _ => ⟨rfl, h⟩) fun _ => (alike_cairnLoadSuper h).bind fun a b hab => ?_
  rw [hab.1]
  refine .ite (fun _ => ?_) fun _ => ⟨rfl, hab.2⟩
  refine (alike_sfarTouchedNs ahd hab.2 hab.2.heads_eq).bind fun c d hcd => ?_
  rw [hcd.1]
  refine .ite (fun _ => ⟨rfl, hcd.2⟩) fun _ => .ite (fun _ => ?_) fun _ => ⟨rfl, hcd.2⟩
  refine (alike_scanFrom (fun ns slot acc w v hwv => ?_) hab.2.heads_eq hcd.2 nsMax 0 (by omega)
    []).bind fun e f hef => ?_
  · rw [noteTbar, noteTbar, hwv.ofMission_eq, hwv.header_eq]
  · rw [hef.1]
    exact .pure ⟨rfl, hef.2⟩

theorem alike_compensateAt (hs : SameStaging s t) {ns : ℕ} (hns : ns < nsMax) (cur : ℕ) :
    Alike P (SameWalk w₀ v₀) (compensateAt ahd sender ns cur s w)
      (compensateAt ahd sender ns cur t v) := by
  unfold compensateAt
  rw [h.extractCompensation_eq, h.u32At_eq (o := offDerived) (by decide), hs.nextFree,
    hs.generation_eq hns]
  cases extractCompensation v 96 with
  | none => exact .finished (hs.refuseComp _) h
  | some action =>
    refine .ite (fun _ => ?_) fun _ => .finished (hs.refuseComp _) h
    refine (alike_write (h.rawCommit _ _ _ _ _ _ _ _ _) _).bind fun a b hab => ?_
    rw [hab.1]
    exact .ite (fun _ => .finished (hs.compensate ns cur action) hab.2) fun _ => .aborted hab.2

theorem alike_rollbackChain (hs : SameStaging s t) {ns : ℕ} (hns : ns < nsMax) (fuel cur : ℕ) :
    Alike P (SameWalk w₀ v₀) (rollbackChain ahd sender ns fuel cur s w)
      (rollbackChain ahd sender ns fuel cur t v) := by
  induction fuel generalizing cur s t w v with
  | zero => exact .running
  | succ fuel ih =>
    refine .ite (fun _ => .finished hs h) fun _ => (alike_read h _).bind fun a b hab => ?_
    have hclass : a.window offRevclass = b.window offRevclass := hab.2.inside _ (by decide)
    dsimp only
    rw [hab.1, hab.2.isCommit_eq, hab.2.u32At_eq (o := offParent) (by decide),
      hab.2.ofMission_eq, hclass]
    refine .ite (fun _ => .ite (fun _ => ?_) fun _ => .finished hs hab.2)
      fun _ => .finished hs hab.2
    cases RevClass.ofByte (b.window offRevclass) with
    | compensatable => exact alike_compensateAt ahd sender hab.2 hs hns cur
    | reversible => exact ih hab.2 (hs.retract ns _) _
    | irreversible | unknown => exact .finished (hs.refuseIrrev _) hab.2

theorem alike_rollbackFrom (hs : SameStaging s t) (fuel n ns : ℕ) (hns : ns + n ≤ nsMax) :
    Alike P (SameWalk w₀ v₀) (rollbackFrom fuel ahd sender n ns s w)
      (rollbackFrom fuel ahd sender n ns t v) := by
  induction n generalizing ns s t w v with
  | zero => exact .finished hs h
  | succ n ih =>
    rw [rollbackFrom, rollbackFrom, hs.newHead ns (by omega)]
    refine (alike_rollbackChain ahd sender h hs (by omega) fuel _).bind fun x y hxy => ?_
    cases hxy with
    | finished hs h => exact ih h hs (ns + 1) (by omega)
    | aborted h => exact .aborted h
    | running => exact .running

theorem alike_sfarRollback (fuel : ℕ) :
    Alike P (Option.Rel fun a b => a.value.status = b.value.status ∧ Twin w₀ v₀ a.window b.window)
      (sfarRollback fuel ahd caps sender w) (sfarRollback fuel ahd caps sender v) := by
  refine .ite (fun _ => .some ⟨rfl, h⟩) fun _ => (alike_cairnLoadSuper h).bind fun a b hab => ?_
  rw [hab.1]
  refine .ite (fun _ => ?_) fun _ => .some ⟨rfl, hab.2⟩
  have hstart : SameStaging
      { newHead := heads a.window, count := counts a.window, nextFree := u32At a.window offNext }
      { newHead := heads b.window, count := counts b.window, nextFree := u32At b.window offNext } :=
    ⟨hab.2.heads_eq, fun ns hns => hab.2.count_eq hns, rfl, rfl, hab.2.u32At_eq (by decide), rfl, rfl, rfl,
      rfl⟩
  refine (alike_sfarTouchedNs ahd hab.2 hab.2.heads_eq).bind fun c d hcd => ?_
  rw [hcd.1]
  refine .ite (fun _ => .some ⟨rfl, hcd.2⟩) fun _ => ?_
  refine (alike_rollbackFrom ahd sender hcd.2 hstart fuel nsMax 0 (by omega)).bind
    fun x y hxy => ?_
  cases hxy with
  | running => exact .none
  | aborted h => exact .some ⟨rfl, h⟩
  | finished hs h =>
    refine (alike_cairnLoadSuper h).bind fun e f hef => ?_
    rw [hef.1]
    refine .ite (fun _ => ?_) fun _ => .some ⟨rfl, hef.2⟩
    refine (alike_write (hs.publishSuper hef.2) superSector).bind fun k l hkl => ?_
    rw [hkl.1]
    exact .ite (fun _ => .some ⟨rfl, hkl.2⟩) fun _ => .some ⟨rfl, hkl.2⟩

end

end

/-! ### All store requests -/

section
variable {P : ℕ → Sector → Prop}

theorem alike_statusOnly {A : Type} (status : A → Status) {p q : Program Sector (Answer A)}
    (h : Alike P (SameAnswer w₀ v₀) p q) :
    Alike P (SameAnswer w₀ v₀) (statusOnly status p) (statusOnly status q) :=
  h.bind fun _ _ hab => .pure ⟨congrArg status hab.1, hab.2⟩

theorem alike_answered {p q : Program Sector (Answer Status)} (h : Alike P (SameAnswer w₀ v₀) p q) :
    Alike P (Option.Rel (SameAnswer w₀ v₀)) (answered p) (answered q) :=
  h.bind fun _ _ hab => .pure (.some hab)

theorem alike_setRevoked (h : Twin w₀ v₀ w v) (ns caps : ℕ) (revoked : Bool) :
    Alike P (SameAnswer w₀ v₀) (setRevoked ns caps w revoked) (setRevoked ns caps v revoked) :=
  .ite (fun _ => alike_cairnNsSetRevoked h revoked) fun _ => ⟨rfl, h⟩

/-- A copy that stays in the window. -/
theorem copyValue_alike {a b : Answer Status} (hab : SameAnswer w₀ v₀ a b) (hin : CopyInside a) :
    Option.Rel (SameAnswer w₀ v₀) (copyValue a) (copyValue b) := by
  have hlen : u32At a.window offLen = u32At b.window offLen := hab.2.u32At_eq (by decide)
  unfold copyValue
  rw [← hab.1]
  split
  · next hok =>
      have hsize := hin hok
      simp only [valueOff, sectorSize] at hsize
      have hmapped : valueOff + u32At a.window offLen ≤ mappedBytes := by
        simp only [valueOff, mappedBytes]
        omega
      dsimp only
      rw [← hlen, if_pos hmapped, if_pos hmapped]
      refine .some ⟨rfl, hab.2.update (fun i hi => ?_) (fun i hi => ?_) fun i hi => ?_⟩
      · simp only [moveValue]
        split
        · exact hab.2.inside _ (by simp only [valueOff, sectorSize]; omega)
        · rfl
      all_goals
        simp only [sectorSize] at hi
        simp only [moveValue]
        rw [if_neg (by omega), if_neg (by simp only [sectorSize]; omega)]
  · exact .some hab

/-- A read of a namespace up to its copy. -/
def readHead (r : Request) (w : Bytes) : Program Sector (Answer Status) :=
  gated r.cairnNs r.caps w fun w => cairnGet w r.cairnNs

theorem alike_readHead (h : Twin w₀ v₀ w v) (r : Request)
    (hP : cairnNsAllowed r.cairnNs r.caps = true →
      ∀ s, HeadRecord P r.cairnNs s → u32At (bytes s) offLen ≤ valueMax) :
    Alike P (fun a b => SameAnswer w₀ v₀ a b ∧ CopyInside a) (readHead r w) (readHead r v) :=
  alike_gated h _ (fun _ _ h => ⟨⟨rfl, h⟩, nofun⟩) fun hc _ _ h =>
    alike_cairnGet h (lt_of_allowed hc).1 (hP hc)

theorem alike_dispatch (h : Twin w₀ v₀ w v) (fuel : ℕ) {op : Op} (hop : isStoreOp op = true)
    (r : Request) (hP : op = .cairnGet → cairnNsAllowed r.cairnNs r.caps = true →
      ∀ s, HeadRecord P r.cairnNs s → u32At (bytes s) offLen ≤ valueMax)
    {input : Bytes} (hinput : ∀ i < sectorSize, r.input i = input i) :
    Alike P (Option.Rel (SameAnswer w₀ v₀)) (dispatch fuel op r w)
      (dispatch fuel op { r with input := input } v) := by
  cases op with
  | cairnInit =>
    exact alike_answered ((alike_cairnLoadSuper h).bind fun a b hab =>
      .pure ⟨congrArg statusFromIo hab.1, hab.2⟩)
  | cairnStatus => exact alike_answered (alike_statusOnly _ (alike_cairnStatus h))
  | cairnCommit =>
    exact alike_answered (alike_guarded h _ fun hns w v h =>
      alike_cairnCommit h hns hinput _ _ _ _ _)
  | cairnGet =>
    exact (alike_readHead h r (hP rfl)).bind fun a b hab => .pure (copyValue_alike hab.1 hab.2)
  | cairnVerify =>
    exact alike_answered (alike_guarded h _ fun hns w v h => alike_cairnVerify h hns)
  | cairnLog | sandLog =>
    exact alike_answered (alike_guarded h _ fun hns w v h =>
      alike_statusOnly _ (alike_ledgerView h hns))
  | sandInfo =>
    exact alike_answered (alike_guarded h _ fun hns w v h =>
      alike_statusOnly _ (alike_sandInfo h hns))
  | cairnRollback =>
    exact alike_answered (alike_guarded h _ fun hns w v h => alike_cairnRollback h hns _)
  | nsRevoke | nsGrant => exact alike_answered (alike_setRevoked h _ _ _)
  | sfarPlan => exact alike_answered (alike_statusOnly _ (alike_sfarPlan _ _ h))
  | tbar => exact alike_answered (alike_statusOnly _ (alike_tbar _ _ h))
  | sfarRollback =>
    refine (alike_sfarRollback _ _ _ h fuel).bind fun a b hab => ?_
    cases hab with
    | none => exact .none
    | some hab => exact .some ⟨hab.1, hab.2⟩
  | _ => cases hop

end

/-- The same reply word, with twin windows. -/
def SameReply (w₀ v₀ : Bytes) (a b : Reply) : Prop :=
  a.word = b.word ∧ Twin w₀ v₀ a.window b.window

/-- A request stays in its windows, whatever the device delivers of `P`: it leaves the
memory behind the data window and its status byte as it was, neither its accesses nor its
reply depend on what lies behind one of the windows, and the copy of a read takes its bytes
from the data window. -/
def InWindow (P : ℕ → Sector → Prop) (fuel : ℕ) (r : Request) : Prop :=
  ∀ input w v, (∀ i < sectorSize, r.input i = input i) → (∀ i < sectorSize, w i = v i) →
    Alike P (Option.Rel (SameReply w v)) (serve fuel r w) (serve fuel { r with input := input } v) ∧
    (r.wellFormed = true → r.op = some .cairnGet →
      Alike P (fun a b => SameAnswer w v a b ∧ CopyInside a) (readHead r w) (readHead r v))

/-- A read whose copy leaves the window: the sender may use the namespace, and a record
that may be delivered as its head declares more than 448 bytes. -/
def Oversized (P : ℕ → Sector → Prop) (r : Request) : Prop :=
  r.wellFormed = true ∧ r.op = some .cairnGet ∧ cairnNsAllowed r.cairnNs r.caps = true ∧
    ∃ s, HeadRecord P r.cairnNs s ∧ valueMax < u32At (bytes s) offLen

section
variable {P : ℕ → Sector → Prop} {A : Type} {R : A → A → Prop} {sector : ℕ}
  {k m : Answer Bool → Program Sector A}

theorem alike_failed (h : Alike P R (rw w sector false >>= k) (rw v sector false >>= m)) :
    Alike P R (k ⟨false, reported w false⟩) (m ⟨false, reported v false⟩) :=
  h.2 none nofun

theorem alike_delivered (h : Alike P R (rw w sector false >>= k) (rw v sector false >>= m))
    {s : Sector} (hs : P sector s) : Alike P R (k ⟨true, load w s⟩) (m ⟨true, load v s⟩) :=
  h.2 (some s) fun _ ht => Option.some.inj ht ▸ hs

theorem alike_loaded (h : Alike P R (cairnLoadSuper w >>= k) (cairnLoadSuper v >>= m))
    {t : Sector} (ht : Super P t) :
    ∃ w' v', Alike P R (k ⟨true, load w' t⟩) (m ⟨true, load v' t⟩) := by
  have hload (b : Bytes) (s : Sector) : startsWith (load b s) superMagic =
      startsWith (bytes s) superMagic := startsWith_load (by decide)
  rw [cairnLoadSuper, cairnLoadSuper, bind_assoc, bind_assoc] at h
  obtain ⟨ht, hm | ⟨u, hu, hm⟩⟩ := ht
  · have hread := alike_delivered h ht
    simp only [if_true, hload, hm] at hread
    exact ⟨w, v, hread⟩
  · have hread := alike_delivered h hu
    simp only [if_true, hload, hm, Bool.false_eq_true, if_false, bind_assoc] at hread
    have hback := hread.2.2 true
    exact ⟨_, _, alike_delivered hback ht⟩

end

/-- A store request stays in its windows, whatever the device delivers, exactly if it is
not a read that is led to a record of more than 448 bytes. -/
theorem access_in_window (P : ℕ → Sector → Prop) (fuel : ℕ) (r : Request)
    (hop : ∀ op, r.op = some op → isStoreOp op = true) :
    InWindow P fuel r ↔ ¬ Oversized P r := by
  constructor
  · rintro h ⟨hwf, hget, hall, s, ⟨t, ⟨ht, hmagic⟩, hne, hs, hcommit⟩, hlen⟩
    have hns := (lt_of_allowed hall).1
    have hread := (h r.input (fun _ => 0) (fun _ => 0) (fun _ _ => rfl) fun _ _ => rfl).2 hwf hget
    have hhead (b : Bytes) : u32At (load b t) (nsEntryOff r.cairnNs + nsOffHead) =
        heads (bytes t) r.cairnNs :=
      u32At_congr fun i _ hi => load_of_lt (Nat.lt_of_lt_of_le hi (entry_le hns (by decide)))
    -- the look at the revocation flag fails, the read of the record does not
    simp only [readHead, gated, cairnNsRevoked, cairnLoadSuper, bind_assoc] at hread
    have hopen := alike_failed hread
    simp only [pure_eq, done_bind, Bool.false_and, Bool.false_eq_true, if_false, hall, if_true,
      cairnGet, withHead, cairnLoadHead, bind_assoc] at hopen
    obtain ⟨w', v', hsuper⟩ := alike_loaded hopen ⟨ht, hmagic⟩
    simp only [if_true, hhead, if_neg hne, bind_assoc] at hsuper
    have hrecord := alike_delivered hsuper hs
    simp only [Bool.true_and, isCommit_load, hcommit, if_true, done_bind, if_neg hne] at hrecord
    have hin := hrecord.2 rfl
    rw [show u32At (load _ s) offLen = u32At (bytes s) offLen from
      congrArg CommitHeader.len header_load] at hin
    simp only [valueMax, valueOff, sectorSize] at hlen hin
    omega
  · intro hno input w v hinput hw
    have htwin := Twin.start hw
    have hP : r.wellFormed = true → r.op = some .cairnGet →
        cairnNsAllowed r.cairnNs r.caps = true →
        ∀ s, HeadRecord P r.cairnNs s → u32At (bytes s) offLen ≤ valueMax := by
      intro hwf hget hall s hs
      by_contra hlen
      exact hno ⟨hwf, hget, hall, s, hs, by omega⟩
    refine ⟨.ite (fun hwf => ?_) fun _ => .some ⟨rfl, htwin⟩,
      fun hwf hget => alike_readHead htwin r (hP hwf hget)⟩
    have hsame : Request.op { r with input := input } = r.op := rfl
    rw [hsame]
    cases hr : r.op with
    | none => exact .some ⟨rfl, htwin⟩
    | some op =>
      refine (alike_dispatch htwin fuel (hop op hr) r
        (fun hget => hP hwf (hr.trans (congrArg some hget))) hinput).bind fun a b hab => ?_
      cases hab with
      | none => exact .none
      | some hab => exact .some ⟨congrArg (replyWord r.word) hab.1, hab.2⟩

/-- A read that no device can lead to a long record. -/
theorem access_in_window_get :
    InWindow (fun sector s => sector = superSector ∨ u32At (bytes s) offLen ≤ valueMax) 0
      (getRequest 0) := by
  have hop : (getRequest 0).op = some .cairnGet := by decide +kernel
  refine (access_in_window _ 0 (getRequest 0) fun op h => ?_).mpr ?_
  · rw [hop] at h
    exact Option.some.inj h ▸ rfl
  · rintro ⟨-, -, -, s, ⟨t, -, -, hs, -⟩, hlen⟩
    exact absurd (hs.resolve_left (slot_ne_super _)) (Nat.not_le.mpr hlen)

def oversized : CairnDisk := oneRecord { loopHeader with parent := noSlot, len := 600 }

def ruler : Bytes := fun i => UInt8.ofNat (i / 64)

/-- In front of that memory the read delivers a byte from behind the window, and
changes that byte. -/
theorem oversized_outside :
    ∃ reply, ((serve 0 (getRequest 0) ruler).eval oversized).1 = some reply ∧
      responseStatus reply.word = 0 ∧ reply.window 449 = 8 ∧ ruler 513 = 8 ∧
      reply.window 513 = 9 := by
  have hreply : ((serve 0 (getRequest 0) ruler).eval oversized).1.map (fun reply =>
      (responseStatus reply.word, reply.window 449, reply.window 513)) = some (0, 8, 9) := by
    decide +kernel
  obtain ⟨reply, hsome, hvalues⟩ := Option.map_eq_some_iff.mp hreply
  simp only [Prod.mk.injEq] at hvalues
  exact ⟨reply, hsome, hvalues.1, hvalues.2.1, rfl, hvalues.2.2⟩

end Dezh.WindowAccess

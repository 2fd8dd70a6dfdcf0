import Dezh.ForecastHonesty
import Dezh.PackageAuthority
import Dezh.RequestCodec
import Dezh.StorageStatus

/-!
# Writing a value and reading it back

A value goes through four bounded copies: the kernel stages at most 511 bytes, the
courier's length field holds up to 4095, the record keeps at most 447, and a read
moves what the record has to the front of a zeroed window, where the kernel takes
it to end at the first zero.
-/
namespace Dezh.ValueRoundTrip
open BlockProgram Program ByteLayout CairnFormat CairnService CairnStore CairnOutcomes
open BlockDaemon PackageTasks PackageIntegrity PackageAuthority NamespaceSecrets ForecastHonesty
open RequestCodec StorageStatus StoreRuns RollbackRepeat

variable {d : CairnDisk} {w : Bytes} {fuel ns m : ℕ} {rev : UInt8} {s : List UInt8}

/-! ### The client in the kernel -/

def prepareVirtioInput (text : List UInt8) : ℕ × Bytes :=
  (min text.length 511, ofList (text.take 511))

def clientRequest (ns req : ℕ) (text : List UInt8) : Request where
  word := courierWord (prepareVirtioInput text).1 req
  sender := firstForegroundTask
  caps := courierCaps (taskNsCap ns)
  input := (prepareVirtioInput text).2

def reqCairnVerify : ℕ := 47

def commitRequest (ns : ℕ) (ahd : UInt16) (derived : ℕ) (rev : UInt8) (text : List UInt8) :
    Request :=
  clientRequest ns (cairnReqIntent reqCairnCommit ns ahd derived rev) text

def getRequest (ns : ℕ) : Request := clientRequest ns (cairnReq reqCairnGet ns 0) []

def verifyRequest (ns : ℕ) : Request := clientRequest ns (cairnReq reqCairnVerify ns 0) []

def clientStatus (reply : Option Reply) : Option ℕ := reply.map fun r => responseStatus r.word

def windowValue (w : Bytes) : List UInt8 :=
  let sector := toList w 0 512
  sector.take ((sector.findIdx? (· == 0)).getD 448)

def cairnGetValue (reply : Option Reply) : Option (List UInt8) :=
  reply.bind fun r => if responseStatus r.word ≠ 0 then none else some (windowValue r.window)

theorem responseStatus_replyWord (word : ℕ) (st : Status) :
    responseStatus (replyWord word st) = st.code :=
  responseStatus_typedWord (lt_of_le_of_lt Nat.and_le_right (by decide))
    (lt_of_le_of_lt Nat.and_le_right (by decide)) (status_code_lt st)

theorem code_eq_zero {st : Status} : st.code = 0 ↔ st = .ok := by
  cases st
  all_goals decide

theorem allowed_client : ∀ ns < nsMax, cairnNsAllowed ns (courierCaps (taskNsCap ns)) = true := by
  decide

theorem decodes_client (base : ℕ) {ns : ℕ} (hb : base < 2 ^ 8) (hns : ns < nsMax)
    (text : List UInt8) :
    ∃ aux i, Decodes (clientRequest ns (cairnReq base ns 0) text) base ns aux i 0 := by
  obtain ⟨aux, i, hd, -⟩ := decodes_cairn (r := clientRequest ns (cairnReq base ns 0) text) hb
    (lt_trans hns (by decide)) rfl
  exact ⟨aux, i, hd⟩

/-! ### The commit -/

section
variable {r : Request}

theorem committed_of_ok (hw : r.wellFormed = true) (hop : r.op = some .cairnCommit) (f : Schedule)
    (hok : clientStatus ((serve fuel r w).run f d).1 = some 0) :
    ∃ d1, SameStore d d1 ∧ next d1 < commitSlots ∧ ((serve fuel r w).run f d).2 =
      committed d1 r.input r.cairnNs r.cairnAux r.sender r.sandIntent r.sandDerived
        r.sandRevclass := by
  have hexec := exec_run (d := d) (serve fuel r w) (Schedule.Within.all f)
  generalize (serve fuel r w).run f d = out at hok hexec ⊢
  rw [serve_eq hw hop] at hexec
  obtain ⟨a, d2, ha, hreply, hd2⟩ := exec_bind.mp hexec
  obtain ⟨b, d3, hb, rfl, rfl⟩ := exec_bind.mp ha
  have hval : b.value = .ok := by
    rw [hreply] at hok
    simpa [clientStatus, responseStatus_replyWord, code_eq_zero] using hok
  rw [hd2]
  rcases gated_cases hb with ⟨hdenied, -⟩ | ⟨hall, x, d1, -, hsame, -, hk⟩
  · rw [hval] at hdenied
    cases hdenied
  · rcases cairnCommit_cases (lt_of_allowed hall).1 hk with ⟨hn, -, rfl⟩ | ⟨hio, -⟩ | ⟨hio, -⟩
    · exact ⟨d1, hsame, hn, rfl⟩
    · rw [hval] at hio
      cases hio
    · rw [hval] at hio
      cases hio

end

/-! ### Reading back -/

theorem eval_withHead {A : Type} {failed : Status → A} {k : ℕ → Bytes → Answer A}
    (hns : ns < nsMax) (hne : head d ns ≠ noSlot) (hc : isCommit (record d (head d ns)) = true) :
    ((withHead w ns failed k).eval d).1 =
      k (head d ns) (load (load w (superOf d)) (d (commitFirstSector + head d ns))) := by
  have hsec : settle d (commitFirstSector + head d ns) = d (commitFirstSector + head d ns) :=
    settle_of_ne d (slot_ne_super _)
  have hwin : isCommit (load (load w (superOf d)) (d (commitFirstSector + head d ns))) = true := by
    rw [isCommit_window, hc]
  rw [withHead, eval_bind, cairnLoadHead, eval_bind, eval_cairnLoadSuper]
  simp [u32At_load_head hns, hne, rw, hsec, hwin]

theorem eval_serve_gated (d : CairnDisk) (fuel : ℕ) {r : Request} {op : Op}
    {k : Bytes → Program Sector (Answer Status)} {g : Answer Status → Option (Answer Status)}
    (hw : r.wellFormed = true) (hop : r.op = some op)
    (hdisp : dispatch fuel op r w = gated ns r.caps w k >>= fun a => pure (g a))
    (hcaps : cairnNsAllowed ns r.caps = true) :
    ∃ a : Answer Status, ((serve fuel r w).eval d).1 =
        (g a).map (fun a => ⟨replyWord r.word a.value, a.window⟩) ∧
      (revoked d ns = 0 → a = ((k (load w (superOf d))).eval (settle d)).1) ∧
      (revoked d ns ≠ 0 → a.value = .denied) := by
  refine ⟨((gated ns r.caps w k).eval d).1, ?_, fun hrev => ?_, fun hrev => ?_⟩
  · rw [serve_eq hw hop, hdisp, eval_bind, eval_bind]
    rfl
  · rw [eval_gated_open hcaps hrev]
  · rw [gated, eval_bind, eval_cairnNsRevoked (lt_of_allowed hcaps).1]
    simp [hrev]

theorem take_findIdx_zero {l : List UInt8} (h : 0 ∈ l) (k : ℕ) :
    l.take ((l.findIdx? (· == 0)).getD k) = l.takeWhile (· != 0) := by
  have hlt : l.findIdx (· == 0) < l.length := List.findIdx_lt_length_of_exists ⟨0, h, rfl⟩
  have hnot : (fun a : UInt8 => !(a != 0)) = (· == 0) := by
    funext a
    simp [bne]
  rw [List.findIdx?_eq_some_iff_findIdx_eq.mpr ⟨hlt, rfl⟩, List.takeWhile_eq_take_findIdx_not, hnot]
  rfl

theorem toList_moveValue (b : Bytes) {len rest : ℕ} (h : len + rest ≤ sectorSize) :
    toList (moveValue b len) 0 (len + rest) = toList b valueOff len ++ List.replicate rest 0 := by
  simp only [toList, List.range_add, List.map_append, List.map_map]
  congr 1
  · refine List.map_congr_left fun i hi => ?_
    simp [moveValue, List.mem_range.mp hi]
  · rw [List.eq_replicate_iff]
    refine ⟨by simp, fun x hx => ?_⟩
    obtain ⟨i, hi, rfl⟩ := List.mem_map.mp hx
    have hlt : len + i < sectorSize := by
      have := List.mem_range.mp hi
      omega
    simp [moveValue, hlt]

theorem takeWhile_take_eq {s : List UInt8} {n : ℕ} :
    (s.take n).takeWhile (· != 0) = s ↔ s.length ≤ n ∧ 0 ∉ s := by
  constructor
  · intro h
    have hlen := (List.takeWhile_sublist (p := (· != (0 : UInt8))) (l := s.take n)).length_le
    rw [h] at hlen
    refine ⟨hlen.trans (List.length_take_le n s), fun hz => ?_⟩
    rw [← h] at hz
    simpa using List.mem_takeWhile_imp hz
  · rintro ⟨hlen, hz⟩
    rw [List.take_of_length_le hlen]
    refine List.takeWhile_eq_self_iff.mpr fun x hx => ?_
    have hne : x ≠ 0 := by
      rintro rfl
      exact hz hx
    simpa using hne

theorem fnv64_of_toList {b c : Bytes} {o p n : ℕ} (h : toList b o n = toList c p n) :
    fnv64 b o n = fnv64 c p n := by
  have hlist : ∀ (b : Bytes) (o : ℕ), fnv64 b o n = (toList b o n).foldl
      (fun h x => (h ^^^ x.toUInt64) * 0x100000001b3) 0xcbf29ce484222325 := fun b o => by
    simp [fnv64, toList, List.foldl_map]
  rw [hlist, hlist, h]

section
variable {sender : ℕ} {intent derived : UInt32} {b : Bytes}

/-- What a record keeps of a value. -/
structure Keeps (b : Bytes) (s : List UInt8) : Prop where
  isCommit : isCommit b = true
  len : u32At b offLen = min s.length 447
  value : toList b valueOff (min s.length 447) = s.take 447
  hash : u64At b offHash = (fnv64 b valueOff (min s.length 447)).toNat

theorem toList_ofList_take (s : List UInt8) (n : ℕ) :
    toList (ofList s) 0 (min s.length n) = s.take n := by
  refine List.ext_getElem (by simp [Nat.min_comm]) fun i h1 h2 => ?_
  have hi : i < s.length := by
    rw [length_toList] at h1
    omega
  simp [toList, ofList, hi]

theorem keeps_newCommit (len : ℕ) (hlen : min len (valueMax - 1) = min s.length 447) :
    Keeps (bytes (newCommit d (ofList s) ns len sender intent derived rev)) s := by
  have hle : min s.length 447 ≤ valueMax := by
    have : valueMax = 448 := rfl
    omega
  rw [newCommit, hlen]
  generalize hh : commitHeader (next d) (head d ns) ns (count d ns) (min s.length 447) sender intent
    derived rev (ofList s) = h
  have hlist : toList (bytes (commitSector h (ofList s) (min s.length 447))) valueOff
      (min s.length 447) = toList (ofList s) 0 (min s.length 447) := toList_commitSector hle
  have hhead : header (bytes (commitSector h (ofList s) (min s.length 447))) = _ :=
    header_commitSector.trans (header_encode _ _)
  refine ⟨isCommit_commitSector, ?_, hlist.trans (toList_ofList_take s 447), ?_⟩
  · refine (congrArg CommitHeader.len hhead).trans ?_
    rw [← hh]
    exact Nat.mod_eq_of_lt (by simp only [commitHeader]; omega)
  · refine (congrArg CommitHeader.hash hhead).trans ?_
    rw [fnv64_of_toList hlist, ← hh]
    exact Nat.mod_eq_of_lt (UInt64.toNat_lt _)

theorem Keeps.load {x : Sector} (h : Keeps (bytes x) s) (w : Bytes) : Keeps (load w x) s := by
  have hvalue : toList (ByteLayout.load w x) valueOff (min s.length 447) =
      toList (bytes x) valueOff (min s.length 447) := by
    refine List.map_congr_left fun i hi => load_of_lt ?_
    have := List.mem_range.mp hi
    simp only [valueOff, sectorSize]
    omega
  exact ⟨isCommit_load.trans h.isCommit, (congrArg CommitHeader.len header_load).trans h.len,
    hvalue.trans h.value, (congrArg CommitHeader.hash header_load).trans
      (h.hash.trans (congrArg UInt64.toNat (fnv64_of_toList hvalue).symm))⟩

theorem Keeps.windowValue (h : Keeps b s) :
    windowValue (moveValue b (u32At b offLen)) = (s.take 447).takeWhile (· != 0) := by
  have hsplit : min s.length 447 + (512 - min s.length 447) = 512 := by omega
  have hsector : toList (moveValue b (u32At b offLen)) 0 512 =
      s.take 447 ++ List.replicate (512 - min s.length 447) 0 := by
    have hmove : toList (moveValue b (min s.length 447)) 0
        (min s.length 447 + (512 - min s.length 447)) = _ := toList_moveValue b (by
      simp only [sectorSize]
      omega)
    rw [h.len, ← h.value, ← hmove, hsplit]
  have hzero : (0 : UInt8) ∈ s.take 447 ++ List.replicate (512 - min s.length 447) 0 :=
    List.mem_append_right _ (List.mem_replicate.mpr ⟨by omega, rfl⟩)
  rw [ValueRoundTrip.windowValue, hsector, take_findIdx_zero hzero, List.takeWhile_append]
  split_ifs with hall
  · have hself : (s.take 447).takeWhile (· != 0) = s.take 447 :=
      (List.takeWhile_sublist _).eq_of_length hall
    rw [hself]
    simp
  · rfl

theorem keeps_committed (hn : next d < commitSlots) (hns : ns < nsMax) (len : ℕ)
    (hlen : min len (valueMax - 1) = min s.length 447) :
    head (committed d (ofList s) ns len sender intent derived rev) ns ≠ noSlot ∧
      Keeps (record (committed d (ofList s) ns len sender intent derived rev)
        (head (committed d (ofList s) ns len sender intent derived rev) ns)) s := by
  have hn' : next d < 255 := hn
  rw [head_committed hn hns, if_pos rfl, record, committed_slot, if_pos rfl]
  refine ⟨?_, keeps_newCommit len hlen⟩
  simp only [noSlot]
  omega

theorem keeps_settle (hne : head d ns ≠ noSlot) (hk : Keeps (record d (head d ns)) s) :
    head (settle d) ns ≠ noSlot ∧ Keeps (record (settle d) (head (settle d) ns)) s := by
  rw [(SameStore.settle d).head_eq ns, record_settle]
  exact ⟨hne, hk⟩

section
variable (hns : ns < nsMax) (hne : head d ns ≠ noSlot) (hk : Keeps (record d (head d ns)) s)
include hns hne hk

theorem cairnGet_kept (w : Bytes) : ∃ v, copyValue ((cairnGet w ns).eval d).1 = some ⟨.ok, v⟩ ∧
    windowValue v = (s.take 447).takeWhile (· != 0) := by
  have hkept := hk.load (load w (superOf d))
  have hmapped : valueOff + u32At (load (load w (superOf d)) (d (commitFirstSector + head d ns)))
      offLen ≤ mappedBytes := by
    rw [hkept.len]
    simp only [valueOff, mappedBytes]
    omega
  rw [cairnGet, eval_withHead hns hne hk.isCommit]
  exact ⟨_, (if_pos rfl).trans (if_pos hmapped), hkept.windowValue⟩

theorem cairnVerify_kept (w : Bytes) : ((cairnVerify w ns).eval d).1.value = .ok := by
  have hwin := hk.load (load w (superOf d))
  have hmin : min (min s.length 447) valueMax = min s.length 447 := by
    have : valueMax = 448 := rfl
    omega
  have hhash := hwin.hash
  rw [← hmin, ← hwin.len] at hhash
  rw [cairnVerify, eval_withHead hns hne hk.isCommit]
  exact if_pos hhash

theorem serve_get_kept {r : Request} {aux i : ℕ} (hd : Decodes r reqCairnGet ns aux i 0)
    (hcaps : cairnNsAllowed ns r.caps = true) (fuel : ℕ) (w : Bytes) :
    cairnGetValue ((serve fuel r w).eval d).1 =
      if revoked d ns = 0 then some ((s.take 447).takeWhile (· != 0)) else none := by
  obtain ⟨hne', hk'⟩ := keeps_settle hne hk
  obtain ⟨a, ha, hopen, hdenied⟩ := eval_serve_gated d fuel (w := w) (k := fun w => cairnGet w ns)
    (g := copyValue) hd.wellFormed hd.op (by rw [dispatch, hd.cairnNs]; rfl) hcaps
  rw [ha]
  split_ifs with hrev
  · obtain ⟨v, hcopy, hwin⟩ := cairnGet_kept hns hne' hk' (load w (superOf d))
    rw [hopen hrev, hcopy]
    simp [cairnGetValue, responseStatus_replyWord, hwin, Status.code]
  · have hcopy : copyValue a = some a := if_neg (by simp [hdenied hrev])
    rw [hcopy]
    simp [cairnGetValue, responseStatus_replyWord, hdenied hrev, Status.code]

theorem get_kept (fuel : ℕ) (w : Bytes) :
    cairnGetValue ((serve fuel (getRequest ns) w).eval d).1 =
      if revoked d ns = 0 then some ((s.take 447).takeWhile (· != 0)) else none := by
  obtain ⟨aux, i, hd⟩ : ∃ aux i, Decodes (getRequest ns) reqCairnGet ns aux i 0 :=
    decodes_client reqCairnGet (by decide) hns []
  exact serve_get_kept hns hne hk hd (allowed_client ns hns) fuel w

theorem verify_kept (fuel : ℕ) (w : Bytes) :
    clientStatus ((serve fuel (verifyRequest ns) w).eval d).1 = some 0 ↔ revoked d ns = 0 := by
  obtain ⟨hne', hk'⟩ := keeps_settle hne hk
  obtain ⟨aux, i, hd⟩ : ∃ aux i, Decodes (verifyRequest ns) reqCairnVerify ns aux i 0 :=
    decodes_client reqCairnVerify (by decide) hns []
  obtain ⟨a, ha, hopen, hdenied⟩ := eval_serve_gated d fuel (w := w)
    (k := fun w => cairnVerify w ns) (g := some) hd.wellFormed hd.op
    (by rw [dispatch, hd.cairnNs]; rfl) (allowed_client ns hns)
  rw [ha, clientStatus]
  by_cases hrev : revoked d ns = 0
  · have hok := cairnVerify_kept hns hne' hk' (load w (superOf d))
    rw [← hopen hrev] at hok
    simp [responseStatus_replyWord, hok, Status.code, hrev]
  · simp [responseStatus_replyWord, hdenied hrev, Status.code, hrev]

end

end

section
variable (hns : ns < nsMax) (hs : s.length ≤ 511)
  (ahd : UInt16) {derived : ℕ} (hderived : derived < 32) (hrev : rev.toNat < 4)
include hns hs hderived hrev

theorem commit_read (fuel : ℕ) (w w₁ w₂ : Bytes) (f : Schedule)
    (hok : clientStatus ((serve fuel (commitRequest ns ahd derived rev s) w).run f d).1 = some 0) :
    cairnGetValue ((serve fuel (getRequest ns) w₁).eval
        ((serve fuel (commitRequest ns ahd derived rev s) w).run f d).2).1 =
      (if revoked d ns = 0 then some ((s.take 447).takeWhile (· != 0)) else none) ∧
    (clientStatus ((serve fuel (verifyRequest ns) w₂).eval
        ((serve fuel (commitRequest ns ahd derived rev s) w).run f d).2).1 = some 0 ↔
      revoked d ns = 0) := by
  have hc := decodes_commit (r := commitRequest ns ahd derived rev s) (lt_trans hns (by decide))
    hderived hrev ahd rfl
  obtain ⟨d1, hsame, hn, hd'⟩ := committed_of_ok hc.wellFormed hc.op f hok
  have hinput : (commitRequest ns ahd derived rev s).input = ofList s :=
    congrArg ofList (List.take_of_length_le hs)
  have hlen : min (commitRequest ns ahd derived rev s).cairnAux (valueMax - 1) =
      min s.length 447 := by
    rw [hc.cairnAux, show (prepareVirtioInput s).1 = min s.length 511 from rfl,
      show valueMax - 1 = 447 from rfl]
    omega
  rw [hinput, hc.cairnNs] at hd'
  obtain ⟨hne, hk⟩ := keeps_committed hn hns _ hlen
  rw [hd', get_kept hns hne hk, verify_kept hns hne hk, revoked_committed hns, hsame.revoked_eq]
  exact ⟨rfl, Iff.rfl⟩

end

/-- After a commit that was answered with success, on a disk that does not fail:
a read of the namespace gives back exactly the value and a verification finds its
hash, if and only if the namespace is not revoked, the value has at most 447 bytes
and there is no zero in it. -/
theorem commit_get_iff (d : CairnDisk) (ns : ℕ) (hns : ns < nsMax) (s : List UInt8)
    (hs : s.length ≤ 511) (ahd : UInt16) (derived : ℕ) (hderived : derived < 32) (rev : UInt8)
    (hrev : rev.toNat < 4) (fuel : ℕ) (w w₁ w₂ : Bytes) (f : Schedule)
    (hok : clientStatus ((serve fuel (commitRequest ns ahd derived rev s) w).run f d).1 = some 0) :
    (cairnGetValue ((serve fuel (getRequest ns) w₁).eval
        ((serve fuel (commitRequest ns ahd derived rev s) w).run f d).2).1 = some s ∧
      clientStatus ((serve fuel (verifyRequest ns) w₂).eval
        ((serve fuel (commitRequest ns ahd derived rev s) w).run f d).2).1 = some 0) ↔
      revoked d ns = 0 ∧ s.length ≤ 447 ∧ 0 ∉ s := by
  obtain ⟨hget, hverify⟩ := commit_read hns hs ahd hderived hrev fuel w w₁ w₂ f hok
  rw [hget, hverify, Option.ite_none_right_eq_some, Option.some.injEq, takeWhile_take_eq]
  tauto

theorem blank_open : revoked blank 0 = 0 ∧ next blank < commitSlots := by decide +kernel

theorem commit_get_iff_letter :
    cairnGetValue ((serve 0 (getRequest 0) fun _ => 0).eval
        ((serve 0 (commitRequest 0 0 0 0 [0x61]) fun _ => 0).run .clean blank).2).1 = some [0x61] :=
  have hok : clientStatus ((serve 0 (commitRequest 0 0 0 0 [0x61]) fun _ => 0).run .clean blank).1 =
      some 0 := by decide +kernel
  ((commit_get_iff blank 0 (by decide) [0x61] (by decide) 0 0 (by decide) 0 (by decide) 0
    (fun _ => 0) (fun _ => 0) (fun _ => 0) .clean hok).mpr ⟨blank_open.1, by decide, by decide⟩).1

def longValue : List UInt8 := List.replicate 448 0x61

/-- The kernel stages the whole value, the commit is answered with success, and
the read gives one byte less. -/
theorem long_value_cut :
    Attained blank ∧ next blank < commitSlots ∧ longValue.length ≤ 511 ∧
      clientStatus ((serve 0 (commitRequest 0 0 0 0 longValue) fun _ => 0).run .clean blank).1 =
        some 0 ∧
      cairnGetValue ((serve 0 (getRequest 0) fun _ => 0).eval
        ((serve 0 (commitRequest 0 0 0 0 longValue) fun _ => 0).run .clean blank).2).1 =
          some (List.replicate 447 0x61) := by
  have hlen : longValue.length ≤ 511 := by
    rw [longValue, List.length_replicate]
    omega
  have hok : clientStatus
      ((serve 0 (commitRequest 0 0 0 0 longValue) fun _ => 0).run .clean blank).1 = some 0 := by
    decide +kernel
  have hread := (commit_read (by decide) hlen 0 (by decide) (by decide) 0 _ (fun _ => 0)
    (fun _ => 0) .clean hok).1
  refine ⟨reachable_blank, blank_open.2, hlen, hok, hread.trans ?_⟩
  have hcut : (longValue.take 447).takeWhile (· != 0) = List.replicate 447 0x61 := by
    rw [longValue, List.take_replicate, List.takeWhile_replicate]
    rfl
  rw [if_pos blank_open.1, hcut]

/-! ### The history of a namespace -/

theorem ledgerWalk_value {cur : ℕ} {l : List ℕ}
    (hc : ParentChain.Chain commitLinks (GoodRecord ns) (record d) cur l)
    (hl : ∀ s ∈ l, s < noSlot) (limit : ℕ) (w : Bytes) :
    ((ledgerWalk limit cur w).eval d).1.value =
      (.ok, (l.take limit).map fun s => (s, header (record d s))) := by
  induction hc generalizing limit w with
  | nil => cases limit <;> rfl
  | @cons slot rest hg _ _ ih =>
    obtain ⟨hs, hl⟩ := List.forall_mem_cons.mp hl
    cases limit with
    | zero => rfl
    | succ limit =>
      have hrest w : ((ledgerWalk limit (header (record d slot)).parent w).eval d).1.value = _ :=
        ih hl limit w
      rw [ledgerWalk, if_neg hs.ne]
      simp [eval_bind, rw, isCommit_window, hg.commit, parent_window, header_load, hrest]
      rfl

/-- The log lists the eight newest records, newest first. -/
theorem log_exact (h : Attained d) (hns : ns < nsMax) :
    ((cairnLog w ns).eval d).1.value =
      (.ok, ((liveChain d ns).take 8).map fun s => (s, header (record d s))) := by
  have hc := h.storeInv.chain ns hns
  rw [← funext (record_settle d)] at hc ⊢
  rw [cairnLog, ledgerView, eval_bind, eval_cairnLoadSuper]
  simp only [if_true, u32At_load_head hns]
  exact ledgerWalk_value hc (StoreInv.lt_noSlot h.storeInv hns) 8 _

theorem log_exact_noted :
    ((cairnLog (fun _ => 0) 4).eval noted).1.value =
      (.ok, ((liveChain noted 4).take 8).map fun s => (s, header (record noted s))) :=
  log_exact reachable_noted (by decide)

/-- A rollback takes the newest records off its own namespace and no other. -/
theorem rollback_exact (h : Attained d) (hns : ns < nsMax) (hne : head d ns ≠ noSlot)
    (steps : ℕ) (hm : m < nsMax) :
    ((cairnRollback w ns steps).eval d).1.value = .ok ∧
      liveChain ((cairnRollback w ns steps).eval d).2 m =
        (liveChain d m).drop (if m = ns then steps else 0) := by
  have hi := h.storeInv
  rcases cairnRollback_cases hns (exec_eval .none (cairnRollback w ns steps) d) with
    ⟨-, hno, -⟩ | ⟨_, _, -, hw, hok, hd⟩ | ⟨-, hK | hK, -⟩
  · exact absurd hno hne
  · have hi' := hi.move retreated_extends (next_retreated.trans_le hi.next_le)
      fun m hm => ⟨_, retreated_refMove hi hns hw hm⟩
    rw [hd]
    exact ⟨hok.resolve_right (·.2),
      (retreated_refMove hi hns hw hm).liveChain_eq hi hi' retreated_extends hm⟩
  · rcases hK with hK | hK | hK <;> exact hK.elim
  · rw [StoreInv.walkBack_eq hi hns] at hK
    cases hK

theorem rollback_exact_noted :
    liveChain ((cairnRollback (fun _ => 0) 4 1).eval noted).2 4 = (liveChain noted 4).drop 1 :=
  (rollback_exact reachable_noted (by decide) (by decide +kernel) 1 (by decide)).2

end Dezh.ValueRoundTrip

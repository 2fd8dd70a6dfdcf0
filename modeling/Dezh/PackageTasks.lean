import Dezh.BlockDaemon
import Dezh.IrAuthority
import Dezh.PackageFormat

/-!
# What a launched package may send

A package is launched with an effective set of manifest capabilities and the id of
the intent it runs under, zero for a direct run. A bytecode package runs in the
interpreter; its store calls become requests that the kernel packs and a courier
task of the kernel's choice sends. A native package runs as a task of its own. It
holds the task capabilities derived from the manifest and sends any word it likes
as long as it holds the IPC capability; the kernel attests its capabilities and
nothing else.
-/
namespace Dezh.PackageTasks
open ByteLayout CairnFormat CairnService BlockDaemon PackageFormat IrMachine

variable {mcaps ns len : ℕ} {r : Request}

/-! ### From the manifest to the authority -/

def mcapPrint : ℕ := 1 <<< 0
def mcapIpc : ℕ := 1 <<< 1
def mcapUptime : ℕ := 1 <<< 2
def mcapCairnRead : ℕ := 1 <<< 3
def mcapCairnWrite : ℕ := 1 <<< 4

def taskPrint : ℕ := 1 <<< 0
def taskTime : ℕ := 1 <<< 1
def taskIpc : ℕ := 1 <<< 2
def taskBlockRead : ℕ := 1 <<< 4
def taskBlockWrite : ℕ := 1 <<< 5

def cairnNsId (name : Text) : Option ℕ := nsNames.findIdx? (· == name)

def taskNsCap (ns : ℕ) : ℕ := 1 <<< (taskCairnNsBase + ns)

def irCapsFrom (mcaps : ℕ) : ℕ :=
  let c := if mcaps &&& mcapPrint ≠ 0 then capPrint else 0
  let c := if mcaps &&& mcapCairnRead ≠ 0 then c ||| capRead else c
  if mcaps &&& mcapCairnWrite ≠ 0 then c ||| capWrite else c

def appCairnNs (mcaps : ℕ) (name : Text) : Option ℕ :=
  if mcaps &&& (mcapCairnRead ||| mcapCairnWrite) = 0 then none else cairnNsId name

def commonCaps (mcaps : ℕ) : ℕ :=
  let c := if mcaps &&& mcapPrint ≠ 0 then taskPrint else 0
  let c := if mcaps &&& mcapIpc ≠ 0 then c ||| taskIpc else c
  if mcaps &&& mcapUptime ≠ 0 then c ||| taskTime else c

def taskCapsFrom (mcaps : ℕ) (name : Text) : ℕ :=
  if mcaps &&& (mcapCairnRead ||| mcapCairnWrite) ≠ 0 then
    match cairnNsId name with
    | some ns => commonCaps mcaps ||| taskNsCap ns
    | none => commonCaps mcaps
  else commonCaps mcaps

/-! ### Requests of the courier -/

def firstForegroundTask : ℕ := 1

def cairnReq (base ns steps : ℕ) : ℕ := base ||| ns <<< 8 ||| min steps 0xfff <<< 12

def cairnReqIntent (base ns : ℕ) (ahd : UInt16) (derived : ℕ) (revClass : UInt8) : ℕ :=
  let statusByte := derived &&& 0x1f ||| (revClass.toNat &&& 0x3) <<< 5
  cairnReq base ns 0 ||| ahd.toNat <<< 24 ||| statusByte <<< 40

def reqCairnCommit : ℕ := 43
def reqCairnGet : ℕ := 44
def reqCairnRollback : ℕ := 46
def reqSfarPlan : ℕ := 51
def reqSfarRollback : ℕ := 52
def reqTbar : ℕ := 53

def courierWord (inputLen req : ℕ) : ℕ :=
  let base := req &&& 0xff
  let cairnNs := (req >>> 8) &&& 0xf
  let cairnSteps := (req >>> 12) &&& 0xfff
  let sandIntent := (req >>> 24) &&& 0xffff
  let sandStatusByte := (req >>> 40) &&& 0xff
  let arg :=
    if base = reqCairnCommit then cairnNs <<< 12 ||| min inputLen 0xfff
    else if base = reqCairnRollback then cairnNs <<< 12 ||| cairnSteps
    else cairnNs <<< 12
  if base = reqCairnCommit then typedWord base sandIntent sandStatusByte arg
  else if base = reqSfarPlan ∨ base = reqSfarRollback ∨ base = reqTbar then
    typedWord base sandIntent 0 arg
  else typedWord base 1 0 arg

def courierCaps (extra : ℕ) : ℕ :=
  taskPrint ||| taskIpc ||| taskBlockRead ||| taskBlockWrite ||| extra

def sandRevReversible : UInt8 := 0

/-! ### Launches -/

/-- A package and the authority it is launched with. -/
structure Launch where
  kind : ℕ
  name : Text
  mcaps : ℕ
  intent : UInt16
  mcaps_lt : mcaps < 2 ^ 5

namespace Launch

def taskCaps (l : Launch) : ℕ := taskCapsFrom l.mcaps l.name

def cairnNs (l : Launch) : Option ℕ := appCairnNs l.mcaps l.name

/-- A host that answers as it likes and holds the capabilities of the launch. -/
def Hosts {S : Type} (l : Launch) (h : Host S) : Prop :=
  ∀ s c, h.can s c = (irCapsFrom l.mcaps &&& c != 0)

def putRequest (l : Launch) (ns : ℕ) (data : List UInt8) : Request where
  word := courierWord data.length
    (cairnReqIntent reqCairnCommit ns l.intent l.mcaps sandRevReversible)
  sender := firstForegroundTask
  caps := courierCaps (taskNsCap ns)
  input := ofList data

def loadRequest (ns : ℕ) (input : Bytes) : Request where
  word := courierWord 0 (cairnReq reqCairnGet ns 0)
  sender := firstForegroundTask
  caps := courierCaps (taskNsCap ns)
  input := input

/-- The requests a launched package can cause. -/
inductive Sends (l : Launch) : Request → Prop
  | native (hk : l.kind = kindElfRiscv64) (hipc : l.taskCaps &&& taskIpc ≠ 0) (word sender : ℕ)
      (input : Bytes) : l.Sends ⟨word, sender, l.taskCaps, input⟩
  | put {S : Type} {h : Host S} {p : Profile} {code data : List UInt8} {n ns : ℕ} {s : S} {q : S}
      (hk : l.kind = kindDezhIr) (hh : l.Hosts h)
      (he : (q, .cairnPut data) ∈ effects (IrMachine.run p h code n s))
      (hns : l.cairnNs = some ns) : l.Sends (l.putRequest ns data)
  | get {S : Type} {h : Host S} {p : Profile} {code buf : List UInt8} {n ns : ℕ} {s : S} {q : S}
      (hk : l.kind = kindDezhIr) (hh : l.Hosts h)
      (he : (q, .cairnGet buf) ∈ effects (IrMachine.run p h code n s))
      (hns : l.cairnNs = some ns) (input : Bytes) : l.Sends (loadRequest ns input)

end Launch

/-! ### The fields of a word -/

theorem or_eq_add {a b i : ℕ} (ha : 2 ^ i ∣ a) (hb : b < 2 ^ i) : a ||| b = a + b := by
  obtain ⟨k, rfl⟩ := ha
  rw [Nat.mul_comm, ← Nat.shiftLeft_eq, Nat.shiftLeft_add_eq_or_of_lt hb]

theorem typedWord_eq {op id status arg : ℕ} (ho : op < 2 ^ 8) (hi : id < 2 ^ 16)
    (hs : status < 2 ^ 8) (ha : arg < 2 ^ 16) :
    typedWord op id status arg =
      0xd1 * 2 ^ 56 + 2 ^ 48 + op * 2 ^ 40 + id * 2 ^ 24 + status * 2 ^ 16 + arg := by
  have m8 : ∀ x < 2 ^ 8, x &&& 0xff = x := fun x hx => by
    rw [show 0xff = 2 ^ 8 - 1 from rfl, Nat.and_two_pow_sub_one_eq_mod, Nat.mod_eq_of_lt hx]
  have m16 : ∀ x < 2 ^ 16, x &&& 0xffff = x := fun x hx => by
    rw [show 0xffff = 2 ^ 16 - 1 from rfl, Nat.and_two_pow_sub_one_eq_mod, Nat.mod_eq_of_lt hx]
  rw [typedWord, m8 _ ho, m16 _ hi, m8 _ hs, m16 _ ha, m8 _ (by decide : ipcServiceVirtioBlock < _)]
  simp only [Nat.shiftLeft_eq, ipcProtoV1, ipcServiceVirtioBlock]
  have h1 : 0xd1 * 2 ^ 56 ||| 1 * 2 ^ 48 = 0xd1 * 2 ^ 56 + 2 ^ 48 := rfl
  have h2 := or_eq_add (a := 0xd1 * 2 ^ 56 + 2 ^ 48) (b := op * 2 ^ 40) (i := 48) (by omega)
    (by omega)
  have h3 := or_eq_add (a := 0xd1 * 2 ^ 56 + 2 ^ 48 + op * 2 ^ 40) (b := id * 2 ^ 24) (i := 40)
    (by omega) (by omega)
  have h4 := or_eq_add (a := 0xd1 * 2 ^ 56 + 2 ^ 48 + op * 2 ^ 40 + id * 2 ^ 24)
    (b := status * 2 ^ 16) (i := 24) (by omega) (by omega)
  have h5 := or_eq_add (a := 0xd1 * 2 ^ 56 + 2 ^ 48 + op * 2 ^ 40 + id * 2 ^ 24 + status * 2 ^ 16)
    (b := arg) (i := 16) (by omega) (by omega)
  rw [h1, h2, h3, h4, h5]

theorem field_eq (x lo width : ℕ) : (x >>> lo) &&& (2 ^ width - 1) = x / 2 ^ lo % 2 ^ width := by
  rw [Nat.and_two_pow_sub_one_eq_mod, Nat.shiftRight_eq_div_pow]

section
variable {op id status arg : ℕ} (ho : op < 2 ^ 8) (hi : id < 2 ^ 16) (hs : status < 2 ^ 8)
  (ha : arg < 2 ^ 16)
include ho hi hs ha

theorem wellFormed_typedWord (hr : r.word = typedWord op id status arg) : r.wellFormed = true := by
  have hp : requestProto r.word = ipcProtoV1 := by
    rw [requestProto, hr, typedWord_eq ho hi hs ha, show 0xff = 2 ^ 8 - 1 from rfl, field_eq]
    simp only [ipcProtoV1]
    omega
  have hv : requestService r.word = ipcServiceVirtioBlock := by
    rw [requestService, hr, typedWord_eq ho hi hs ha, show 0xff = 2 ^ 8 - 1 from rfl, field_eq]
    simp only [ipcServiceVirtioBlock]
    omega
  simp [Request.wellFormed, hp, hv]

theorem requestOp_typedWord : requestOp (typedWord op id status arg) = op := by
  rw [requestOp, typedWord_eq ho hi hs ha, show 0xff = 2 ^ 8 - 1 from rfl, field_eq]
  omega

theorem requestId_typedWord : requestId (typedWord op id status arg) = id := by
  rw [requestId, typedWord_eq ho hi hs ha, show 0xffff = 2 ^ 16 - 1 from rfl, field_eq]
  omega

theorem requestArg_typedWord : requestArg (typedWord op id status arg) = arg := by
  rw [requestArg, typedWord_eq ho hi hs ha, show 0xffff = 2 ^ 16 - 1 from rfl,
    Nat.and_two_pow_sub_one_eq_mod]
  omega

theorem statusByte_typedWord (hr : r.word = typedWord op id status arg) :
    r.statusByte = status := by
  rw [Request.statusByte, hr, typedWord_eq ho hi hs ha, show 0xff = 2 ^ 8 - 1 from rfl, field_eq]
  omega

end

section
variable {name : Text}

theorem cairnNsId_lt (h : cairnNsId name = some ns) : ns < 5 := by
  obtain ⟨hlt, -⟩ := List.findIdx?_eq_some_iff_getElem.mp h
  exact hlt

theorem cairnNs_lt {l : Launch} (h : l.cairnNs = some ns) : ns < 5 := by
  rw [Launch.cairnNs, appCairnNs] at h
  split_ifs at h
  exact cairnNsId_lt h

end

/-! ### From the kernel through the courier to the daemon -/

def packedWord (base ns steps ahd st : ℕ) : ℕ :=
  base + ns * 2 ^ 8 + steps * 2 ^ 12 + ahd * 2 ^ 24 + st * 2 ^ 40

section
variable {base steps ahd st : ℕ} (hb : base < 2 ^ 8) (hns : ns < 2 ^ 4)
  (hsteps : steps < 2 ^ 12) (hahd : ahd < 2 ^ 16) (hst : st < 2 ^ 8)
include hb hns hsteps hahd

theorem or_eq_packedWord :
    base ||| ns <<< 8 ||| steps <<< 12 ||| ahd <<< 24 ||| st <<< 40 =
      packedWord base ns steps ahd st := by
  simp only [Nat.shiftLeft_eq, packedWord]
  have h1 := or_eq_add (a := ns * 2 ^ 8) (b := base) (i := 8) (by omega) (by omega)
  have h2 := or_eq_add (a := steps * 2 ^ 12) (b := ns * 2 ^ 8 + base) (i := 12) (by omega) (by omega)
  have h3 := or_eq_add (a := ahd * 2 ^ 24) (b := steps * 2 ^ 12 + (ns * 2 ^ 8 + base)) (i := 24)
    (by omega) (by omega)
  have h4 := or_eq_add (a := st * 2 ^ 40)
    (b := ahd * 2 ^ 24 + (steps * 2 ^ 12 + (ns * 2 ^ 8 + base))) (i := 40) (by omega) (by omega)
  rw [Nat.or_comm base, h1, Nat.or_comm _ (steps * 2 ^ 12), h2, Nat.or_comm _ (ahd * 2 ^ 24), h3,
    Nat.or_comm _ (st * 2 ^ 40), h4]
  omega

include hst

theorem courierWord_packedWord :
    courierWord len (packedWord base ns steps ahd st) =
      if base = reqCairnCommit then typedWord base ahd st (ns * 2 ^ 12 + min len 0xfff)
      else if base = reqCairnRollback then typedWord base 1 0 (ns * 2 ^ 12 + steps)
      else if base = reqSfarPlan ∨ base = reqSfarRollback ∨ base = reqTbar then
        typedWord base ahd 0 (ns * 2 ^ 12)
      else typedWord base 1 0 (ns * 2 ^ 12) := by
  have hbase : packedWord base ns steps ahd st &&& 0xff = base := by
    rw [packedWord, show 0xff = 2 ^ 8 - 1 from rfl, Nat.and_two_pow_sub_one_eq_mod]
    omega
  have hnsField : (packedWord base ns steps ahd st >>> 8) &&& 0xf = ns := by
    rw [packedWord, show 0xf = 2 ^ 4 - 1 from rfl, field_eq]
    omega
  have hstepsField : (packedWord base ns steps ahd st >>> 12) &&& 0xfff = steps := by
    rw [packedWord, show 0xfff = 2 ^ 12 - 1 from rfl, field_eq]
    omega
  have hintent : (packedWord base ns steps ahd st >>> 24) &&& 0xffff = ahd := by
    rw [packedWord, show 0xffff = 2 ^ 16 - 1 from rfl, field_eq]
    omega
  have hstatus : (packedWord base ns steps ahd st >>> 40) &&& 0xff = st := by
    rw [packedWord, show 0xff = 2 ^ 8 - 1 from rfl, field_eq]
    omega
  have hlen : ns * 2 ^ 12 ||| min len 0xfff = ns * 2 ^ 12 + min len 0xfff :=
    or_eq_add (i := 12) (by omega) (by omega)
  have harg : ns * 2 ^ 12 ||| steps = ns * 2 ^ 12 + steps := or_eq_add (i := 12) (by omega) hsteps
  simp only [courierWord, hbase, hnsField, hstepsField, hintent, hstatus, Nat.shiftLeft_eq, hlen,
    harg]
  by_cases hc : base = reqCairnCommit
  · simp [hc]
  · by_cases hr : base = reqCairnRollback
    · subst hr
      simp [reqCairnCommit, reqCairnRollback, reqSfarPlan, reqSfarRollback, reqTbar]
    · simp [hc, hr]

end

/-- What the daemon reads out of a word of the courier. -/
structure Decodes (r : Request) (base ns aux intent st : ℕ) : Prop where
  wellFormed : r.wellFormed = true
  op : r.op = Op.ofCode base
  cairnNs : r.cairnNs = ns
  cairnAux : r.cairnAux = aux
  sandIntent : r.sandIntent.toNat = intent
  sandDerived : r.sandDerived.toNat = st % 2 ^ 5
  sandRevclass : r.sandRevclass.toNat = st / 2 ^ 5 % 2 ^ 2

theorem decodes_typedWord {base ns aux intent st : ℕ} (hb : base < 2 ^ 8)
    (hns : ns < 2 ^ 4) (haux : aux < 2 ^ 12) (hi : intent < 2 ^ 16) (hst : st < 2 ^ 8)
    (hr : r.word = typedWord base intent st (ns * 2 ^ 12 + aux)) : Decodes r base ns aux intent st := by
  have harg : ns * 2 ^ 12 + aux < 2 ^ 16 := by omega
  have hstatus := statusByte_typedWord hb hi hst harg hr
  have hword := requestArg_typedWord hb hi hst harg
  refine ⟨wellFormed_typedWord hb hi hst harg hr, ?_, ?_, ?_, ?_, ?_, ?_⟩
  · rw [Request.op, hr, requestOp_typedWord hb hi hst harg]
  · rw [Request.cairnNs, hr, hword, show 0xf = 2 ^ 4 - 1 from rfl, field_eq]
    omega
  · rw [Request.cairnAux, hr, hword, show 0xfff = 2 ^ 12 - 1 from rfl,
      Nat.and_two_pow_sub_one_eq_mod]
    omega
  · rw [Request.sandIntent, hr, requestId_typedWord hb hi hst harg, UInt32.toNat_ofNat']
    omega
  · rw [Request.sandDerived, hstatus, show 0x1f = 2 ^ 5 - 1 from rfl,
      Nat.and_two_pow_sub_one_eq_mod, UInt32.toNat_ofNat']
    omega
  · rw [Request.sandRevclass, hstatus, show 0x3 = 2 ^ 2 - 1 from rfl, field_eq, UInt8.toNat_ofNat']
    omega

section
variable {rev : UInt8} (hns : ns < 2 ^ 4) (hm : mcaps < 2 ^ 5)
  (hrev : rev.toNat < 4) (ahd : UInt16)
include hns hm hrev

theorem cairnReqIntent_eq :
    cairnReqIntent reqCairnCommit ns ahd mcaps rev =
      packedWord reqCairnCommit ns 0 ahd.toNat (mcaps + rev.toNat * 2 ^ 5) := by
  have hmask : mcaps &&& 0x1f = mcaps := by
    rw [show 0x1f = 2 ^ 5 - 1 from rfl, Nat.and_two_pow_sub_one_eq_mod, Nat.mod_eq_of_lt hm]
  have hclass : rev.toNat &&& 0x3 = rev.toNat := by
    rw [show 0x3 = 2 ^ 2 - 1 from rfl, Nat.and_two_pow_sub_one_eq_mod, Nat.mod_eq_of_lt hrev]
  have hstatus : mcaps &&& 0x1f ||| (rev.toNat &&& 0x3) <<< 5 = mcaps + rev.toNat * 2 ^ 5 := by
    rw [hmask, hclass, Nat.shiftLeft_eq, Nat.or_comm, or_eq_add (i := 5) (by omega) hm]
    omega
  rw [cairnReqIntent, hstatus, cairnReq, Nat.zero_min]
  exact or_eq_packedWord (by decide) hns (by decide) ahd.toNat_lt

theorem decodes_commit
    (hr : r.word = courierWord len (cairnReqIntent reqCairnCommit ns ahd mcaps rev)) :
    Decodes r reqCairnCommit ns (min len 0xfff) ahd.toNat (mcaps + rev.toNat * 2 ^ 5) := by
  have hahd : ahd.toNat < 2 ^ 16 := ahd.toNat_lt
  rw [cairnReqIntent_eq hns hm hrev,
    courierWord_packedWord (by decide) hns (by decide) hahd (by omega), if_pos rfl] at hr
  exact decodes_typedWord (by decide) hns (by omega) hahd (by omega) hr

theorem commitWord_fields
    (hr : r.word = courierWord len (cairnReqIntent reqCairnCommit ns ahd mcaps rev)) :
    r.wellFormed = true ∧ r.op = some .cairnCommit ∧ r.cairnNs = ns ∧ r.cairnAux = min len 0xfff ∧
      r.sandIntent.toNat = ahd.toNat ∧ r.sandDerived.toNat = mcaps ∧ r.sandRevclass = rev := by
  have hd := decodes_commit hns hm hrev ahd hr
  refine ⟨hd.wellFormed, hd.op, hd.cairnNs, hd.cairnAux, hd.sandIntent, ?_, ?_⟩
  · rw [hd.sandDerived]
    omega
  · rw [← UInt8.toNat_inj, hd.sandRevclass]
    omega

end

theorem op_getRequest {ns : ℕ} (hns : ns < 5) (input : Bytes) :
    (Launch.loadRequest ns input).op = some .cairnGet := by
  have h : ∀ ns < 5, Op.ofCode (requestOp (courierWord 0 (cairnReq reqCairnGet ns 0))) =
      some .cairnGet := by decide
  exact h ns hns

/-! ### Capability bits -/

namespace Launch

variable {l : Launch}

theorem taskCaps_eq (l : Launch) :
    l.taskCaps = match l.cairnNs with
      | some ns => commonCaps l.mcaps ||| taskNsCap ns
      | none => commonCaps l.mcaps := by
  unfold taskCaps cairnNs taskCapsFrom appCairnNs
  by_cases h : l.mcaps &&& (mcapCairnRead ||| mcapCairnWrite) = 0
  · rw [if_neg (not_not.mpr h), if_pos h]
  · rw [if_pos h, if_neg h]

theorem taskCaps_ipc (l : Launch) : l.taskCaps &&& taskIpc ≠ 0 ↔ l.mcaps &&& mcapIpc ≠ 0 := by
  have common : ∀ m < 2 ^ 5, commonCaps m &&& taskIpc ≠ 0 ↔ m &&& mcapIpc ≠ 0 := by decide
  have own : ∀ m < 2 ^ 5, ∀ ns < 5,
      (commonCaps m ||| taskNsCap ns) &&& taskIpc ≠ 0 ↔ m &&& mcapIpc ≠ 0 := by decide +kernel
  rw [taskCaps_eq]
  cases h : l.cairnNs with
  | none => exact common l.mcaps l.mcaps_lt
  | some ns => exact own l.mcaps l.mcaps_lt ns (cairnNs_lt h)

theorem holdsNs_taskCaps (l : Launch) {ns : ℕ} (hns : ns < nsMax) :
    holdsNs l.taskCaps ns = true ↔ l.cairnNs = some ns := by
  have common : ∀ m < 2 ^ 5, ∀ ns < nsMax, holdsNs (commonCaps m) ns = false := by decide +kernel
  have own : ∀ m < 2 ^ 5, ∀ k < 5, ∀ ns < nsMax,
      (holdsNs (commonCaps m ||| taskNsCap k) ns = true ↔ k = ns) := by decide +kernel
  rw [taskCaps_eq]
  cases h : l.cairnNs with
  | none => simp [common l.mcaps l.mcaps_lt ns hns]
  | some k =>
    rw [Option.some.injEq]
    exact own l.mcaps l.mcaps_lt k (cairnNs_lt h) ns hns

theorem not_put_of_readOnly {S : Type} {h : Host S} {p : Profile} {code data : List UInt8} {n : ℕ}
    {s q : S} (hh : l.Hosts h) (hro : l.mcaps &&& mcapCairnWrite = 0) :
    (q, Effect.cairnPut data) ∉ effects (IrMachine.run p h code n s) := by
  have bits : ∀ m < 2 ^ 5, m &&& mcapCairnWrite = 0 → irCapsFrom m &&& capWrite = 0 := by decide
  intro he
  obtain ⟨new, heq, hnew⟩ := @run_effects_mono S p h code 0 n (Nat.zero_le n) s
  rw [heq] at he
  have hcan : h.can q capWrite = true := hnew _ he
  rw [hh, bits l.mcaps l.mcaps_lt hro] at hcan
  cases hcan

end Launch

end Dezh.PackageTasks

import Dezh.PackageTasks

/-!
# The words of a store request

A store request is packed three times: the kernel packs it into the word it starts
the courier with, the courier takes that word apart and packs the word of the
message, and the daemon takes the message apart. Each request carries some of the
fields only: a commit its length and its provenance, a rollback its step count, a
mission request its intent. What a request carries arrives as it was packed, a
length or a step count cut at 4095.
-/
namespace Dezh.RequestCodec
open BlockDaemon PackageTasks

def sfarReq (base ns : ℕ) (ahd : UInt16) : ℕ := cairnReq base ns 0 ||| ahd.toNat <<< 24

def reqCairnInit : ℕ := 42
def reqNsGrant : ℕ := 55

/-- The three ways the kernel packs a store request. -/
inductive Packing where
  | cairn (base ns steps : ℕ)
  | commit (ns : ℕ) (ahd : UInt16) (derived : ℕ) (revClass : UInt8)
  | mission (base ns : ℕ) (ahd : UInt16)

namespace Packing

def word : Packing → ℕ
  | cairn base ns steps => cairnReq base ns steps
  | commit ns ahd derived revClass => cairnReqIntent reqCairnCommit ns ahd derived revClass
  | mission base ns ahd => sfarReq base ns ahd

def Valid : Packing → Prop
  | cairn base ns _ => reqCairnInit ≤ base ∧ base ≤ reqNsGrant ∧ ns < 16
  | commit ns _ derived revClass => ns < 16 ∧ derived < 32 ∧ revClass.toNat < 4
  | mission base ns _ => (base = reqSfarPlan ∨ base = reqSfarRollback ∨ base = reqTbar) ∧ ns < 16

instance (p : Packing) : Decidable p.Valid := by
  unfold Valid
  rcases p with _ | _ | _
  all_goals infer_instance

def base : Packing → ℕ
  | cairn base _ _ => base
  | commit _ _ _ _ => reqCairnCommit
  | mission base _ _ => base

def ns : Packing → ℕ
  | cairn _ ns _ => ns
  | commit ns _ _ _ => ns
  | mission _ ns _ => ns

def amount (len : ℕ) : Packing → Option ℕ
  | cairn base _ steps =>
    if base = reqCairnCommit then some len
    else if base = reqCairnRollback then some steps
    else none
  | commit _ _ _ _ => some len
  | mission _ _ _ => none

def intent : Packing → Option ℕ
  | cairn base _ _ => if base = reqCairnCommit then some 0 else none
  | commit _ ahd _ _ => some ahd.toNat
  | mission _ _ ahd => some ahd.toNat

def provenance : Packing → Option (ℕ × ℕ)
  | cairn base _ _ => if base = reqCairnCommit then some (0, 0) else none
  | commit _ _ derived revClass => some (derived, revClass.toNat)
  | mission _ _ _ => none

end Packing

theorem cairnReq_eq {base ns : ℕ} (steps : ℕ) (hb : base < 2 ^ 8) (hns : ns < 2 ^ 4) :
    cairnReq base ns steps = packedWord base ns (min steps 0xfff) 0 0 := by
  rw [← or_eq_packedWord hb hns (by omega) (by omega)]
  simp [cairnReq]

theorem sfarReq_eq {base ns : ℕ} (ahd : UInt16) (hb : base < 2 ^ 8) (hns : ns < 2 ^ 4) :
    sfarReq base ns ahd = packedWord base ns 0 ahd.toNat 0 := by
  rw [← or_eq_packedWord hb hns (by omega) ahd.toNat_lt]
  simp [sfarReq, cairnReq]

theorem isSome_ofCode {base : ℕ} (h : reqCairnInit ≤ base) (h' : base ≤ reqNsGrant) :
    (Op.ofCode base).isSome = true := by
  have hall : ∀ b ≤ reqNsGrant, reqCairnInit ≤ b → (Op.ofCode b).isSome = true := by decide
  exact hall base h' h

section
variable {r : Request} {base ns steps len : ℕ}

theorem decodes_cairn (hb : base < 2 ^ 8) (hns : ns < 2 ^ 4)
    (hr : r.word = courierWord len (cairnReq base ns steps)) :
    ∃ aux intent, Decodes r base ns aux intent 0 ∧ (base = reqCairnCommit → intent = 0) ∧
      ∀ a, (Packing.cairn base ns steps).amount len = some a → aux = min a 0xfff := by
  rw [cairnReq_eq steps hb hns,
    courierWord_packedWord hb hns (by omega) (by decide) (by decide)] at hr
  simp only [Packing.amount]
  split_ifs at hr ⊢ with hc hroll hmission
  · exact ⟨_, 0, decodes_typedWord hb hns (by omega) (by decide) (by decide) hr, fun _ => rfl,
      fun a ha => by rw [Option.some.inj ha]⟩
  · exact ⟨_, 1, decodes_typedWord hb hns (by omega) (by decide) (by decide) hr,
      fun h => absurd h hc, fun a ha => by rw [Option.some.inj ha]⟩
  · exact ⟨0, 0, decodes_typedWord hb hns (by decide) (by decide) (by decide) (by simpa using hr),
      fun _ => rfl, fun a ha => by cases ha⟩
  · exact ⟨0, 1, decodes_typedWord hb hns (by decide) (by decide) (by decide) (by simpa using hr),
      fun h => absurd h hc, fun a ha => by cases ha⟩

theorem decodes_mission {ahd : UInt16}
    (hbase : base = reqSfarPlan ∨ base = reqSfarRollback ∨ base = reqTbar) (hns : ns < 2 ^ 4)
    (hr : r.word = courierWord len (sfarReq base ns ahd)) : Decodes r base ns 0 ahd.toNat 0 := by
  have hb : base < 2 ^ 8 := by
    simp only [reqSfarPlan, reqSfarRollback, reqTbar] at hbase
    omega
  rw [sfarReq_eq ahd hb hns,
    courierWord_packedWord hb hns (by decide) ahd.toNat_lt (by decide)] at hr
  rw [if_neg (by rcases hbase with rfl | rfl | rfl <;> decide),
    if_neg (by rcases hbase with rfl | rfl | rfl <;> decide), if_pos hbase] at hr
  exact decodes_typedWord hb hns (by decide) ahd.toNat_lt (by decide) (by simpa using hr)

end

/-- Every store request the kernel packs reaches the daemon as a well-formed one
with the operation and the namespace it was packed with, and with its intent, its
derived capabilities and its class where it carries them. Its length or step count
arrives capped at 4095. -/
theorem decode_packed (p : Packing) (hp : p.Valid) (len : ℕ) (r : Request)
    (hr : r.word = courierWord len p.word) :
    r.wellFormed = true ∧ r.op = Op.ofCode p.base ∧ r.op.isSome = true ∧ r.cairnNs = p.ns ∧
      (∀ a, p.amount len = some a → r.cairnAux = min a 4095) ∧
      (∀ i, p.intent = some i → r.sandIntent.toNat = i) ∧
      ∀ derived rev, p.provenance = some (derived, rev) →
        r.sandDerived.toNat = derived ∧ r.sandRevclass.toNat = rev := by
  cases p with
  | cairn base ns steps =>
    obtain ⟨hlo, hhi, hns⟩ := hp
    have hb : base < 2 ^ 8 := by
      simp only [reqNsGrant] at hhi
      omega
    obtain ⟨aux, intent, hd, hintent, haux⟩ := decodes_cairn hb hns hr
    refine ⟨hd.wellFormed, hd.op, hd.op ▸ isSome_ofCode hlo hhi, hd.cairnNs,
      fun a ha => hd.cairnAux.trans (haux a ha), fun i hi => ?_, fun derived rev hx => ?_⟩
    · simp only [Packing.intent, Option.ite_none_right_eq_some, Option.some.injEq] at hi
      rw [hd.sandIntent, hintent hi.1, hi.2]
    · simp only [Packing.provenance, Option.ite_none_right_eq_some, Option.some.injEq,
        Prod.mk.injEq] at hx
      rw [hd.sandDerived, hd.sandRevclass, ← hx.2.1, ← hx.2.2]
      exact ⟨rfl, rfl⟩
  | commit ns ahd derived revClass =>
    obtain ⟨hns, hderived, hclass⟩ := hp
    have hd := decodes_commit hns hderived hclass ahd hr
    refine ⟨hd.wellFormed, hd.op, by rw [hd.op]; rfl, hd.cairnNs, fun a ha => ?_, fun i hi => ?_,
      fun derived' rev hx => ?_⟩
    · rw [hd.cairnAux, ← Option.some.inj ha]
    · rw [hd.sandIntent, ← Option.some.inj hi]
    · simp only [Packing.provenance, Option.some.injEq, Prod.mk.injEq] at hx
      rw [hd.sandDerived, hd.sandRevclass, ← hx.1, ← hx.2]
      omega
  | mission base ns ahd =>
    obtain ⟨hbase, hns⟩ := hp
    have hd := decodes_mission hbase hns hr
    have hcode : reqCairnInit ≤ base ∧ base ≤ reqNsGrant := by
      simp only [reqSfarPlan, reqSfarRollback, reqTbar] at hbase
      simp only [reqCairnInit, reqNsGrant]
      omega
    refine ⟨hd.wellFormed, hd.op, hd.op ▸ isSome_ofCode hcode.1 hcode.2, hd.cairnNs,
      fun a ha => ?_, fun i hi => hd.sandIntent.trans (Option.some.inj hi),
      fun derived rev hx => ?_⟩
    · cases ha
    · cases hx

/-- A commit that uses every field, with an input too long for its length field. -/
theorem decode_packed_commit :
    (Packing.commit 15 0xffff 31 3).Valid ∧
      Request.cairnAux ⟨courierWord 5000 (Packing.commit 15 0xffff 31 3).word, 0, 0, fun _ => 0⟩ =
        4095 :=
  ⟨by decide, (decode_packed (.commit 15 0xffff 31 3) (by decide) 5000
    ⟨courierWord 5000 (Packing.commit 15 0xffff 31 3).word, 0, 0, fun _ => 0⟩ rfl).2.2.2.2.1
      5000 rfl⟩

end Dezh.RequestCodec

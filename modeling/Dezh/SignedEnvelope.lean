import Dezh.PackageChecksum

/-!
# Signed packages

A signed package is an inner package behind a header with the signer's key, the signature
and a counter. The signature covers the inner package, a magic text and the counter; of
the header it covers nothing else.
-/
namespace Dezh.SignedEnvelope
open ByteLayout PackageFormat PackageText PackageChecksum

def sigMagic : Text := ascii "DZSIG1"
def pkLen : ℕ := 32
def sigLen : ℕ := 64
def sigContextLen : ℕ := 6 + 8

def signedContext (out : List UInt8) (counter : ℕ) : Option (ℕ × List UInt8) :=
  if out.length < sigContextLen then none
  else some (sigContextLen, sigMagic ++ leBytes 8 counter ++ out.drop sigContextLen)

def envMagic : Text := ascii "DZSP"
def envVersion : ℕ := 1
def envHeaderLen : ℕ := 116

inductive EnvError where
  | tooShort | badMagic | badVersion | truncated
  deriving DecidableEq, Repr

structure Envelope where
  signerPk : List UInt8
  signature : List UInt8
  counter : ℕ
  innerOffset : ℕ
  innerLen : ℕ
  deriving DecidableEq, Repr

/-- The sum of the lengths does not overflow: the inner length is a word of 32 bits. -/
def parseEnvelope (raw : List UInt8) : Except EnvError Envelope :=
  let b := ofList raw
  let innerLen := u32At b 112
  if raw.length < envHeaderLen then .error .tooShort
  else if raw.take 4 ≠ envMagic then .error .badMagic
  else if u16At b 4 ≠ envVersion then .error .badVersion
  else if raw.length ≠ envHeaderLen + innerLen then .error .truncated
  else .ok ⟨toList b 8 pkLen, toList b 40 sigLen, u64At b 104, envHeaderLen, innerLen⟩

def header (flags : ℕ) (signerPk signature : List UInt8) (counter innerLen : ℕ) : List UInt8 :=
  envMagic ++ (leBytes 2 envVersion ++ (leBytes 2 flags ++ (signerPk ++ (signature ++
    (leBytes 8 counter ++ leBytes 4 innerLen)))))

def packEnvelope (out signerPk signature : List UInt8) (counter : ℕ) (inner : List UInt8) :
    Option (ℕ × List UInt8) :=
  let total := envHeaderLen + inner.length
  if out.length < total then none
  else some (total, header 0 signerPk signature counter inner.length ++ inner ++ out.drop total)

def Envelope.inner (e : Envelope) (raw : List UInt8) : List UInt8 :=
  (raw.drop e.innerOffset).take e.innerLen

/-- `SIG_MSG` of the format. -/
def message (inner : List UInt8) (counter : ℕ) : List UInt8 := inner ++ (sigMagic ++ leBytes 8 counter)

/-- The message that the kernel verifies; it is put together in a buffer of 2048 bytes. -/
def signedMessage (inner : List UInt8) (counter : ℕ) : Option (List UInt8) :=
  if 2048 < inner.length + sigContextLen then none
  else (signedContext (List.replicate (2048 - inner.length) 0) counter).map fun r =>
    (inner ++ r.2).take (inner.length + r.1)

section
variable {b : Bytes} {o v : ℕ} {a c s : List UInt8}

theorem length_leBytes (n v : ℕ) : (leBytes n v).length = n := by simp [leBytes]

theorem leBytes_mod : leBytes 4 (v % 2 ^ 32) = leBytes 4 v := by
  apply List.map_congr_left
  intro i hi
  have hi := List.mem_range.mp hi
  apply UInt8.toNat.inj
  rw [UInt8.toNat_ofNat', UInt8.toNat_ofNat', Nat.shiftRight_eq_div_pow, Nat.shiftRight_eq_div_pow]
  obtain rfl | rfl | rfl | rfl : i = 0 ∨ i = 1 ∨ i = 2 ∨ i = 3 := by omega
  all_goals omega

theorem leBytes_eight : leBytes 8 v = leBytes 4 (v % 2 ^ 32) ++ leBytes 4 (v / 2 ^ 32) := by
  rw [leBytes_mod, ← Nat.shiftRight_eq_div_pow]
  simp [leBytes, List.range_succ, ← Nat.shiftRight_add]

theorem leBytes_u64At : leBytes 8 (u64At b o) = toList b o 8 := by
  have hlo := u32At_lt (b := b) (o := o)
  have hmod : u64At b o % 2 ^ 32 = u32At b o := by
    rw [u64At]
    omega
  have hdiv : u64At b o / 2 ^ 32 = u32At b (o + 4) := by
    rw [u64At]
    omega
  rw [leBytes_eight, hmod, hdiv, leBytes_u32At, leBytes_u32At]
  exact toList_append b o 4 4

theorem u64At_leBytes (hv : v < 2 ^ 64) :
    u64At (ofList (a ++ (leBytes 8 v ++ c))) a.length = v := by
  have hhi := u32At_leBytes (a := a ++ leBytes 4 (v % 2 ^ 32)) (b := c) (v := v / 2 ^ 32) (by omega)
  rw [List.length_append, length_leBytes, List.append_assoc] at hhi
  rw [leBytes_eight, List.append_assoc, u64At, hhi, u32At_leBytes (Nat.mod_lt _ (by decide))]
  omega

theorem toList_middle : toList (ofList (a ++ (s ++ c))) a.length s.length = s := by
  refine List.ext_getElem (by simp [toList]) fun i _ hi => ?_
  simp only [toList, List.getElem_map, List.getElem_range, ofList_append_length]
  simp [ofList, List.getElem?_append_left hi, hi]

end

section
variable {pk sig inner raw : List UInt8} {counter flags : ℕ} {e : Envelope}

theorem length_header (hpk : pk.length = pkLen) (hsig : sig.length = sigLen)
    (flags counter len : ℕ) :
    (header flags pk sig counter len).length = envHeaderLen := by
  simp [header, hpk, hsig, length_leBytes, pkLen, sigLen, envHeaderLen, envMagic, ascii]

theorem parse_packed (hpk : pk.length = pkLen) (hsig : sig.length = sigLen)
    (hc : counter < 2 ^ 64) (hi : inner.length < 2 ^ 32) :
    parseEnvelope (header 0 pk sig counter inner.length ++ inner) =
      .ok ⟨pk, sig, counter, envHeaderLen, inner.length⟩ := by
  have hmagic : envMagic.length = 4 := by decide
  have hlen := length_header hpk hsig 0 counter inner.length
  unfold pkLen at hpk
  unfold sigLen at hsig
  generalize hraw : header 0 pk sig counter inner.length ++ inner = raw
  have htake : raw.take 4 = envMagic := by simp [← hraw, header, ← hmagic]
  have hversion : u16At (ofList raw) 4 = envVersion := by
    simpa [← hraw, header, hmagic] using u16At_leBytes (a := envMagic) (v := envVersion) (by decide)
  have hkey : toList (ofList raw) 8 32 = pk := by
    simpa [← hraw, header, hmagic, length_leBytes, hpk] using
      toList_middle (a := envMagic ++ (leBytes 2 envVersion ++ leBytes 2 0)) (s := pk)
  have hsign : toList (ofList raw) 40 64 = sig := by
    simpa [← hraw, header, hmagic, length_leBytes, hpk, hsig] using
      toList_middle (a := envMagic ++ (leBytes 2 envVersion ++ (leBytes 2 0 ++ pk))) (s := sig)
  have hcount : u64At (ofList raw) 104 = counter := by
    simpa [← hraw, header, hmagic, length_leBytes, hpk, hsig] using u64At_leBytes
      (a := envMagic ++ (leBytes 2 envVersion ++ (leBytes 2 0 ++ (pk ++ sig)))) hc
  have hinner : u32At (ofList raw) 112 = inner.length := by
    simpa [← hraw, header, hmagic, length_leBytes, hpk, hsig] using u32At_leBytes (a := envMagic ++
      (leBytes 2 envVersion ++ (leBytes 2 0 ++ (pk ++ (sig ++ leBytes 8 counter))))) hi
  have htotal : raw.length = envHeaderLen + inner.length := by
    rw [← hraw, List.length_append, hlen]
  simp only [parseEnvelope, htake, hversion, hinner, htotal, pkLen, sigLen, hkey, hsign, hcount,
    ne_eq, not_true_eq_false, if_false]
  exact if_neg (by omega)

/-- What the parser does not look at are the two bytes of the flags. -/
theorem header_of_parse (h : parseEnvelope raw = .ok e) :
    raw = header (u16At (ofList raw) 6) e.signerPk e.signature e.counter (e.inner raw).length ++
      e.inner raw ∧ e.signerPk.length = pkLen ∧ e.signature.length = sigLen := by
  unfold parseEnvelope at h
  dsimp only at h
  split_ifs at h with hlen hmagic hversion htotal
  cases h
  rw [not_lt] at hlen
  rw [not_not] at hmagic hversion htotal
  have hinner : (raw.drop envHeaderLen).take (u32At (ofList raw) 112) = raw.drop envHeaderLen := by
    refine List.take_of_length_le ?_
    rw [List.length_drop]
    omega
  have hinnerLen : (raw.drop envHeaderLen).length = u32At (ofList raw) 112 := by
    rw [List.length_drop]
    omega
  refine ⟨?_, length_toList, length_toList⟩
  rw [Envelope.inner, hinner, hinnerLen, header, ← hmagic, ← hversion, leBytes_u16At, leBytes_u16At,
    leBytes_u64At, leBytes_u32At, ← toList_ofList_take (by unfold envHeaderLen at hlen; omega)]
  dsimp only [pkLen, sigLen]
  rw [toList_append _ 104 8 4, toList_append _ 40 64 12, toList_append _ 8 32 76,
    toList_append _ 6 2 108, toList_append _ 4 2 110, toList_append _ 0 4 112]
  refine (List.take_append_drop envHeaderLen raw).symm.trans ?_
  rw [← toList_ofList_take hlen]
  rfl

theorem message_of_signed {msg : List UInt8} (h : signedMessage inner counter = some msg) :
    msg = message inner counter := by
  unfold signedMessage signedContext at h
  split_ifs at h with hlen hroom
  · cases h
  · have hmagic : sigMagic.length = 6 := by decide
    rw [Option.map_some, Option.some.injEq] at h
    rw [← h, message, ← List.append_assoc inner, List.take_left' ?_]
    simp [hmagic, length_leBytes, sigContextLen]

theorem message_inj {inner' : List UInt8} {counter' : ℕ} (hc : counter < 2 ^ 64)
    (hc' : counter' < 2 ^ 64) (h : message inner counter = message inner' counter') :
    inner = inner' ∧ counter = counter' := by
  obtain ⟨hinner, htail⟩ := List.append_inj' h (by simp [length_leBytes])
  have hwords := List.append_cancel_left htail
  have hself := u64At_leBytes (a := []) (c := []) hc
  rw [hwords, u64At_leBytes hc'] at hself
  exact ⟨hinner, hself.symm⟩

end

/-- Parsing undoes packing. An accepted byte string is the packing of what was parsed
exactly if its flags are zero. Messages determine the inner package and the counter. -/
theorem envelope_exact (out pk sig inner inner' raw msg : List UInt8) (counter counter' : ℕ)
    (e : Envelope) (hc : counter < 2 ^ 64) (hc' : counter' < 2 ^ 64) :
    (pk.length = pkLen → sig.length = sigLen → inner.length < 2 ^ 32 →
      envHeaderLen + inner.length ≤ out.length →
      ∃ buf, packEnvelope out pk sig counter inner = some (envHeaderLen + inner.length, buf) ∧
        parseEnvelope (buf.take (envHeaderLen + inner.length)) =
          .ok ⟨pk, sig, counter, envHeaderLen, inner.length⟩ ∧
        (buf.drop envHeaderLen).take inner.length = inner) ∧
    (parseEnvelope raw = .ok e →
      (packEnvelope (List.replicate raw.length 0) e.signerPk e.signature e.counter (e.inner raw) =
        some (raw.length, raw) ↔ u16At (ofList raw) 6 = 0)) ∧
    (signedMessage inner counter = some msg → msg = message inner counter) ∧
    (message inner counter = message inner' counter' → inner = inner' ∧ counter = counter') := by
  refine ⟨fun hpk hsig hi hroom => ?_, fun h => ?_, message_of_signed, message_inj hc hc'⟩
  · have hlen := length_header hpk hsig 0 counter inner.length
    refine ⟨_, if_neg (Nat.not_lt.mpr hroom), ?_, ?_⟩
    · rw [List.take_left' (by rw [List.length_append, hlen])]
      exact parse_packed hpk hsig hc hi
    · rw [List.append_assoc, List.drop_left' hlen, List.take_left]
  · obtain ⟨hraw, hpk, hsig⟩ := header_of_parse h
    have hlen := length_header hpk hsig
    have htotal : raw.length = envHeaderLen + (e.inner raw).length := by
      conv_lhs => rw [hraw, List.length_append, hlen]
    rw [packEnvelope, if_neg (by rw [List.length_replicate, htotal]; omega), ← htotal,
      List.drop_of_length_le (by rw [List.length_replicate]), List.append_nil, Option.some.injEq,
      Prod.mk.injEq]
    constructor
    · rintro ⟨-, heq⟩
      obtain ⟨hheader, -⟩ := List.append_inj (heq.trans hraw) ((hlen ..).trans (hlen ..).symm)
      obtain ⟨hwords, -⟩ := List.append_inj
        (List.append_cancel_left (List.append_cancel_left hheader)) (by simp [length_leBytes])
      rw [leBytes_u16At] at hwords
      simp [leBytes, toList, List.range_succ] at hwords
      simp [u16At, ← hwords.1, ← hwords.2]
    · intro hzero
      refine ⟨rfl, ?_⟩
      conv_rhs => rw [hraw, hzero]

/-- A package of one byte, signed and unpacked. -/
theorem envelope_exact_byte :
    ∃ buf, packEnvelope (List.replicate 120 0) (List.replicate 32 1) (List.replicate 64 2) 3 [0x41] =
        some (117, buf) ∧
      parseEnvelope (buf.take 117) =
        .ok ⟨List.replicate 32 1, List.replicate 64 2, 3, envHeaderLen, 1⟩ := by
  obtain ⟨buf, hpack, hparse, -⟩ := (envelope_exact (List.replicate 120 0) (List.replicate 32 1)
    (List.replicate 64 2) [0x41] [] [] [] 3 0 ⟨[], [], 0, 0, 0⟩ (by decide) (by decide)).1 (by decide)
    (by decide) (by decide) (by decide)
  exact ⟨buf, hpack, hparse⟩

/-- An envelope with the flags set is accepted, and is not the packing of its fields. -/
theorem flags_malleable :
    let raw := header 0xFFFF (List.replicate 32 1) (List.replicate 64 2) 3 1 ++ [0x41]
    parseEnvelope raw = .ok ⟨List.replicate 32 1, List.replicate 64 2, 3, envHeaderLen, 1⟩ ∧
      packEnvelope (List.replicate raw.length 0) (List.replicate 32 1) (List.replicate 64 2) 3
        [0x41] ≠ some (raw.length, raw) := by
  decide +kernel

end Dezh.SignedEnvelope

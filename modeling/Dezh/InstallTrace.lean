import Dezh.StorePhases

/-!
# The writes of an install

An admitted install on a consistent store writes its journal record, the package,
the record in its second and third phase, the pending registry, and the registry
with the active entry, followed by the marker and the cleared journal. A power cut
leaves a first part of these writes on disk. The registry changes in one sector only,
and a journal record fits into the first sector of the journal, so each of them is
always on disk as a whole.
-/
namespace Dezh.InstallTrace
open BlockProgram ByteLayout CairnFormat PackageFormat PackageStore PackageCodec
  PackageAreas PackageRecovery StorePhases

variable {reg : Bytes} {raw : List UInt8} {p : Admission} {d : Disk Sector} {s n : ℕ}
variable {r : JournalRecord} {i : ℕ}

theorem inspect_parse {q : Inspected} (h : inspect raw = some q) : ∃ pkg, parse raw = .ok pkg := by
  unfold inspect at h
  split at h
  · cases h
  · rename_i pkg hparse
    exact ⟨pkg, hparse⟩

/-- What the checks of an install establish. -/
structure Admitted (reg : Bytes) (raw : List UInt8) (p : Admission) : Prop where
  pos : 0 < raw.length
  le : raw.length ≤ maxRawBytes
  contents : inspect raw = some p.package
  name_ne : p.package.name ≠ []
  name : p.package.name.length ≤ nameMax
  version : p.package.version.length ≤ verMax
  rawCrc : p.rawCrc = checksum raw
  slot : p.slot < maxPkgs
  oldState : p.oldState = entryState reg p.slot
  unused : p.oldState ≠ stateActive
  sound : p.oldState ≠ stateCorrupt ∧ p.oldState ≠ stateQuarantined

theorem registrySlotFor_lt {name : Text} {slot : ℕ} (h : registrySlotFor reg name = some slot) :
    slot < maxPkgs := by
  have hmem : slot ∈ List.range maxPkgs := by
    simp only [registrySlotFor, Option.or_eq_some_iff] at h
    rcases h with h | ⟨-, h | ⟨-, h⟩⟩ <;> exact List.mem_of_find?_eq_some h
  exact List.mem_range.mp hmem

theorem inspect_eq {pkg : Package} {name : Text} {mcaps : ℕ} (hparse : parse raw = .ok pkg)
    (hname : manifestStr pkg.manifest (ascii "name") = some name)
    (hmcaps : parseMcaps pkg.manifest = .ok mcaps) (hverify : verifyPayload pkg = .ok ()) :
    inspect raw = some ⟨pkg.kind, name,
      (manifestStr pkg.manifest (ascii "version")).getD defaultVersion, mcaps, pkg.payload⟩ := by
  simp only [inspect, hparse, hname, hmcaps, hverify]

theorem mapError_bind_ok {ε ε' A B : Type} {x : Except ε A} {f : ε → ε'} {g : A → Except ε' B}
    {b : B} (h : (x.mapError f >>= g) = .ok b) : ∃ a, x = .ok a ∧ g a = .ok b := by
  cases x with
  | error e => exact nomatch h
  | ok a => exact ⟨a, rfl, h⟩

theorem recvChecks_inv (h : recvChecks reg raw = .ok p) :
    Admitted reg raw p ∧ registrySlotFor reg p.package.name = some p.slot := by
  unfold recvChecks at h
  split at h
  · exact nomatch h
  · rename_i hlen
    obtain ⟨pkg, hparse, h⟩ := mapError_bind_ok h
    split at h
    · exact nomatch h
    · rename_i name hname
      simp only at h
      split at h
      · exact nomatch h
      · rename_i hrange
        simp only [not_or, Nat.not_lt] at hrange
        obtain ⟨mcaps, hmcaps, h⟩ := mapError_bind_ok h
        obtain ⟨_, hverify, h⟩ := mapError_bind_ok h
        split at h
        · exact nomatch h
        · rename_i slot hslot
          split_ifs at h with hbad hsame hactive
          obtain rfl := Except.ok.inj h
          exact ⟨⟨by omega, by omega, inspect_eq hparse hname hmcaps hverify, hrange.1, hrange.2.1,
            hrange.2.2, rfl, registrySlotFor_lt hslot, rfl, hactive, not_or.mp hbad⟩, hslot⟩

theorem recvChecks_ok (h : recvChecks reg raw = .ok p) : Admitted reg raw p := (recvChecks_inv h).1

/-- The record belongs to the install of `raw`. -/
structure Describes (r : JournalRecord) (p : Admission) (raw : List UInt8) : Prop where
  op : r.op = opInstall
  slot : r.slot = p.slot
  oldState : r.oldState = p.oldState
  mcaps : r.mcaps = p.package.mcaps
  rawLen : r.rawLen = raw.length
  rawCrc : r.rawCrc = p.rawCrc
  blobStart : r.blobStart = slotBlobSector p.slot
  blobCount : r.blobCount = sectorsFor raw.length
  name : r.name = p.package.name
  version : r.version = p.package.version
  registryBeforeCrc : r.registryBeforeCrc < 2 ^ 32
  registryAfterCrc : r.registryAfterCrc < 2 ^ 32

theorem describes_started : Describes (p.started reg raw) p raw :=
  ⟨rfl, rfl, rfl, rfl, rfl, rfl, rfl, rfl, rfl, rfl, UInt32.toNat_lt _, Nat.two_pow_pos 32⟩

theorem describes_blobWritten : Describes (p.blobWritten reg raw) p raw :=
  ⟨rfl, rfl, rfl, rfl, rfl, rfl, rfl, rfl, rfl, rfl, UInt32.toNat_lt _, Nat.two_pow_pos 32⟩

theorem describes_registryPending : Describes (p.registryPending reg raw) p raw :=
  ⟨rfl, rfl, rfl, rfl, rfl, rfl, rfl, rfl, rfl, rfl, UInt32.toNat_lt _, UInt32.toNat_lt _⟩

theorem Describes.encodable (h : Describes r p raw) (ha : Admitted reg raw p) : Encodable r := by
  have hlen : raw.length ≤ 32768 := ha.le
  have hslot : p.slot < 8 := ha.slot
  have hcount : sectorsFor raw.length ≤ 64 := sectorsFor_le ha.le
  have hmcaps := (inspect_isUtf8 ha.contents).2.2
  refine ⟨?_, ?_, ?_, ?_, ?_, ?_, h.registryBeforeCrc, h.registryAfterCrc, ?_, ?_⟩
  · rw [h.slot]
    exact ha.slot
  · rw [h.mcaps]
    omega
  · rw [h.rawLen]
    omega
  · rw [h.rawCrc, ha.rawCrc]
    exact UInt32.toNat_lt _
  · rw [h.blobStart, slotBlobSector, slotSectors]
    omega
  · rw [h.blobCount]
    omega
  · rw [h.name]
    exact ha.name
  · rw [h.version]
    exact ha.version

theorem Describes.verified (h : Describes r p raw) (ha : Admitted reg raw p)
    (hb : blobAt d (slotBlobSector p.slot) raw.length = raw) :
    verified d (slotBlobSector p.slot) r = true := by
  obtain ⟨hname, hversion, -⟩ := inspect_isUtf8 ha.contents
  have hpos := ha.pos
  have hle := ha.le
  unfold StorePhases.verified
  simp only [h.rawLen, h.rawCrc, h.blobCount, h.name, h.version, h.mcaps, hb, ha.rawCrc, ha.contents,
    asText, hname, hversion, if_true, and_self, decide_true, Bool.and_true, decide_eq_true_eq,
    and_true]
  omega

section
variable {k : Kernel}

def installWrites (reg : Bytes) (p : Admission) (raw : List UInt8) : List (ℕ × Sector) :=
  journalWrites (encodeJournal (p.started reg raw)) ++
  (blobWrites (slotBlobSector p.slot) raw ++
  (journalWrites (encodeJournal (p.blobWritten reg raw)) ++
  (journalWrites (encodeJournal (p.registryPending reg raw)) ++
  (registryWrites (p.registryWith reg raw statePendingInstall) ++
    commitWrites (p.registryWith reg raw stateActive)))))

/-- The same, phase by phase. -/
def installPhases (reg : Bytes) (p : Admission) (raw : List UInt8) : List Phase :=
  [.journal (encodeJournal (p.started reg raw)), .blob (slotBlobSector p.slot) raw,
    .journal (encodeJournal (p.blobWritten reg raw)),
    .journal (encodeJournal (p.registryPending reg raw)),
    .registry (p.registryWith reg raw statePendingInstall)] ++
  commit (p.registryWith reg raw stateActive)

theorem writesOf_installPhases : writesOf (installPhases reg p raw) = installWrites reg p raw := by
  rw [installPhases, writesOf_append, writesOf_commit]
  simp only [writesOf_cons, writesOf_nil, Phase.writes, List.append_assoc, List.nil_append]
  rfl

theorem trace_install (ha : Admitted k.registry raw p) :
    (install k p raw).Trace d
      (finishInstall { k with registry := p.registryWith k.registry raw stateActive } p raw)
      (installWrites k.registry p raw) := by
  have hactive : setEntryState (p.registryWith k.registry raw statePendingInstall) p.slot
      stateActive = p.registryWith k.registry raw stateActive := setEntryState_encode
  have hblob (e : Disk Sector) : (writeBlobAt (slotBlobSector p.slot) raw).Trace e true
      (blobWrites (slotBlobSector p.slot) raw) := trace_writeBlobAt ha.le (within_slot ha.slot)
  have hverify {e : Disk Sector} (hb : blobAt e (slotBlobSector p.slot) raw.length = raw) :
      (verifySlotBlob (p.blobWritten k.registry raw)).Trace e true [] := by
    have hrecord : verified e (slotBlobSector p.slot) (p.blobWritten k.registry raw) = true :=
      describes_blobWritten.verified ha hb
    rw [← hrecord]
    exact trace_verifyBlobRecordAt (within_slot ha.slot)
  unfold install installWrites
  refine trace_writeJournalRaw.bind ?_
  refine (hblob _).bind ?_
  refine trace_writeJournalRaw.bind ?_
  refine (hverify ?_).bind_nil ?_
  · rw [blobAt_journalWrites (le_slotBlobSector _), blobAt_blobWrites]
  refine trace_writeJournalRaw.bind ?_
  refine trace_writeRegistry.bind ?_
  rw [← List.append_nil (commitWrites _), ← hactive]
  exact trace_commitStore.bind (.pure _ _)

theorem trace_pkgRecv (hc : Consistent d) (hk : Synced k d) (hfit : payloadTotal d ≤ arenaSize)
    (ha : recvChecks (registryOf d) raw = .ok p) :
    ∃ a, (pkgRecv k raw).Trace d a (installWrites (registryOf d) p raw) := by
  obtain ⟨k', ht, hreg⟩ := (hc.atRest hfit).trace_ensureLoaded hk
  rw [← hreg] at ha ⊢
  refine ⟨finishInstall { k' with registry := p.registryWith k'.registry raw stateActive } p raw,
    ht.bind_nil ?_⟩
  simp only [if_true, ha]
  exact trace_install (recvChecks_ok ha)

end

section
variable {j : ℕ}

def crashed (d : Disk Sector) (p : Admission) (raw : List UInt8) (n : ℕ) : Disk Sector :=
  replay d ((installWrites (registryOf d) p raw).take n)

def registryAfter (reg : Bytes) (p : Admission) (raw : List UInt8) (n : ℕ) : Bytes :=
  let k := sectorsFor raw.length
  if n < 24 + k + entryWrites p.slot then reg
  else if n < 26 + k + entryWrites p.slot then p.registryWith reg raw statePendingInstall
  else p.registryWith reg raw stateActive

def journalAfter (reg : Bytes) (p : Admission) (raw : List UInt8) (n : ℕ) : Bytes :=
  let k := sectorsFor raw.length
  if n = 0 ∨ 30 + k ≤ n then fun _ => 0
  else if n ≤ 8 + k then encodeJournal (p.started reg raw)
  else if n ≤ 16 + k then encodeJournal (p.blobWritten reg raw)
  else encodeJournal (p.registryPending reg raw)

theorem imageOf_crashed :
    imageOf (crashed d p raw n) = crash (installPhases (registryOf d) p raw) n (imageOf d) := by
  rw [crashed, ← writesOf_installPhases, imageOf_crash ?_]
  simp [installPhases, commit, Phase.Placed, le_slotBlobSector]

theorem registryOf_crashed (ha : Admitted (registryOf d) raw p) :
    registryOf (crashed d p raw n) = registryAfter (registryOf d) p raw n := by
  have houtside {state : UInt8} : ∀ i, i < entryOff p.slot ∨ entryOff p.slot + entrySize ≤ i →
      p.registryWith (registryOf d) raw state i = (imageOf d).registry i :=
    fun i hi => encodeRegistryEntry_of_outside ha.name ha.version hi
  refine (congrArg Image.registry imageOf_crashed).trans ?_
  simp only [installPhases, commit, List.cons_append, List.nil_append, crash, Phase.after,
    Phase.size, Nat.sub_sub]
  rw [overlay_registry ha.slot houtside, overlay_registry_ite ha.slot houtside houtside]
  unfold registryAfter entryWrites journalSectors registrySectors
  simp only
  split_ifs <;> first | omega | rfl

theorem journalOf_crashed (hc : Consistent d) (ha : Admitted (registryOf d) raw p) :
    journalOf (crashed d p raw n) = journalAfter (registryOf d) p raw n := by
  have hjournal : (imageOf d).journal = fun _ => 0 := journalOf_of_zero hc.journal
  have hshort {r : JournalRecord} (h : Describes r p raw) : Short (encodeJournal r) :=
    short_encodeJournal (h.encodable ha)
  have hstarted : Short (encodeJournal (p.started (registryOf d) raw)) := hshort describes_started
  have hwritten : Short (encodeJournal (p.blobWritten (registryOf d) raw)) :=
    hshort describes_blobWritten
  have hpending : Short (encodeJournal (p.registryPending (registryOf d) raw)) :=
    hshort describes_registryPending
  have hfirst {c : Prop} [Decidable c] := short_zero.ite (c := c) hstarted
  have hsecond {c c' : Prop} [Decidable c] [Decidable c'] :=
    Short.ite (c := c) (hfirst (c := c')) hwritten
  refine (congrArg Image.journal imageOf_crashed).trans ?_
  simp only [installPhases, commit, List.cons_append, List.nil_append, crash, Phase.after,
    Phase.size, Nat.sub_sub]
  rw [hjournal, overlay_journal short_zero hstarted, overlay_journal hfirst hwritten,
    overlay_journal hsecond hpending, overlay_journal (hsecond.ite hpending) short_zero]
  unfold journalAfter journalSectors registrySectors
  simp only
  split_ifs <;> first | omega | rfl

theorem crashed_of_le (hs : 64 ≤ s) :
    crashed d p raw n s = replay d ((blobWrites (slotBlobSector p.slot) raw).take (n - 8)) s := by
  rw [← imageOf_blobs (d := crashed d p raw n) hs, imageOf_crashed]
  change replay (imageOf d).blobs _ s = _
  rw [← Phase.imageOf_blob (le_slotBlobSector _), imageOf_blobs hs]
  rfl

theorem blobAt_crashed (hn : 8 + sectorsFor raw.length ≤ n) :
    blobAt (crashed d p raw n) (slotBlobSector p.slot) raw.length = raw := by
  have hbase := le_slotBlobSector p.slot
  refine (blobAt_congr fun j _ => crashed_of_le ?_).trans (blobAt_of_written ?_)
  · omega
  · omega

theorem crashed_of_notMem (ha : Admitted (registryOf d) raw p) (hs : 64 ≤ s)
    (hout : s < slotBlobSector p.slot ∨ slotBlobSector p.slot + slotSectors ≤ s) :
    crashed d p raw n s = d s :=
  (crashed_of_le hs).trans (replay_blobWrites_of_outside ha.le hout)

end

end Dezh.InstallTrace

import Dezh.ValueRoundTrip

/-!
# The storage of an agent

The host of a bytecode program in the kernel: a store call is packed into a request
that a courier sends to the block daemon, and a load reads the daemon's data window.
The store carries the length of a value along. The load does not ask for it, it takes
the value to end at the first zero.
-/
namespace Dezh.AgentStorage
open BlockProgram Program ByteLayout CairnFormat CairnService CairnStore CairnOutcomes
open BlockDaemon PackageTasks PackageIntegrity NamespaceSecrets
open RequestCodec StorageStatus StoreRuns ValueRoundTrip IrMachine

section

/-- What the host is given and cannot change: the launch, whether its namespace
authority is live, whether the daemon is up at each request, and what fails on its way. -/
structure Env where
  launch : Launch
  nsAuthorityOk : Bool
  serving : ℕ → Bool
  faults : ℕ → Schedule
  fuel : ℕ

/-- The disk, the daemon's data window, the staged input, and the requests so far. -/
structure Storage where
  disk : CairnDisk
  window : Bytes
  input : Bytes
  requests : ℕ

variable (env : Env)

def runClient (r : Request) (s : Storage) : Option Reply × Storage :=
  if env.serving s.requests then
    let out := (serve env.fuel r s.window).run (env.faults s.requests) s.disk
    (out.1, ⟨out.2, (out.1.map Reply.window).getD s.window, s.input, s.requests + 1⟩)
  else (none, { s with requests := s.requests + 1 })

def filled (sector buf : List UInt8) (n : ℕ) : List UInt8 := sector.take n ++ buf.drop n

theorem length_filled {sector buf : List UInt8} {n : ℕ} (hs : n ≤ sector.length)
    (hb : n ≤ buf.length) : (filled sector buf n).length = buf.length := by
  rw [filled, List.length_append, List.length_take, List.length_drop]
  omega

def sectorOf (w : Bytes) : List UInt8 := toList w 0 512

def loadedLen (sector buf : List UInt8) : ℕ :=
  min ((sector.findIdx? (· == 0)).getD 448) buf.length

theorem findIdx_le (w : Bytes) :
    ((sectorOf w).findIdx? (· == 0)).getD 448 ≤ (sectorOf w).length := by
  have hlen : (sectorOf w).length = 512 := length_toList
  cases hidx : (sectorOf w).findIdx? (· == 0) with
  | none =>
    rw [hlen, Option.getD_none]
    omega
  | some i => exact (List.findIdx?_eq_some_iff_getElem.mp hidx).1.le

theorem loadedLen_le (w : Bytes) (buf : List UInt8) :
    loadedLen (sectorOf w) buf ≤ (sectorOf w).length ∧ loadedLen (sectorOf w) buf ≤ buf.length :=
  ⟨(min_le_left _ _).trans (findIdx_le w), min_le_right _ _⟩

theorem length_loaded (w : Bytes) (buf : List UInt8) :
    (filled (sectorOf w) buf (loadedLen (sectorOf w) buf)).length = buf.length :=
  length_filled (loadedLen_le w buf).1 (loadedLen_le w buf).2

theorem length_kept (buf : List UInt8) : buf.length = buf.length := rfl

def kHost : Host Storage where
  can _ cap := irCapsFrom env.launch.mcaps &&& cap != 0
  printNum s _ := s
  printStr s _ := s
  cairnPut s data :=
    match env.launch.cairnNs with
    | none => (false, s)
    | some ns =>
      if env.nsAuthorityOk then
        let out := runClient env (env.launch.putRequest ns data) { s with input := ofList data }
        (clientStatus out.1 == some 0, out.2)
      else (false, s)
  cairnGet s buf :=
    match env.launch.cairnNs with
    | none => (none, ⟨buf, length_kept buf⟩, s)
    | some ns =>
      if env.nsAuthorityOk then
        let out := runClient env (Launch.loadRequest ns s.input) s
        let window := out.2.window
        if clientStatus out.1 = some 0 then
          let sector := sectorOf window
          let n := loadedLen sector buf
          (some n, ⟨filled sector buf n, length_loaded window buf⟩, out.2)
        else (none, ⟨buf, length_kept buf⟩, out.2)
      else (none, ⟨buf, length_kept buf⟩, s)

end

section
variable {d d' : CairnDisk} {ns : ℕ} {value : List UInt8}

/-- The head of the namespace is a record of the value. -/
structure Stored (d : CairnDisk) (ns : ℕ) (value : List UInt8) : Prop where
  ne : head d ns ≠ noSlot
  lt : head d ns < next d
  keeps : Keeps (record d (head d ns)) value

theorem Stored.same (h : Stored d ns value) (hs : SameStore d d') : Stored d' ns value := by
  refine ⟨?_, ?_, ?_⟩
  · rw [hs.head_eq]
    exact h.ne
  · rw [hs.head_eq, hs.next_eq]
    exact h.lt
  · rw [hs.head_eq, hs.record_eq h.lt]
    exact h.keeps

theorem stored_committed {len sender : ℕ} {intent derived : UInt32} {rev : UInt8}
    (hn : next d < commitSlots) (hns : ns < nsMax)
    (hlen : min len (valueMax - 1) = min value.length 447) :
    Stored (committed d (ofList value) ns len sender intent derived rev) ns value := by
  obtain ⟨hne, hkeeps⟩ := keeps_committed hn hns len hlen
  refine ⟨hne, ?_, hkeeps⟩
  rw [head_committed hn hns, if_pos rfl, next_committed hn]
  omega

end

section
variable {env : Env} {s : Storage} {ns : ℕ} {data buf : List UInt8}

theorem lt_nsMax (h : env.launch.cairnNs = some ns) : ns < nsMax :=
  lt_trans (cairnNs_lt h) (by decide)

theorem decodes_get (h : env.launch.cairnNs = some ns) (input : Bytes) :
    ∃ aux i, Decodes (Launch.loadRequest ns input) reqCairnGet ns aux i 0 := by
  obtain ⟨aux, i, hd, -⟩ := decodes_cairn (r := Launch.loadRequest ns input) (by decide)
    (lt_trans (cairnNs_lt h) (by decide)) rfl
  exact ⟨aux, i, hd⟩

theorem put_stored (h : ((kHost env).cairnPut s data).1 = true) :
    ∃ ns, env.launch.cairnNs = some ns ∧ env.nsAuthorityOk = true ∧
      Stored ((kHost env).cairnPut s data).2.disk ns data ∧
      revoked ((kHost env).cairnPut s data).2.disk ns = revoked s.disk ns := by
  simp only [kHost] at h ⊢
  cases hns : env.launch.cairnNs with
  | none =>
    rw [hns] at h
    cases h
  | some ns =>
    rw [hns] at h
    by_cases hok : env.nsAuthorityOk = true
    · refine ⟨ns, rfl, hok, ?_⟩
      simp only [hok, if_true] at h ⊢
      unfold runClient at h ⊢
      by_cases hup : env.serving s.requests = true
      · rw [if_pos hup] at h ⊢
        obtain ⟨hw, hop, hreq, haux, -⟩ := commitWord_fields
          (r := env.launch.putRequest ns data) (lt_trans (cairnNs_lt hns) (by decide))
          env.launch.mcaps_lt (by decide) env.launch.intent rfl
        obtain ⟨d1, hsame, hn, hd⟩ := committed_of_ok hw hop _ (eq_of_beq h)
        dsimp only
        rw [hd, hreq, haux]
        have hlen : min (min data.length 0xfff) (valueMax - 1) = min data.length 447 := by
          rw [show valueMax - 1 = 447 from rfl]
          omega
        refine ⟨stored_committed hn (lt_nsMax hns) hlen, ?_⟩
        rw [revoked_committed (lt_nsMax hns), hsame.revoked_eq]
      · rw [if_neg hup] at h
        cases h
    · rw [Bool.not_eq_true] at hok
      simp only [hok] at h
      cases h

theorem get_same : SameStore s.disk ((kHost env).cairnGet s buf).2.2.disk := by
  simp only [kHost]
  cases hns : env.launch.cairnNs with
  | none => exact .refl _
  | some ns =>
    by_cases hok : env.nsAuthorityOk = true
    · have hclient : SameStore s.disk (runClient env (Launch.loadRequest ns s.input) s).2.disk := by
        unfold runClient
        split_ifs
        · obtain ⟨aux, i, hd⟩ := decodes_get hns s.input
          have hexec := exec_run (d := s.disk) (serve env.fuel (Launch.loadRequest ns s.input) s.window)
            (Schedule.Within.all (env.faults s.requests))
          rw [PackageIntegrity.serve_eq hd.wellFormed hd.op] at hexec
          obtain ⟨a, d1, ha, -, hd1⟩ := exec_bind.mp hexec
          rw [PackageIntegrity.serve_eq hd.wellFormed hd.op]
          dsimp only
          rw [hd1]
          exact dispatch_same (by decide) (by decide) ha
        · exact .refl _
      simp only [hok, if_true]
      split_ifs
      · exact hclient
      · exact hclient
    · rw [Bool.not_eq_true] at hok
      simp only [hok]
      exact .refl _

theorem loadedLen_eq (w : Bytes) (hbuf : (windowValue w).length ≤ buf.length) :
    loadedLen (sectorOf w) buf = (windowValue w).length ∧
      (sectorOf w).take (loadedLen (sectorOf w) buf) = windowValue w := by
  have hwindow : windowValue w =
      (sectorOf w).take (((sectorOf w).findIdx? (· == 0)).getD 448) := rfl
  have hlength : (windowValue w).length = ((sectorOf w).findIdx? (· == 0)).getD 448 := by
    rw [hwindow, List.length_take, min_eq_left (findIdx_le w)]
  have hloaded : loadedLen (sectorOf w) buf = ((sectorOf w).findIdx? (· == 0)).getD 448 :=
    min_eq_left (by omega)
  exact ⟨by rw [hloaded, hlength], by rw [hloaded, hwindow]⟩

theorem get_answered (hns : env.launch.cairnNs = some ns) (hok : env.nsAuthorityOk = true)
    (h : clientStatus (runClient env (Launch.loadRequest ns s.input) s).1 = some 0) :
    ((kHost env).cairnGet s buf).1 = some (loadedLen
        (sectorOf (runClient env (Launch.loadRequest ns s.input) s).2.window) buf) ∧
      ((kHost env).cairnGet s buf).2.1.val =
        filled (sectorOf (runClient env (Launch.loadRequest ns s.input) s).2.window) buf (loadedLen
          (sectorOf (runClient env (Launch.loadRequest ns s.input) s).2.window) buf) := by
  unfold kHost
  dsimp only
  rw [hns]
  dsimp only
  rw [if_pos hok, if_pos h]
  exact ⟨rfl, rfl⟩

theorem get_refused (hns : env.launch.cairnNs = some ns) (hok : env.nsAuthorityOk = true)
    (h : clientStatus (runClient env (Launch.loadRequest ns s.input) s).1 ≠ some 0) :
    ((kHost env).cairnGet s buf).1 = none := by
  unfold kHost
  dsimp only
  rw [hns]
  dsimp only
  rw [if_pos hok, if_neg h]

theorem takeWhile_ne_zero : data.takeWhile (· != 0) = data ↔ 0 ∉ data := by
  have htake := takeWhile_take_eq (s := data) (n := data.length)
  rw [List.take_length] at htake
  rw [htake]
  exact and_iff_right (Nat.le_refl _)

theorem runClient_clean (r : Request) (hup : env.serving s.requests = true)
    (hio : env.faults s.requests = .clean) :
    (runClient env r s).1 = ((serve env.fuel r s.window).eval s.disk).1 ∧
      (runClient env r s).2.window =
        (((serve env.fuel r s.window).eval s.disk).1.map Reply.window).getD s.window := by
  constructor
  · rw [runClient, if_pos hup, hio, run_clean]
  · rw [runClient, if_pos hup, hio, run_clean]

section
variable (h : Stored s.disk ns data) (hns : env.launch.cairnNs = some ns)
  (hok : env.nsAuthorityOk = true) (hup : env.serving s.requests = true)
  (hio : env.faults s.requests = .clean)
include h hns hok hup hio

theorem get_loaded (hrev : revoked s.disk ns = 0) (hlen : data.length ≤ 447)
    (hbuf : data.length ≤ buf.length) :
    ((kHost env).cairnGet s buf).1 = some (data.takeWhile (· != 0)).length ∧
      ((kHost env).cairnGet s buf).2.1.val =
        data.takeWhile (· != 0) ++ buf.drop (data.takeWhile (· != 0)).length := by
  obtain ⟨aux, i, hd⟩ := decodes_get hns s.input
  have hget := serve_get_kept (lt_nsMax hns) h.ne h.keeps hd (allowed_client ns (lt_nsMax hns))
    env.fuel s.window
  rw [List.take_of_length_le hlen, if_pos hrev] at hget
  obtain ⟨r, hr, hread⟩ := Option.bind_eq_some_iff.mp hget
  have hstatus : responseStatus r.word = 0 := by
    by_contra hne
    rw [if_pos hne] at hread
    cases hread
  rw [if_neg (not_not.mpr hstatus)] at hread
  have hvalue : windowValue r.window = data.takeWhile (· != 0) := Option.some.inj hread
  obtain ⟨hfirst, hwindow⟩ := runClient_clean (Launch.loadRequest ns s.input) hup hio
  rw [hr, Option.map_some, Option.getD_some] at hwindow
  have hanswered := @get_answered env s ns buf hns hok
  rw [hfirst, hr, hwindow] at hanswered
  obtain ⟨hn, hfilled⟩ := hanswered (congrArg some hstatus)
  have hprefix := (List.takeWhile_prefix (· != (0 : UInt8)) (l := data)).length_le
  obtain ⟨hloaded, htake⟩ := @loadedLen_eq buf r.window (by rw [hvalue]; omega)
  rw [hn, hfilled, filled, htake, hloaded, hvalue]
  exact ⟨rfl, rfl⟩

theorem get_revoked (hrev : revoked s.disk ns ≠ 0) : ((kHost env).cairnGet s buf).1 = none := by
  obtain ⟨aux, i, hd⟩ := decodes_get hns s.input
  have hget := serve_get_kept (lt_nsMax hns) h.ne h.keeps hd (allowed_client ns (lt_nsMax hns))
    env.fuel s.window
  rw [if_neg hrev] at hget
  refine get_refused hns hok fun hzero => ?_
  rw [(runClient_clean _ hup hio).1] at hzero
  obtain ⟨r, hr, hword⟩ := Option.map_eq_some_iff.mp hzero
  rw [hr, cairnGetValue, Option.bind_some, if_neg (not_not.mpr hword)] at hget
  cases hget

theorem get_stored (hlen : data.length ≤ 447) (hbuf : data.length ≤ buf.length) :
    (((kHost env).cairnGet s buf).1 = some data.length ∧
        ((kHost env).cairnGet s buf).2.1.val = data ++ buf.drop data.length) ↔
      revoked s.disk ns = 0 ∧ 0 ∉ data := by
  by_cases hrev : revoked s.disk ns = 0
  · obtain ⟨hn, hout⟩ := get_loaded h hns hok hup hio hrev hlen hbuf
    rw [hn, hout, Option.some.injEq]
    constructor
    · rintro ⟨hlength, -⟩
      exact ⟨hrev, takeWhile_ne_zero.mp ((List.takeWhile_prefix _).eq_of_length hlength)⟩
    · rintro ⟨-, hzero⟩
      rw [takeWhile_ne_zero.mpr hzero]
      exact ⟨rfl, rfl⟩
  · rw [get_revoked h hns hok hup hio hrev]
    refine iff_of_false (fun hleft => ?_) fun hright => hrev hright.1
    cases hleft.1

end

end

section
variable {env : Env}

theorem chained_same {s t : Storage} {log : List (Storage × Effect)}
    (h : Chained (kHost env) s log t) (hquiet : ∀ q ∈ log, ∀ data, q.2 ≠ .cairnPut data) :
    SameStore s.disk t.disk := by
  induction log generalizing s with
  | nil =>
    cases h
    exact .refl _
  | cons q log ih =>
    obtain ⟨hq, hrest⟩ := List.forall_mem_cons.mp hquiet
    have hstep : SameStore s.disk ((kHost env).after s q.2).disk := by
      cases he : q.2 with
      | printNum v | printStr text => exact .refl _
      | cairnPut data => exact absurd he (hq data)
      | cairnGet buf => exact get_same
    exact hstep.trans (ih h.2 hrest)

end

/-- In any run of any program: after a store of at most 447 bytes that succeeded, with
no other store in between, a load into a buffer that has room and that nothing fails on
gives back exactly the value and its length, if and only if the namespace is not revoked
and no byte of the value is zero. -/
theorem agent_value_returned (env : Env) (p : Profile) (code : List UInt8) (turns : ℕ)
    (start s t : Storage) (before between after : List (Storage × Effect)) (data buf : List UInt8)
    (hlog : effects (IrMachine.run p (kHost env) code turns start) =
      before ++ (s, .cairnPut data) :: (between ++ (t, .cairnGet buf) :: after))
    (hput : ((kHost env).cairnPut s data).1 = true)
    (hquiet : ∀ q ∈ between, ∀ x, q.2 ≠ .cairnPut x) (hlen : data.length ≤ 447)
    (hbuf : data.length ≤ buf.length) (hup : env.serving t.requests = true)
    (hio : env.faults t.requests = .clean) :
    ∃ ns, env.launch.cairnNs = some ns ∧
      ((((kHost env).cairnGet t buf).1 = some data.length ∧
          ((kHost env).cairnGet t buf).2.1.val = data ++ buf.drop data.length) ↔
        revoked s.disk ns = 0 ∧ 0 ∉ data) := by
  have hchain := @chained_run _ p (kHost env) code turns start
  rw [hlog] at hchain
  obtain ⟨u, -, hu, hrest⟩ := hchain.split
  obtain ⟨v, hbetween, hv, -⟩ := Chained.split hrest
  obtain ⟨ns, hns, hok, hstored, hrevoked⟩ := put_stored hput
  have hs : s = u := hu
  have ht : t = v := hv
  subst hs ht
  have hsame := chained_same hbetween hquiet
  refine ⟨ns, hns, ?_⟩
  rw [get_stored (hstored.same hsame) hns hok hup hio hlen hbuf, hsame.revoked_eq]
  exact and_congr_left fun _ => by rw [← hrevoked]; rfl

section

/-- Writes a byte to memory, stores it as a value and loads the value. -/
def storeAndLoad (b : UInt8) : List UInt8 :=
  let words (x y : UInt8) : List UInt8 :=
    [0x01, x, 0, 0, 0, 0, 0, 0, 0, 0x01, y, 0, 0, 0, 0, 0, 0, 0]
  words 0 b ++ [0x21] ++ words 0 1 ++ [0x50, 2] ++ words 0 8 ++ [0x50, 3]

variable {S : Type} {h : Host S} {s : S} {b : UInt8}

theorem effects_get {p : Profile} {m : Machine S} {a e : ℕ} {buf : List UInt8} {vm : Vm}
    (hbytes : hostBytes p m.vm = .ok (a, e, buf, vm)) :
    effects (perform p h .cairnGet m) = m.log ++ [(m.host, .cairnGet buf)] := by
  simp only [perform, hbytes, Machine.orFail]
  cases fill vm.mem a e (h.cairnGet m.host buf).2.1.val with
  | error f => rfl
  | ok mem =>
    cases (h.cairnGet m.host buf).1 with
    | none => rfl
    | some k =>
      dsimp only
      cases Vm.push { vm with mem := mem } (BitVec.ofNat 64 k) with
      | error f | ok vm' => rfl

def holding (b : UInt8) (x : I64) (sp : ℕ) : Vm :=
  { Vm.init with
    stack := (Vm.init.stack.set 0 0).set 1 x
    sp := sp
    mem := Vm.init.mem.set 0 b }

theorem run_store (hb : b = 0 ∨ b = 65) (hcan : h.can s capWrite = true)
    (hput : (h.cairnPut s [b]).1 = true) :
    IrMachine.run .release h (storeAndLoad b) 6 s =
      .next ⟨39, holding b 1 0, (h.cairnPut s [b]).2, [(s, .cairnPut [b])]⟩ := by
  have hrun : IrMachine.run .release h (storeAndLoad b) 6 s =
      if h.can s capWrite then
        if (h.cairnPut s [b]).1 then
          .next ⟨39, holding b 1 0, (h.cairnPut s [b]).2, [(s, .cairnPut [b])]⟩
        else .stop ⟨.error (.trap .noDisk), (h.cairnPut s [b]).2, [(s, .cairnPut [b])]⟩
      else .stop ⟨.error (.trap .missingCapability), s, []⟩ := by
    have hpushed : StepRun.runFor (step .release h (storeAndLoad b)) 5 (Machine.init s) =
        .next ⟨37, holding b 1 2, s, []⟩ := by
      rcases hb with rfl | rfl <;> rfl
    unfold IrMachine.run
    rw [StepRun.runFor_succ, hpushed]
    rcases hb with rfl | rfl <;> rfl
  rw [hrun, if_pos hcan, if_pos hput]

theorem effects_storeAndLoad (hb : b = 0 ∨ b = 65) (hcan : ∀ t, h.can t capWrite = true)
    (hcan' : ∀ t, h.can t capRead = true) (hput : (h.cairnPut s [b]).1 = true) :
    effects (IrMachine.run .release h (storeAndLoad b) 9 s) =
      [(s, .cairnPut [b]), ((h.cairnPut s [b]).2, .cairnGet (b :: List.replicate 7 0))] := by
  have hstore := run_store hb (hcan s) hput
  generalize (h.cairnPut s [b]).2 = t at hstore ⊢
  generalize hlog : [(s, Effect.cairnPut [b])] = log at hstore
  have hload : effects (IrMachine.run .release h (storeAndLoad b) 9 s) =
      effects (if h.can t capRead then perform .release h .cairnGet ⟨59, holding b 8 2, t, log⟩
        else .stop ⟨.error (.trap .missingCapability), t, log⟩) := by
    unfold IrMachine.run at hstore ⊢
    rw [StepRun.runFor_succ, StepRun.runFor_succ, StepRun.runFor_succ, hstore]
    rcases hb with rfl | rfl <;> rfl
  have hbytes : hostBytes .release (holding b 8 2) =
      .ok (0, 8, b :: List.replicate 7 0, holding b 8 0) := rfl
  rw [hload, if_pos (hcan' t), effects_get hbytes, ← hlog]
  rfl

end

def noteEnv : Env where
  launch := ⟨PackageFormat.kindDezhIr, ascii "note", mcapCairnRead ||| mcapCairnWrite, 0, by decide⟩
  nsAuthorityOk := true
  serving _ := true
  faults _ := .clean
  fuel := 0

def blankStorage : Storage := ⟨blank, fun _ => 0, fun _ => 0, 0⟩

theorem noteEnv_ns : noteEnv.launch.cairnNs = some 0 := by decide

theorem blank_put : ∀ b ∈ [0, 65], ((kHost noteEnv).cairnPut blankStorage [b]).1 = true := by
  decide +kernel

/-- The value `A` is stored and loaded by a program. -/
theorem agent_value_returned_byte :
    effects (IrMachine.run .release (kHost noteEnv) (storeAndLoad 65) 9 blankStorage) =
        [(blankStorage, .cairnPut [65]),
          (((kHost noteEnv).cairnPut blankStorage [65]).2, .cairnGet [65, 0, 0, 0, 0, 0, 0, 0])] ∧
      ((kHost noteEnv).cairnGet ((kHost noteEnv).cairnPut blankStorage [65]).2
        [65, 0, 0, 0, 0, 0, 0, 0]).1 = some 1 := by
  have hlog := effects_storeAndLoad (h := kHost noteEnv) (s := blankStorage) (b := 65) (.inr rfl)
    (fun _ => rfl) (fun _ => rfl) (blank_put 65 (by decide))
  obtain ⟨ns, hns, hiff⟩ := agent_value_returned noteEnv .release (storeAndLoad 65) 9 blankStorage
    blankStorage ((kHost noteEnv).cairnPut blankStorage [65]).2 [] [] [] [65] _ hlog
    (blank_put 65 (by decide)) (fun q hq => absurd hq List.not_mem_nil) (by decide) (by decide) rfl
    rfl
  rw [noteEnv_ns] at hns
  cases hns
  exact ⟨hlog, (hiff.mpr ⟨blank_open.1, by decide⟩).1⟩

/-- One zero byte is stored by a program, and loaded as an empty value. -/
theorem zero_byte_lost :
    effects (IrMachine.run .release (kHost noteEnv) (storeAndLoad 0) 9 blankStorage) =
        [(blankStorage, .cairnPut [0]),
          (((kHost noteEnv).cairnPut blankStorage [0]).2, .cairnGet (List.replicate 8 0))] ∧
      ((kHost noteEnv).cairnPut blankStorage [0]).1 = true ∧
      ((kHost noteEnv).cairnGet ((kHost noteEnv).cairnPut blankStorage [0]).2
        (List.replicate 8 0)).1 = some 0 := by
  have hlog := effects_storeAndLoad (h := kHost noteEnv) (s := blankStorage) (b := 0) (.inl rfl)
    (fun _ => rfl) (fun _ => rfl) (blank_put 0 (by decide))
  exact ⟨hlog, blank_put 0 (by decide), by decide +kernel⟩

end Dezh.AgentStorage

import Dezh.IrVerifier
import Dezh.PackageStore

/-!
# From the store to the interpreter

The store checks a bytecode package when it is received, when it is loaded and when
its blob is verified, with the verifier of the machine. So every bytecode package that
the store lets through runs on the decomposition that the verifier has computed.
-/
namespace Dezh.PackageExecution
open ByteLayout PackageFormat PackageStore IrMachine StepRun

section
variable {raw : List UInt8} {q : Inspected}

theorem verify_of_inspect (h : inspect raw = some q) (hk : q.kind = kindDezhIr) :
    IrMachine.verify q.payload = .ok () := by
  unfold inspect at h
  cases hp : parse raw with
  | error e =>
    rw [hp] at h
    cases h
  | ok pkg =>
    rw [hp] at h
    dsimp only at h
    split at h
    · next name mcaps hv _ _ =>
        cases h
        rw [verifyPayload, if_pos hk] at hv
        cases hv' : verify pkg.payload with
        | error t =>
          rw [hv'] at hv
          cases hv
        | ok _ => rfl
    · cases h

/-- Whatever the host does, a bytecode package from the store stays on the
decomposition of its payload, and its run does not end for a truncated instruction
or a branch into the middle of one. -/
theorem inspected_runs (h : inspect raw = some q) (hk : q.kind = kindDezhIr) :
    ∃ bounds, Decomposes q.payload bounds ∧ ∀ {S : Type} (p : Profile) (host : Host S) (s : S),
      (∀ m, Reaches (step p host q.payload) (Machine.init s) m → OnTrack q.payload bounds m) ∧
      ∀ n e, IrMachine.run p host q.payload n s = .stop e →
        e.result ≠ .error (.trap .truncated) ∧ e.result ≠ .error (.trap .badTarget) := by
  obtain ⟨bounds, -, hd⟩ := decomposes_of_verify (verify_of_inspect h hk)
  refine ⟨bounds, hd, fun p host s => ⟨fun m hr => onTrack_of_reaches hd hr, ?_⟩⟩
  intro n e he
  obtain ⟨m, hr, hm⟩ := exists_last he
  obtain ⟨htrunc, htgt, -⟩ := (onTrack_of_reaches hd hr).stop hd hm
  exact ⟨htrunc, htgt⟩

end

/-- A package with a call, a host call and a return, on a host without a disk: its run stays on
the decomposition, and ends for the host call. -/
theorem inspected_runs_calling :
    ∃ bounds, Decomposes callingProgram bounds ∧
      (∀ m, Reaches (step .dev openHost callingProgram) (Machine.init ()) m →
        OnTrack callingProgram bounds m) ∧
      ∃ e, IrMachine.run .dev openHost callingProgram 2 () = .stop e ∧
        e.result = .error (.trap .badOpcode) ∧
        e.result ≠ .error (.trap .truncated) ∧ e.result ≠ .error (.trap .badTarget) := by
  have hinspect : inspect (pack kindDezhIr (ascii "name = \"a\"") callingProgram) =
      some ⟨kindDezhIr, ascii "a", defaultVersion, 0, callingProgram⟩ := by decide +kernel
  have hrun : Outcome.result? (IrMachine.run .dev openHost callingProgram 2 ()) =
      some (.error (.trap .badOpcode)) := by decide +kernel
  obtain ⟨bounds, hd, hall⟩ := inspected_runs hinspect rfl
  obtain ⟨e, he, hbad⟩ := exists_stop_of_result hrun
  obtain ⟨htrack, hstop⟩ := hall .dev openHost ()
  exact ⟨bounds, hd, htrack, e, he, hbad, hstop 2 e he⟩

end Dezh.PackageExecution

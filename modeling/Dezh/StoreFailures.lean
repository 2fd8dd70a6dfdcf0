import Dezh.PackageCommands
import Dezh.ProgramEffects

/-!
# Failures of the steps of the package store

Every step of a command reports its failure, and the command then gives up at once. So
an accepted update that ends with an error leaves the disk as a power cut would.
-/
namespace Dezh.StoreFailures
open BlockProgram Program ByteLayout CairnService BlockDaemon PackageStore
  PackageCommands

section
variable {a : PkgArea} {first base len : ℕ} {data : Bytes} {k : Kernel} {r : JournalRecord}
  {raw : List UInt8}

theorem failStop_readSector (s : ℕ) : (readSector a s).FailStop fun x => x = none := by
  unfold readSector pkgRead
  split_ifs
  · trivial
  · exact ⟨fun _ => trivial, none, rfl, rfl⟩

theorem failStop_access {w : Bytes} (s : ℕ) :
    (access w s true >>= fun a => pure (decide (a.value = .ok))).FailStop fun ok => ok = false :=
  ⟨trivial, false, rfl, rfl⟩

theorem failStop_writeSector (s : ℕ) : (writeSector a s data).FailStop fun ok => ok = false := by
  unfold writeSector pkgWrite
  split_ifs
  · trivial
  · exact failStop_access s

theorem failStop_readSectors (n i : ℕ) (buf : Bytes) :
    (readSectors a first n i buf).FailStop fun x => x = none := by
  induction n generalizing i buf with
  | zero => trivial
  | succ n ih =>
    refine (failStop_readSector (first + i)).bind (fun x => ?_) fun x hx => ⟨none, rfl, ?_⟩
    · cases x with
      | none => trivial
      | some s => exact ih _ _
    · rw [hx]
      rfl

theorem failStop_writeSectors {n i : ℕ} :
    (writeSectors a first data n i).FailStop fun ok => ok = false := by
  induction n generalizing i with
  | zero => trivial
  | succ n ih => exact (failStop_writeSector (first + i)).ite ih rfl

theorem failStop_initStoreMarker : initStoreMarker.FailStop fun ok => ok = false :=
  failStop_access _

theorem failStop_commitStore : (commitStore k).FailStop fun ok => ok = false :=
  failStop_writeSectors.ite (failStop_initStoreMarker.ite failStop_writeSectors rfl) rfl

theorem failStop_readBlobArea : (readBlobArea base len).FailStop fun x => x = none := by
  unfold readBlobArea
  split_ifs
  · trivial
  · refine (failStop_readSectors _ _ _).bind (fun x => trivial) fun x hx => ⟨none, rfl, ?_⟩
    rw [hx]
    rfl

theorem failStop_copyBlobArea {target : ℕ} :
    (copyBlobArea base target len).FailStop fun ok => ok = false := by
  unfold copyBlobArea
  split_ifs
  · trivial
  · refine failStop_readBlobArea.bind (fun x => ?_) fun x hx => ⟨false, rfl, ?_⟩
    · cases x with
      | none => trivial
      | some raw => exact failStop_writeSectors
    · rw [hx]
      rfl

theorem failStop_verifyBlobRecordAt :
    (verifyBlobRecordAt base r).FailStop fun ok => ok = false := by
  unfold verifyBlobRecordAt
  split_ifs
  · trivial
  · refine failStop_readBlobArea.bind (fun x => ?_) fun x hx => ⟨false, rfl, ?_⟩
    · cases x with
      | none => trivial
      | some raw =>
        simp only
        split_ifs
        · trivial
        · split <;> trivial
    · rw [hx]
      rfl

end

theorem failStop_update {k : Kernel} {u : Replacement} {raw : List UInt8} :
    (update k u raw).FailStop fun _ => True := by
  unfold update
  refine failStop_writeSectors.ite ?_ trivial
  refine failStop_writeSectors.ite ?_ trivial
  refine failStop_writeSectors.ite ?_ trivial
  refine failStop_verifyBlobRecordAt.ite ?_ trivial
  refine failStop_copyBlobArea.ite ?_ trivial
  refine failStop_writeSectors.ite ?_ trivial
  refine failStop_writeSectors.ite ?_ trivial
  refine failStop_copyBlobArea.ite ?_ trivial
  exact failStop_commitStore.ite trivial trivial

end Dezh.StoreFailures

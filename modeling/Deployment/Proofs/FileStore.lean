import Deployment.GraphCompilation
import Deployment.InstanceCompilation
import Deployment.Proofs.Closure
import Deployment.Proofs.Path
import Deployment.Proofs.Table

/-!
# Stores with a single file

A walk that starts from the only file of a store visits this file and nothing else, if the file
imports nothing (`walk_single`). What is compiled from it then comes of this file alone.
-/

namespace Deployment

/-- The closure of a file that imports nothing. -/
def Closure.single (check : BlockCheck) (expected : Expectation) (d : FileDefinition) : Closure :=
  [.loaded (takeIn check expected d.file.normalize d)]

namespace Closure

variable {check : BlockCheck} {expected : Expectation} {d : FileDefinition}

theorem blocks_single : (single check expected d).blocks = d.blocks := List.append_nil _

/-- In a file that carries nothing and is of an accepted kind, only blocks can be faulty. -/
theorem diagnostics_single (hcarried : d.diagnostics = [])
    (hkind : expected.accepted.contains d.kind) :
    (single check expected d).diagnostics = d.blocks.flatMap check := by
  have hvisit : (single check expected d).diagnostics =
      (takeIn check expected d.file.normalize d).diagnostics ++ [] :=
    rfl
  rw [hvisit, takeIn, if_pos hkind, hcarried, List.nil_append, List.append_nil, List.append_nil]

end Closure

namespace FileStore

variable (d : FileDefinition)

theorem key_normalize (path : Path) : key path.normalize = key path := by
  rw [key, key, Path.normalize_normalize]

theorem files_single : (empty.insert d).files.get? (key d.file) = some d := by
  rw [insert, Table.get?_insert, if_pos rfl]

theorem has_single : (empty.insert d).loader.has d.file.normalize = true := by
  change (empty.insert d).has _ = true
  rw [has, key_normalize, Table.contains, Table.contains, files_single]
  exact Bool.or_true _

theorem load_single : (empty.insert d).loader.load d.file.normalize = .ok d := by
  change (empty.insert d).load _ = _
  have hfaults : (empty.insert d).faults.get? (key d.file) = none := rfl
  rw [load, key_normalize, hfaults, files_single]

/-- The walk from a file without imports. -/
theorem walk_single (check : BlockCheck) (expected : Expectation) (dir : Path)
    (h : d.imports = []) :
    Closure.walk (empty.insert d).loader check expected d.file dir =
      .ok (.single check expected d) := by
  rw [Closure.walk]
  have hlimit : (empty.insert d).loader.limit = (empty.insert d).importCount + 1 := rfl
  rw [hlimit, Closure.walkFrom, if_pos (has_single d), load_single]
  dsimp only
  rw [h, Closure.enqueue, Closure.walkFrom]
  rfl

theorem made_single (check : BlockCheck) (expected : Expectation) (h : d.imports = []) :
    ∀ v ∈ Closure.single check expected d,
      Closure.Made (empty.insert d).loader check expected v :=
  Closure.visits_of_walk (walk_single d check expected ⟨""⟩ h)

end FileStore

variable {d : FileDefinition}

theorem GraphCompilation.compile_single (h : d.imports = []) (check : BlockCheck) (dir : Path)
    (flexible : Bool) :
    compile (FileStore.empty.insert d).loader check d.file dir flexible =
      .ok (ofClosure flexible (.single check .types d)) := by
  rw [compile, FileStore.walk_single d check .types dir h]
  rfl

theorem InstanceCompilation.compile_single (h : d.imports = []) (check : BlockCheck)
    (g : TypeGraph) (dir : Path) :
    compile (FileStore.empty.insert d).loader check g d.file dir =
      .ok (ofClosure g (.single check .instances d)) := by
  rw [compile, FileStore.walk_single d check .instances dir h]
  rfl

end Deployment

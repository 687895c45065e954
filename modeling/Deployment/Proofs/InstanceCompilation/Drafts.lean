import Deployment.InstanceCompilation
import Deployment.Proofs.Closure
import Deployment.Proofs.InstanceBuilder.Checks

/-!
# Compilations and drafts

A compilation creates instances one by one, links them file by file, copies them one after the other
and looks at names and paths when all is done. What comes out can be said of the drafts of the
closure at once: the roots span the trees that the drafts stand for, and what is reported is what
can be said against the drafts in their places.

* `early`, `settledDrafts`: what is found before any copy is made, and what then becomes of the
  drafts;
* `built_build`, `exists_expanded`: the forest of the declarations, and that with all copies;
* `spans_ofClosure`, `toTrees_ofClosure`, `diagnostics_ofClosure`: what a compilation results in.
-/

namespace Deployment.InstanceCompilation

open Deployment.Tree Draft InstanceBuilder

/-- The drafts of a closure. -/
def draftsOf (closure : Closure) : List (Tree Draft) :=
  closure.files.flatMap fun file => ofBlocks file.definition.blocks

/-- What is found before any copy is made. -/
def early (g : TypeGraph) (closure : Closure) : List Diagnostic := (build g closure).diagnostics

/-- The drafts of a closure, for one copy each if something severe was found early. -/
def settledDrafts (g : TypeGraph) (closure : Closure) : List (Tree Draft) :=
  if Diagnostic.anySevere (early g closure) then mapAll single (draftsOf closure)
  else draftsOf closure

/-- What becomes of the drafts of a closure: if something severe was found early, they ask for
    one copy only. -/
def settle (g : TypeGraph) (closure : Closure) : Draft → Draft :=
  if Diagnostic.anySevere (early g closure) then single else id

theorem draftsOf_eq (closure : Closure) : draftsOf closure = ofBlocks closure.blocks := by
  rw [draftsOf, Closure.blocks]
  induction closure.files with
  | nil => rfl
  | cons f fs ih => rw [List.flatMap_cons, List.flatMap_cons, ofBlocks_append, ih]

theorem settledDrafts_eq (g : TypeGraph) (closure : Closure) :
    settledDrafts g closure = (ofBlocks closure.blocks).map (Tree.map (settle g closure)) := by
  rw [settledDrafts, settle, draftsOf_eq, mapAll_eq_map]
  split
  · rfl
  · rw [funext (map_id (α := Draft)), List.map_id']

variable {loader : Loader} {g : TypeGraph} {closure : Closure}

/-! ### The forest of the declarations -/

/-- The forest of the declarations spans the drafts. -/
theorem built_build (g : TypeGraph) (closure : Closure) :
    Built g closure.diagnostics (build g closure) (draftsOf closure) := by
  have hbuilt := (built_start g closure.diagnostics).buildFiles
    (closure.files.map fun file => file.definition.blocks)
  rwa [List.foldl_map, List.nil_append, List.flatMap_map] at hbuilt

/-- Before any copy is made, unknown components are found. -/
theorem early_eq (g : TypeGraph) (closure : Closure) :
    early g closure = closure.diagnostics ++ unknownComponents g (draftsOf closure) :=
  (built_build g closure).diagnostics_eq

/-- Without severe diagnostics, every declaration of a closure is sound. -/
theorem sound_of_early (hmade : ∀ v ∈ closure, Closure.Made loader Block.check .instances v)
    (hearly : Diagnostic.anySevere (early g closure) = false) {b : InstanceDeclaration}
    (hb : Block.Within closure.blocks b) : b.Sound := by
  refine InstanceDeclaration.sound_of_within (fun c hc => ?_) hb
  obtain ⟨f, hf, hblock⟩ := List.mem_flatMap.1 (Block.mem_instances.1 hc)
  rw [early_eq] at hearly
  exact Closure.check_of_walk hmade
    (Diagnostic.anySevere_of_subset (fun d hd => List.mem_append_left _ hd) hearly) hf hblock

/-! ### The forest with all copies -/

/-- The builder when all copies have been made. -/
def copied (g : TypeGraph) (closure : Closure) : InstanceBuilder :=
  if Diagnostic.anySevere (build g closure).diagnostics then build g closure
  else (build g closure).replicate

/-- Drafts for one copy each do not clash. -/
theorem clashes_map_single (ts : List (Tree Draft)) : clashes (ts.map (Tree.map single)) = [] := by
  rw [clashes_eq_nil_iff]
  intro p hp
  refine clashing_eq_nil_iff.2 fun name hname => ?_
  rw [tail_names_of_single _ _ _ p hp] at hname
  exact nomatch hname

/-- All instances have got the copies that the settled drafts stand for, and the clashes have been
    reported. -/
theorem exists_expanded (g : TypeGraph) (closure : Closure) :
    ∃ copies, Expanded (settle g closure) (build g closure) (copied g closure) copies ∧
      (copied g closure).diagnostics = early g closure ++ clashes (settledDrafts g closure) := by
  have hbuilt := built_build g closure
  rw [settledDrafts_eq, ← draftsOf_eq, settle, copied, early]
  split
  · refine ⟨_, expanded_single hbuilt.treeShaped, ?_⟩
    rw [clashes_map_single, List.append_nil]
  · obtain ⟨copies, hexpanded, hdiagnostics⟩ :=
      exists_expanded_replicate hbuilt.treeShaped hbuilt.spans
    refine ⟨copies, hexpanded, ?_⟩
    rw [hdiagnostics, hexpanded.map_filter_isTaken hbuilt.treeShaped hbuilt.spans, clashes]

/-! ### The compilation -/

theorem treeShaped_ofClosure (g : TypeGraph) (closure : Closure) :
    (ofClosure g closure).forest.TreeShaped := by
  obtain ⟨copies, hexpanded, -⟩ := exists_expanded g closure
  exact hexpanded.treeShaped

/-- The forest of a closure spans the trees that its drafts stand for. -/
theorem spans_ofClosure (g : TypeGraph) (closure : Closure) :
    List.Forall₂ ((ofClosure g closure).forest.Spans (copied g closure).Holds)
      (ofClosure g closure).forest.roots (expandRoots (settledDrafts g closure)) := by
  have hbuilt := built_build g closure
  obtain ⟨copies, hexpanded, -⟩ := exists_expanded g closure
  rw [settledDrafts_eq, ← draftsOf_eq]
  exact hexpanded.spans_roots hbuilt.treeShaped hbuilt.spans

/-- The trees of instances are those that the drafts stand for. -/
theorem toTrees_ofClosure (g : TypeGraph) (closure : Closure) :
    (ofClosure g closure).forest.toTrees =
      mapAll Draft.body (expandRoots (settledDrafts g closure)) := by
  rw [mapAll_eq_map]
  exact (treeShaped_ofClosure g closure).toTrees_of_spans (fun _ _ hd => hd.body)
    (spans_ofClosure g closure)

/-- What a compilation reports can be said against the drafts in their places. -/
theorem diagnostics_ofClosure (g : TypeGraph) (closure : Closure) :
    (ofClosure g closure).diagnostics = early g closure ++ clashes (settledDrafts g closure) ++
      repetitions (settledDrafts g closure) := by
  have hbuilt := built_build g closure
  obtain ⟨copies, hexpanded, hdiagnostics⟩ := exists_expanded g closure
  have hpaths := hexpanded.declaredPaths_eq hbuilt.treeShaped hbuilt.spans
    (hbuilt.logged.declared.trans hbuilt.all.symm)
  rw [draftsOf_eq, ← settledDrafts_eq] at hpaths
  rw [repetitions, ← hpaths, ← hdiagnostics]
  rfl

end Deployment.InstanceCompilation

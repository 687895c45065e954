import Deployment.Proofs.FileStore
import Deployment.Proofs.InstanceCompilation.Drafts

/-!
# Instances with the same path

A compilation does not compare all paths: it compares the instances created for declarations with
each other, and every further copy with what stands beside it. What is below a further copy is
compared with nothing, and need not be, since its names are those below the first copy
(`distinctAll_expandAll_iff`).

* `nodup_map_pathOf_iff`: where no name has a slash, paths are as different as the names are side
  by side;
* `paths_distinct_iff`: two instances of a compiled forest have the same path exactly if the
  compilation said so.
-/

namespace Deployment

open Deployment.Tree Draft

/-! ### Paths and names -/

namespace Forest

/-- Where no name has a slash, the paths of the nodes of some trees differ exactly if the names
    side by side do. -/
theorem nodup_map_pathOf_iff {α : Type} {name : α → String} {ts : List (Tree α)}
    (h : ∀ l ∈ lineagesAll ts, ∀ v ∈ l, '/' ∉ (name v).toList) :
    ((lineagesAll ts).map fun l => pathOf (l.map name)).Nodup ↔ DistinctAll name ts := by
  rw [← nodup_lineagesAll_iff]
  have hcomp : ((lineagesAll ts).map fun l => pathOf (l.map name)) =
      ((lineagesAll ts).map (List.map name)).map pathOf := by
    rw [List.map_map]
    rfl
  rw [hcomp]
  refine ⟨List.Nodup.of_map _, fun hnodup => (List.nodup_map_iff_inj_on hnodup).2 ?_⟩
  intro a ha b hb
  obtain ⟨l, hl, rfl⟩ := List.mem_map.1 ha
  obtain ⟨m, hm, rfl⟩ := List.mem_map.1 hb
  refine pathOf_inj ?_ ?_ ?_ ?_
  · simpa using ne_nil_of_mem_lineagesAll hl
  · simpa using ne_nil_of_mem_lineagesAll hm
  · simpa using h l hl
  · simpa using h m hm

end Forest

theorem Text.slash_not_mem_padded (width n : Nat) : '/' ∉ (padded width n).toList := fun h =>
  absurd (isDigit_of_mem_padded h) (by decide)

theorem Draft.slash_not_mem_nameOf {d : Draft} (h : '/' ∉ d.body.name.toList) (copy : Nat) :
    '/' ∉ (d.nameOf copy).toList := by
  rw [nameOf]
  split
  · exact h
  · rw [String.toList_append, List.mem_append, not_or]
    exact ⟨h, Text.slash_not_mem_padded _ _⟩

/-! ### Copies and paths -/

namespace InstanceCompilation

variable {loader : Loader} {g : TypeGraph} {closure : Closure}

/-- Without severe diagnostics, no copy has a slash in its name. -/
theorem slash_not_mem_copies (hmade : ∀ v ∈ closure, Closure.Made loader Block.check .instances v)
    (hearly : Diagnostic.anySevere (early g closure) = false) {l : List Draft}
    (hl : l ∈ lineagesAll (expandRoots (ofBlocks closure.blocks))) {d : Draft} (hd : d ∈ l) :
    '/' ∉ d.body.name.toList := by
  have htrees := map_snd_pickedTrees id closure.blocks
  rw [funext (map_id (α := Draft)), List.map_id'] at htrees
  rw [← htrees, lineagesAll_map] at hl
  obtain ⟨m, hm, rfl⟩ := List.mem_map.1 hl
  obtain ⟨c, hc, rfl⟩ := (mem_lineagesAll_iff_chain id).1 hm
  rw [List.map_map] at hd
  obtain ⟨q, hq, rfl⟩ := List.mem_map.1 hd
  have hsound := sound_of_early hmade hearly (hc.within hq)
  refine slash_not_mem_nameOf ?_ _
  obtain ⟨value, hvalue, hname⟩ := hsound.name
  rw [id, InstanceDeclaration.draft_name hsound, InstanceDeclaration.name, hvalue]
  exact slash_not_mem_of_isInstanceName hname

theorem slash_not_mem_firstName
    (hmade : ∀ v ∈ closure, Closure.Made loader Block.check .instances v)
    (hearly : Diagnostic.anySevere (early g closure) = false) {l : List Draft}
    (hl : l ∈ lineagesAll (ofBlocks closure.blocks)) {d : Draft} (hd : d ∈ l) :
    '/' ∉ d.firstName.toList := by
  obtain ⟨b, hb, rfl⟩ := exists_declaration hl hd
  have hsound := sound_of_early hmade hearly hb
  refine slash_not_mem_nameOf ?_ 1
  obtain ⟨value, hvalue, hname⟩ := hsound.name
  rw [InstanceDeclaration.draft_name hsound, InstanceDeclaration.name, hvalue]
  exact slash_not_mem_of_isInstanceName hname

/-- The paths of the forest of a closure differ exactly if nothing is said against them. -/
theorem nodup_paths_iff (hmade : ∀ v ∈ closure, Closure.Made loader Block.check .instances v) :
    ((ofClosure g closure).forest.all.map (ofClosure g closure).forest.path).Nodup ↔
      clashes (settledDrafts g closure) = [] ∧ repetitions (settledDrafts g closure) = [] := by
  have hpaths := (treeShaped_ofClosure g closure).map_path_perm (fun _ _ hd => hd.body)
    (spans_ofClosure g closure)
  rw [hpaths.nodup_iff, repetitions_eq_nil_iff]
  by_cases hearly : Diagnostic.anySevere (early g closure) = true
  · -- Each draft stands for itself, so that the first copies are all there are.
    have hdrafts : settledDrafts g closure = mapAll single (draftsOf closure) := if_pos hearly
    rw [hdrafts, expandRoots_map_single, mapAll_eq_map, lineagesAll_map, List.map_map, List.map_map,
      and_iff_right (clashes_map_single _)]
    refine (congrArg List.Nodup (List.map_congr_left fun l _ => ?_)).to_iff
    rw [Function.comp_apply, Function.comp_apply, List.map_map, List.map_map]
    rfl
  · have hearly : Diagnostic.anySevere (early g closure) = false := by simpa using hearly
    -- No name has a slash, so that paths differ exactly if names do, side by side.
    have hdrafts : settledDrafts g closure = ofBlocks closure.blocks := by
      rw [settledDrafts, hearly, draftsOf_eq]
      rfl
    rw [hdrafts, clashes_eq_nil_iff,
      Forest.nodup_map_pathOf_iff fun l hl d hd => slash_not_mem_copies hmade hearly hl hd,
      Forest.nodup_map_pathOf_iff fun l hl d hd => slash_not_mem_firstName hmade hearly hl hd]
    exact (distinctAll_perm (arrangeRoots_perm _)).trans (distinctAll_expandAll_iff _ [])

/-! ### The compilation -/

/-- What the compilation of a closure raises itself, beside what the files carry. -/
def raised (g : TypeGraph) (closure : Closure) : List Diagnostic :=
  closure.raised ++ unknownComponents g (draftsOf closure) ++
    clashes (settledDrafts g closure) ++ repetitions (settledDrafts g closure)

theorem diagnostics_ofClosure_perm
    (hmade : ∀ v ∈ closure, Closure.Made loader Block.check .instances v) :
    (ofClosure g closure).diagnostics.Perm (closure.carried ++ raised g closure) := by
  rw [diagnostics_ofClosure, early_eq, raised, ← List.append_assoc, ← List.append_assoc,
    ← List.append_assoc]
  exact (((Closure.diagnostics_perm hmade).append_right _).append_right _).append_right _

/-- What is raised against paths are the clashes and the repetitions. -/
theorem exists_raised_iff (hmade : ∀ v ∈ closure, Closure.Made loader Block.check .instances v) :
    (∃ d ∈ raised g closure,
        d.code = .alreadyDefinedInstance ∨ d.code = .conflictingInferredInstance) ↔
      ¬(clashes (settledDrafts g closure) = [] ∧ repetitions (settledDrafts g closure) = []) := by
  constructor
  · rintro ⟨d, hd, hcode⟩ ⟨hclashes, hrepetitions⟩
    rw [raised, hclashes, hrepetitions, List.append_nil, List.append_nil, List.mem_append] at hd
    rcases hd with hd | hd
    · -- The walk says nothing about paths.
      rcases Closure.mem_raised hmade hd with h | h | h
      · rcases hcode with hcode | hcode <;> rw [h] at hcode <;> exact nomatch hcode
      · rcases hcode with hcode | hcode <;> rw [h] at hcode <;> exact nomatch hcode
      · rcases hcode with hcode | hcode <;> rcases h.family with h | h <;> rw [hcode] at h <;>
          exact nomatch h
    · rw [code_of_mem_unknownComponents hd] at hcode
      rcases hcode with hcode | hcode <;> exact nomatch hcode
  · intro h
    rcases not_and_or.1 h with h | h
    · obtain ⟨d, hd⟩ := List.exists_mem_of_ne_nil _ h
      refine ⟨d, List.mem_append_left _ (List.mem_append_right _ hd), .inr ?_⟩
      exact code_of_mem_clashes hd
    · obtain ⟨d, hd⟩ := List.exists_mem_of_ne_nil _ h
      exact ⟨d, List.mem_append_right _ hd, .inl (code_of_mem_repetitions hd)⟩

/-- Two instances of a compiled forest have the same path exactly if the compilation itself
    raised a repetition or a clash. A forest compiled without severe diagnostics has different
    paths everywhere. -/
theorem paths_distinct_iff {loader : Loader} {g : TypeGraph} {root dir : Path}
    {c : InstanceCompilation} (h : compile loader Block.check g root dir = .ok c) :
    ∃ closure, Closure.walk loader Block.check .instances root dir = .ok closure ∧
      c.diagnostics.Perm (closure.carried ++ raised g closure) ∧
      ((∃ i ∈ c.forest.all, ∃ j ∈ c.forest.all, i ≠ j ∧ c.forest.path i = c.forest.path j) ↔
        ∃ d ∈ raised g closure,
          d.code = .alreadyDefinedInstance ∨ d.code = .conflictingInferredInstance) ∧
      (Diagnostic.anySevere c.diagnostics = false → (c.forest.all.map c.forest.path).Nodup) := by
  obtain ⟨closure, hwalk, rfl⟩ := exists_of_map_eq_ok h
  have hmade := Closure.visits_of_walk hwalk
  have hiff := (treeShaped_ofClosure g closure).exists_path_eq_iff.trans
    (not_congr (nodup_paths_iff hmade))
  refine ⟨closure, hwalk, diagnostics_ofClosure_perm hmade,
    hiff.trans (exists_raised_iff hmade).symm, fun hsevere => ?_⟩
  by_contra hdup
  obtain ⟨d, hd, hcode⟩ := (exists_raised_iff hmade).2 (mt (nodup_paths_iff hmade).2 hdup)
  have hmem := (diagnostics_ofClosure_perm hmade).mem_iff.2 (List.mem_append_right _ hd)
  have hmild := Diagnostic.anySevere_eq_false.1 hsevere d hmem
  rw [Diagnostic.isSevere] at hmild
  rcases hcode with hcode | hcode <;> rw [hcode] at hmild <;> exact nomatch hmild

/-- Two copies of `web`, one of which meets the instance `web2`. -/
def twins : FileDefinition :=
  let site : Site := ⟨⟨"twins.instances"⟩, 1⟩
  .ofBlocks ⟨"twins.instances"⟩
    [.declaration site .instanceOf "VM" [.property site "name" "web", .property site "count" "2"],
      .declaration site .instanceOf "VM" [.property site "name" "web2"]]

/-- The graph of the component of the twins. -/
def machines : TypeGraph := { TypeGraph.empty with components := .ofList [("VM", .named "VM")] }

theorem paths_distinct_iff_twins :
    ∃ c, compile (FileStore.empty.insert twins).loader Block.check machines ⟨"twins.instances"⟩ ⟨""⟩ =
        .ok c ∧
      ∃ i ∈ c.forest.all, ∃ j ∈ c.forest.all, i ≠ j ∧ c.forest.path i = c.forest.path j := by
  have himports : twins.imports = [] := rfl
  have h := compile_single himports Block.check machines ⟨""⟩
  obtain ⟨closure, hwalk, -, hiff, -⟩ := paths_distinct_iff h
  rw [FileStore.walk_single twins Block.check .instances ⟨""⟩ himports] at hwalk
  obtain rfl := Except.ok.inj hwalk
  exact ⟨_, h, hiff.2 (by decide +kernel)⟩

end InstanceCompilation

end Deployment

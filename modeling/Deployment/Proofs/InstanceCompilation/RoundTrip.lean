import Deployment.Proofs.InstanceCompilation.Sound
import Deployment.Proofs.Write.Forest

/-!
# Instances written and compiled again

A forest that was compiled without diagnostics, written as a file, and compiled from this file alone
against the same graph. Whatever the file is called and whatever comments it has, it compiles
without diagnostics to the same forest exactly if the forest is writable (`compile_written_iff`): no
name is padded, the channels are neither padded nor quoted nor have commas that separate, and no
datum is empty.

* `valid_of_clean`: what is compiled without diagnostics are valid instances;
* `toTrees_ofClosure_toFile`, `diagnostics_ofClosure_toFile_iff`: what the compilation of a written
  forest of valid instances results in, whatever the options are.
-/

namespace Deployment

open Deployment.Tree Draft

/-- A forest whose instances are read as they were written. -/
def Forest.Writable (f : Forest) : Prop := ∀ id ∈ f.all, ∀ i, f.get? id = some i → i.Writable

namespace InstanceCompilation

variable {loader : Loader} {g : TypeGraph} {closure : Closure} {root dir : Path}
  {c : InstanceCompilation}

theorem ofClosure_diagnostics_eq_nil_iff :
    (ofClosure g closure).diagnostics = [] ↔
      early g closure = [] ∧ clashes (settledDrafts g closure) = [] ∧
        repetitions (settledDrafts g closure) = [] := by
  rw [diagnostics_ofClosure, List.append_eq_nil_iff, List.append_eq_nil_iff, and_assoc]

/-! ### Compiled forests -/

/-- The paths of a compiled forest differ exactly if those that the names along its trees make
    do. -/
theorem nodup_names_iff :
    ((lineagesAll (ofClosure g closure).forest.toTrees).map fun l =>
        Forest.pathOf (l.map (·.name))).Nodup ↔
      ((ofClosure g closure).forest.all.map (ofClosure g closure).forest.path).Nodup := by
  have hshape := treeShaped_ofClosure g closure
  exact (hshape.map_path_perm (fun _ _ hi => hi) hshape.spans_toTrees).nodup_iff.symm

/-- If nothing is found before anything is copied, all instances are valid. -/
theorem valid_of_early (hmade : ∀ v ∈ closure, Closure.Made loader Block.check .instances v)
    (hearly : early g closure = []) {id : Nat} (hid : id ∈ (ofClosure g closure).forest.all)
    {i : Instance} (hi : (ofClosure g closure).forest.get? id = some i) : i.Valid := by
  have hclosure := (List.append_eq_nil_iff.1 (early_eq g closure ▸ hearly)).1
  obtain ⟨locate, hexpands, -⟩ := expands_of_mild hmade (by rw [hearly]; rfl)
  obtain ⟨b, copy, hb, hbody⟩ := hexpands.exists_declaration hid
  have hclean : b.Clean := by
    refine InstanceDeclaration.clean_of_within (fun d hd => ?_) hb
    exact Closure.check_eq_nil_of_walk hmade hclosure (Block.mem_instances.1 hd)
  cases hi.symm.trans hbody
  exact hclean.valid_copyBody copy

/-- What is compiled without diagnostics are valid instances of known components, with different
    paths. -/
theorem valid_of_clean (h : compile loader Block.check g root dir = .ok c)
    (hclean : c.diagnostics = []) :
    (∀ i ∈ preorders c.forest.toTrees, i.Valid) ∧
      (∀ i ∈ preorders c.forest.toTrees, g.components.contains i.component) ∧
      ((lineagesAll c.forest.toTrees).map fun l => Forest.pathOf (l.map (·.name))).Nodup := by
  obtain ⟨closure, hwalk, rfl⟩ := exists_of_map_eq_ok h
  have hmade := Closure.visits_of_walk hwalk
  obtain ⟨hearly, hpaths⟩ := ofClosure_diagnostics_eq_nil_iff.1 hclean
  refine ⟨?_, ?_, nodup_names_iff.2 ((nodup_paths_iff hmade).2 hpaths)⟩
  · rw [Forest.forall_mem_preorders_toTrees]
    exact fun id hid i hi => valid_of_early hmade hearly hid hi
  · have hknown := (List.append_eq_nil_iff.1 (early_eq g closure ▸ hearly)).2
    rw [Forest.forall_mem_preorders_toTrees]
    intro id hid i hi
    obtain ⟨b, body, hb, hbody, hcomponent⟩ := exists_component hid
    cases hi.symm.trans hbody
    rw [hcomponent]
    exact contains_of_unknownComponents hknown hb

/-! ### Written forests -/

theorem unknownComponents_eq_nil {ds : List (Tree Draft)}
    (h : ∀ i ∈ preorders (mapAll Draft.body ds), g.components.contains i.component) :
    unknownComponents g ds = [] := by
  refine List.flatMap_eq_nil_iff.2 fun d hd => if_pos (h d.body ?_)
  rw [preorders_mapAll]
  exact List.mem_map_of_mem ((flatMap_breadthFirst_perm ds).mem_iff.1 hd)

section Written

variable {f : Forest} (hvalid : ∀ i ∈ preorders f.toTrees, i.Valid) (path : Path)
  (options : WriteOptions)

include hvalid

/-- Whether or not something severe is found, a written forest is drafted for one copy each. -/
theorem settledDrafts_toFile (g : TypeGraph) :
    ∃ ds, ds.map (Tree.map single) = ds ∧
      ds.map (Tree.map Draft.body) = f.toTrees.map (Tree.map (Instance.readBack options)) ∧
      draftsOf (.single Block.check .instances (f.toFile path options)) = ds ∧
      settledDrafts g (.single Block.check .instances (f.toFile path options)) = ds := by
  obtain ⟨hsingle, hbody⟩ := Forest.drafts_written hvalid options path 1
  refine ⟨_, hsingle, hbody, ?_, ?_⟩
  · rw [draftsOf_eq, Closure.blocks_single, Forest.blocks_toFile]
  · rw [settledDrafts_eq, Closure.blocks_single, Forest.blocks_toFile, settle]
    split
    · exact hsingle
    · rw [funext (map_id (α := Draft)), List.map_id']

/-- The file of a forest compiles to the instances as they are read. -/
theorem toTrees_ofClosure_toFile (g : TypeGraph) :
    (ofClosure g (.single Block.check .instances (f.toFile path options))).forest.toTrees =
      mapAll (Instance.readBack options) f.toTrees := by
  obtain ⟨ds, hsingle, hbody, -, hsettled⟩ := settledDrafts_toFile hvalid path options g
  rw [toTrees_ofClosure, hsettled, ← hsingle, ← mapAll_eq_map single, expandRoots_map_single,
    mapAll_eq_map single, hsingle, mapAll_eq_map, hbody, mapAll_eq_map]

/-- The file of a forest of known components compiles without diagnostics exactly if every property
    has a value and the paths of the instances, as they are read, are different. -/
theorem diagnostics_ofClosure_toFile_iff
    (hknown : ∀ i ∈ preorders f.toTrees, g.components.contains i.component) :
    (ofClosure g (.single Block.check .instances (f.toFile path options))).diagnostics = [] ↔
      (∀ i ∈ preorders f.toTrees, ∀ p ∈ Write.instancePairs (i.kept options),
        Text.unquote p.2 ≠ "") ∧
      ((lineagesAll (mapAll (Instance.readBack options) f.toTrees)).map fun l =>
        Forest.pathOf (l.map (·.name))).Nodup := by
  obtain ⟨ds, -, hbody, hdrafts, -⟩ := settledDrafts_toFile hvalid path options g
  have hunknown : unknownComponents g
      (draftsOf (.single Block.check .instances (f.toFile path options))) = [] := by
    refine unknownComponents_eq_nil fun i hi => ?_
    rw [hdrafts, mapAll_eq_map, hbody, ← mapAll_eq_map, preorders_mapAll] at hi
    obtain ⟨j, hj, rfl⟩ := List.mem_map.1 hi
    exact hknown j hj
  rw [ofClosure_diagnostics_eq_nil_iff,
    ← nodup_paths_iff (FileStore.made_single _ Block.check .instances Forest.imports_toFile),
    ← nodup_names_iff, toTrees_ofClosure_toFile hvalid, early_eq, hunknown, List.append_nil,
    Closure.diagnostics_single rfl Forest.kind_toFile, Forest.check_toFile_iff hvalid]

end Written

/-- A forest compiled without diagnostics is written as a file that compiles without diagnostics to
    the same forest exactly if it is writable; it then compiles to the very same trees of
    instances. -/
theorem compile_written_iff (h : compile loader Block.check g root dir = .ok c)
    (hclean : c.diagnostics = []) (path dir' : Path) (comments : Bool)
    (remarks : Table String String) :
    ∃ again, compile (FileStore.empty.insert (c.forest.toFile path
          { WriteOptions.full with comments, remarks })).loader Block.check g path dir' =
        .ok again ∧
      (again.diagnostics = [] ∧ c.forest.same again.forest = true ↔ c.forest.Writable) ∧
      (c.forest.Writable → again.forest.toTrees = c.forest.toTrees) := by
  obtain ⟨hvalid, hknown, hpaths⟩ := valid_of_clean h hclean
  -- All that an instance holds is written.
  have hkept : Instance.readBack { WriteOptions.full with comments, remarks } = Instance.reread :=
    rfl
  have hagain := toTrees_ofClosure_toFile hvalid path
    { WriteOptions.full with comments, remarks } g
  have hnone := diagnostics_ofClosure_toFile_iff hvalid path
    { WriteOptions.full with comments, remarks } hknown
  rw [hkept] at hagain hnone
  have hwritable : c.forest.Writable ↔ ∀ i ∈ preorders c.forest.toTrees, i.Writable :=
    c.forest.forall_mem_preorders_toTrees.symm
  have hreread : c.forest.Writable →
      mapAll Instance.reread c.forest.toTrees = c.forest.toTrees := by
    intro hw
    have hid : mapAll Instance.reread c.forest.toTrees = mapAll id c.forest.toTrees :=
      mapAll_congr fun i hi => Instance.reread_of_writable (hvalid i hi) (hwritable.1 hw i hi)
    rw [hid, mapAll_id]
  refine ⟨_, compile_single Forest.imports_toFile _ g dir', ?_, fun hw => ?_⟩
  · rw [hnone, Forest.same, hagain, sameAll_mapAll_iff]
    constructor
    · rintro ⟨⟨hvalues, -⟩, hsame⟩
      refine hwritable.2 fun i hi => ?_
      obtain ⟨hname, hchannels⟩ := (Instance.same_reread_iff (hvalid i hi)).1 (hsame i hi)
      exact ⟨hname, hchannels, ((Write.forall_value_iff (hvalid i hi)).1 (hvalues i hi)).2⟩
    · intro hw
      refine ⟨⟨fun i hi => ?_, ?_⟩, fun i hi => ?_⟩
      · exact Write.forall_value_of_writable (hvalid i hi) (hwritable.1 hw i hi)
      · rw [hreread hw]
        exact hpaths
      · have hi' := hwritable.1 hw i hi
        exact (Instance.same_reread_iff (hvalid i hi)).2 ⟨hi'.name, hi'.channels⟩
  · rw [hagain, hreread hw]

/-- A machine with channels, data and a value for a variable, and two machines on it. -/
def furnished : FileDefinition :=
  let site : Site := ⟨⟨"furnished.instances"⟩, 1⟩
  .ofBlocks ⟨"furnished.instances"⟩
    [.declaration site .instanceOf "VM"
      [.property site "name" "web server", .property site "channels" "demo, \"test lab\"",
        .property site "data.owner" "ops, dev", .property site "ip" "\"10.0.0.1\"",
        .declaration site .instanceOf "VM"
          [.property site "name" "guest", .property site "count" "2"]]]

theorem compile_written_iff_furnished :
    ∃ c again,
      compile (FileStore.empty.insert furnished).loader Block.check machines furnished.file ⟨""⟩ =
        .ok c ∧
      compile (FileStore.empty.insert (c.forest.toFile ⟨"again.instances"⟩ .full)).loader Block.check
        machines ⟨"again.instances"⟩ ⟨""⟩ = .ok again ∧
      again.diagnostics = [] ∧ again.forest.toTrees = c.forest.toTrees := by
  have himports : furnished.imports = [] := rfl
  have h := compile_single himports Block.check machines ⟨""⟩
  have hclean :
      (ofClosure machines (.single Block.check .instances furnished)).diagnostics = [] := by
    rfl
  obtain ⟨again, hagain, hiff, hforest⟩ :=
    compile_written_iff h hclean ⟨"again.instances"⟩ ⟨""⟩ false .empty
  have hw : (ofClosure machines (.single Block.check .instances furnished)).forest.Writable :=
    (Forest.forall_mem_preorders_toTrees _).1 (by decide +kernel)
  exact ⟨_, again, h, hagain, (hiff.2 hw).1, hforest hw⟩

/-- A machine in two channels, one of which has a comma. -/
def listed : FileDefinition :=
  let site : Site := ⟨⟨"listed.instances"⟩, 1⟩
  .ofBlocks ⟨"listed.instances"⟩
    [.declaration site .instanceOf "VM"
      [.property site "name" "vm", .property site "channels" "\"red, green\", blue"]]

/-- The channels are written without quotes, so that the comma, which quotes kept together when it
    was read first, then separates: the machine has come to three channels. -/
theorem compile_written_listed :
    ∃ c again,
      compile (FileStore.empty.insert listed).loader Block.check machines listed.file ⟨""⟩ = .ok c ∧
      c.diagnostics = [] ∧
      compile (FileStore.empty.insert (c.forest.toFile ⟨"again.instances"⟩ .full)).loader Block.check
        machines ⟨"again.instances"⟩ ⟨""⟩ = .ok again ∧
      c.forest.same again.forest = false :=
  ⟨_, _, compile_single rfl Block.check machines ⟨""⟩, by rfl,
    compile_single Forest.imports_toFile Block.check machines ⟨""⟩, by decide +kernel⟩

end InstanceCompilation

end Deployment

import Deployment.Proofs.GraphCompilation.Clean
import Deployment.Proofs.Write.Graph

/-!
# Graphs written and compiled again

A graph that was compiled without diagnostics, written as a file, and compiled from this file alone.
Whatever the file is called and whatever comments it has, it compiles without diagnostics to the
same graph exactly if the graph is writable (`compile_toFile_iff`): the installers of its components
are neither padded nor between quotes, and its exported values are not taken apart when they are
read.

* `valid_of_clean`: what is compiled without diagnostics describes valid types;
* `ofClosure_toFile`: what the compilation of the file results in.
-/

namespace Deployment

/-- Blocks in which nothing is found describe valid types. -/
theorem Catalogue.valid_graph {bs : List Block} (hcheck : ∀ b ∈ bs, b.check = [])
    (hcollisions : (ofBlocks bs).collisions = []) : (ofBlocks bs).graph.Valid := by
  constructor
  case components =>
    intro name c hc
    have hfirst : (ofBlocks bs).graph.component? name = some c := hc
    rw [component?_graph, component?_ofBlocks] at hfirst
    obtain ⟨site, inner, hmem, rfl⟩ := exists_of_firstComponent hfirst
    exact ⟨Component.name_ofBlocks name inner, Component.valid_ofBlocks (hcheck _ hmem)⟩
  case facets =>
    intro name f hf
    have hfirst : (ofBlocks bs).graph.facet? name = some f := hf
    rw [facet?_graph, facet?_ofBlocks] at hfirst
    obtain ⟨site, inner, hmem, rfl⟩ := exists_of_firstFacet hfirst
    exact ⟨Facet.name_ofBlocks name inner, Facet.valid_ofBlocks (hcheck _ hmem)⟩
  case disjoint =>
    rw [graph, TypeGraph.withRoots, Table.keys_map, Table.keys_map]
    exact collisions_eq_nil_iff.1 hcollisions
  case roots => rfl

namespace GraphCompilation

variable {loader : Loader} {root dir : Path} {c : GraphCompilation}

/-- What is compiled without diagnostics holds together, and its types are valid. -/
theorem valid_of_clean (h : compile loader Block.check root dir false = .ok c)
    (hclean : c.diagnostics = []) : c.graph.Valid ∧ c.graph.HoldsTogether := by
  obtain ⟨closure, hwalk, rfl⟩ := exists_of_map_eq_ok h
  obtain ⟨hfiles, hsound⟩ := ofClosure_diagnostics_eq_nil_iff.1 hclean
  have hcheck : ∀ b ∈ closure.blocks, b.check = [] := fun b =>
    Closure.check_eq_nil_of_walk (Closure.visits_of_walk hwalk) hfiles
  rw [ofClosure_graph_of_mild (isSevere_of_clean hclean)]
  exact ⟨Catalogue.valid_graph hcheck hsound.collisions, hsound.together⟩

variable {g : TypeGraph} {path : Path} {options : WriteOptions}

/-- The file of a graph compiles without diagnostics exactly if none of its blocks is faulty, and
    then to the graph read again. -/
theorem ofClosure_toFile (hvalid : g.Valid) (htogether : g.HoldsTogether) (path : Path)
    (options : WriteOptions) :
    ((ofClosure false (.single Block.check .types (g.toFile path options))).diagnostics = [] ↔
        (g.toFile path options).blocks.flatMap Block.check = []) ∧
      ((ofClosure false (.single Block.check .types (g.toFile path options))).diagnostics = [] →
        (ofClosure false (.single Block.check .types (g.toFile path options))).graph =
          g.reread) := by
  have hgraph := TypeGraph.graph_ofBlocks_toFile hvalid path options
  obtain ⟨hcomponents, hfacets⟩ := TypeGraph.nodup_declared_toFile hvalid path options
  constructor
  · rw [ofClosure_diagnostics_eq_nil_iff, Closure.diagnostics_single rfl TypeGraph.kind_toFile,
      Closure.blocks_single, and_iff_left]
    constructor
    case collisions => exact TypeGraph.collisions_toFile hvalid
    case repetitions => exact Catalogue.repetitions_of_nodup hcomponents hfacets
    case together =>
      rw [hgraph]
      exact htogether.reread
  · intro hclean
    rw [ofClosure_graph_of_mild (isSevere_of_clean hclean), Closure.blocks_single, hgraph]

/-- A graph compiled without diagnostics is written as a file that compiles without diagnostics to
    the same graph exactly if it is writable; it then compiles to this graph, whose tables and sets
    even keep their order. -/
theorem compile_toFile_iff (h : compile loader Block.check root dir false = .ok c)
    (hclean : c.diagnostics = []) (path dir' : Path) (options : WriteOptions) :
    ∃ again, compile (FileStore.empty.insert (c.graph.toFile path options)).loader Block.check path
        dir' false = .ok again ∧
      (again.diagnostics = [] ∧ c.graph.same again.graph = true ↔ c.graph.Writable) ∧
      (c.graph.Writable → again.graph = c.graph) := by
  obtain ⟨hvalid, htogether⟩ := valid_of_clean h hclean
  obtain ⟨hnone, hgraph⟩ := ofClosure_toFile hvalid htogether path options
  refine ⟨_, compile_single TypeGraph.imports_toFile _ dir' _, ⟨?_, fun hw => ?_⟩, fun hw => ?_⟩
  · rintro ⟨hdiagnostics, hsame⟩
    rw [hgraph hdiagnostics] at hsame
    exact (TypeGraph.same_reread_iff hvalid).1 hsame
  · have hdiagnostics := hnone.2 (TypeGraph.check_toFile hvalid hw)
    rw [hgraph hdiagnostics]
    exact ⟨hdiagnostics, (TypeGraph.same_reread_iff hvalid).2 hw⟩
  · rw [hgraph (hnone.2 (TypeGraph.check_toFile hvalid hw))]
    exact TypeGraph.reread_of_writable hvalid hw

/-- A machine with an installer and an exported value that has a comma. -/
def listing : FileDefinition :=
  let site : Site := ⟨⟨"listing.graph"⟩, 1⟩
  .ofBlocks ⟨"listing.graph"⟩
    [.declaration site .component "VM"
      [.property site "installer" "target", .property site "exports" "ports = \"80, 443\""]]

theorem compile_toFile_iff_listing :
    ∃ c again,
      compile (FileStore.empty.insert listing).loader Block.check listing.file ⟨""⟩ false = .ok c ∧
      compile (FileStore.empty.insert (c.graph.toFile ⟨"again.graph"⟩ .plain)).loader Block.check
        ⟨"again.graph"⟩ ⟨""⟩ false = .ok again ∧
      again.diagnostics = [] ∧ again.graph = c.graph := by
  have himports : listing.imports = [] := rfl
  have h := compile_single himports Block.check ⟨""⟩ false
  have hclean : (ofClosure false (.single Block.check .types listing)).diagnostics = [] := by rfl
  obtain ⟨again, hagain, hiff, hgraph⟩ :=
    compile_toFile_iff h hclean ⟨"again.graph"⟩ ⟨""⟩ .plain
  have hentries : (ofClosure false (.single Block.check .types listing)).graph.components.entries =
      [("VM", { Component.named "VM" with
        installer := some "target"
        exports := Table.empty.insert "ports" ⟨"ports", some "80, 443", none⟩ })] := by
    rfl
  have hw : (ofClosure false (.single Block.check .types listing)).graph.Writable := by
    constructor
    case components =>
      intro n c hc
      have hmem := Table.get?_eq_some_iff.1 hc
      rw [hentries, List.mem_singleton] at hmem
      cases hmem
      refine ⟨fun s hs => ?_, .of_not_mem fun v hv value hvalue => ?_⟩
      · cases hs
        rfl
      · obtain rfl := List.mem_singleton.1 hv
        cases hvalue
        decide
    case facets => exact fun n f hf => nomatch hf
  exact ⟨_, again, h, hagain, (hiff.2 hw).1, hgraph hw⟩

/-- A machine that exports a value with quotes and, between them, a comma. -/
def quoting : FileDefinition :=
  let site : Site := ⟨⟨"quoting.graph"⟩, 1⟩
  .ofBlocks ⟨"quoting.graph"⟩
    [.declaration site .component "VM" [.property site "exports" "a = b \"x, y\" c"]]

/-- The value is written between quotes, but what it has of its own ends them: the comma, which
    these quotes kept together when it was read first, then separates. -/
theorem compile_toFile_quoting :
    ∃ c again,
      compile (FileStore.empty.insert quoting).loader Block.check quoting.file ⟨""⟩ false = .ok c ∧
      c.diagnostics = [] ∧
      compile (FileStore.empty.insert (c.graph.toFile ⟨"again.graph"⟩ .plain)).loader Block.check
        ⟨"again.graph"⟩ ⟨""⟩ false = .ok again ∧
      again.diagnostics ≠ [] ∧ c.graph.same again.graph = false := by
  refine ⟨_, _, compile_single rfl Block.check ⟨""⟩ false, by rfl,
    compile_single TypeGraph.imports_toFile Block.check ⟨""⟩ false, ?_, ?_⟩
  · exact List.ne_nil_of_length_pos (by decide +kernel)
  · rfl

end GraphCompilation

end Deployment

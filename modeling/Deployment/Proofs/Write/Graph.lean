import Deployment.Proofs.Catalogue.Declarations
import Deployment.Proofs.GraphCompilation
import Deployment.Proofs.Write.Paragraphs
import Deployment.Proofs.Write.Types

/-!
# Written graphs

The file of a graph whose types were read from declarations without diagnostics. Its blocks declare
the types as they are read again, whatever comments stand above them (`declaredComponents_toFile`,
`declaredFacets_toFile`), so that its catalogue describes the graph read again
(`graph_ofBlocks_toFile`).

* `TypeGraph.Valid`: what declarations without diagnostics describe;
* `TypeGraph.reread`: what is read from the file of a graph;
* `TypeGraph.Writable`: a graph that is read as it was written (`TypeGraph.same_reread_iff`);
* `TypeGraph.Readable`: a graph whose file has nothing faulty (`TypeGraph.check_toFile_iff`).
-/

namespace Deployment

/-! ### Names of declarations -/

theorem Component.name_addProperty (c : Component) (p : String × String) :
    (c.addProperty p).name = c.name := by
  unfold addProperty
  split <;> rfl

theorem Component.name_ofBlocks (name : String) (inner : List Block) :
    (ofBlocks name inner).name = name :=
  List.foldlRecOn (motive := fun c : Component => c.name = name) _ _ rfl
    fun c hc p _ => (name_addProperty c p).trans hc

theorem Facet.name_addProperty (f : Facet) (p : String × String) :
    (f.addProperty p).name = f.name := by
  unfold addProperty
  split <;> rfl

theorem Facet.name_ofBlocks (name : String) (inner : List Block) :
    (ofBlocks name inner).name = name :=
  List.foldlRecOn (motive := fun f : Facet => f.name = name) _ _ rfl
    fun f hf p _ => (name_addProperty f p).trans hf

namespace TypeGraph

/-- A graph as declarations without diagnostics describe it. -/
structure Valid (g : TypeGraph) : Prop where
  components : g.components.Filed Component.name Component.Valid
  facets : g.facets.Filed Facet.name Facet.Valid
  disjoint : ∀ n ∈ g.components.keys, n ∉ g.facets.keys
  roots : g.computedRoots = g.roots

/-- A graph that is read as it was written. -/
structure Writable (g : TypeGraph) : Prop where
  components : ∀ n c, g.component? n = some c → c.Writable
  facets : ∀ n f, g.facet? n = some f → WritableValues f.exports.values

/-- A graph whose file has nothing faulty: no installer that is nothing without its quotes, and no
    exports that are taken apart into something unreadable. -/
structure Readable (g : TypeGraph) : Prop where
  components : ∀ n c, g.component? n = some c →
    (∀ s, c.installer = some s → Text.unquote s ≠ "") ∧
      ∀ e ∈ Text.entries (exportsText c.exports.values), (ExportedVariable.parse e).isSome
  facets : ∀ n f, g.facet? n = some f →
    ∀ e ∈ Text.entries (exportsText f.exports.values), (ExportedVariable.parse e).isSome

/-- The graph that is read where one was written. -/
def reread (g : TypeGraph) : TypeGraph :=
  { g with components := g.components.map fun _ c => c.reread
           facets := g.facets.map fun _ f => f.reread }

variable {g : TypeGraph}

/-! ### Graphs that are read again -/

theorem component?_reread (g : TypeGraph) (n : String) :
    g.reread.component? n = (g.component? n).map Component.reread :=
  Table.get?_map ..

theorem facet?_reread (g : TypeGraph) (n : String) :
    g.reread.facet? n = (g.facet? n).map Facet.reread :=
  Table.get?_map ..

/-- Reading a graph again changes no relation between its types. -/
theorem relations_reread (g : TypeGraph) :
    g.reread.ExtendsComponent = g.ExtendsComponent ∧ g.reread.ExtendsFacet = g.ExtendsFacet ∧
      g.reread.Carries = g.Carries ∧ g.reread.HasChild = g.HasChild := by
  refine ⟨?_, ?_, ?_, ?_⟩
  · funext a b
    simp [ExtendsComponent, component?_reread, Component.reread]
  · funext a b
    simp [ExtendsFacet, facet?_reread, Facet.reread]
  · funext a b
    simp [Carries, component?_reread, Component.reread]
  · funext a b
    simp [HasChild, component?_reread, facet?_reread, Component.reread, Facet.reread]

theorem HoldsTogether.reread (h : g.HoldsTogether) : g.reread.HoldsTogether := by
  obtain ⟨hcomponent, hfacet, hcarries, hchild⟩ := g.relations_reread
  have hcomponents : ∀ n, g.reread.components.contains n = g.components.contains n := by
    intro n
    rw [TypeGraph.reread, Table.contains, Table.get?_map, Option.isSome_map, Table.contains]
  have hfacets : ∀ n, g.reread.facets.contains n = g.facets.contains n := by
    intro n
    rw [TypeGraph.reread, Table.contains, Table.get?_map, Option.isSome_map, Table.contains]
  exact h.congr hcomponents hfacets hcomponent hfacet hcarries hchild fun _ => Iff.rfl

theorem declaredChildren_reread (g : TypeGraph) :
    g.reread.declaredChildren = g.declaredChildren := by
  simp [declaredChildren, TypeGraph.reread, Table.values, Table.map, List.flatMap_map,
    Component.reread, Facet.reread]

theorem computedRoots_reread (g : TypeGraph) : g.reread.computedRoots = g.computedRoots := by
  rw [computedRoots, declaredChildren_reread, TypeGraph.reread, Table.keys_map]
  rfl

theorem reread_of_writable (h : g.Valid) (hw : g.Writable) : g.reread = g := by
  have hcomponents : (g.components.map fun _ c => c.reread) = g.components := by
    refine Table.ext_entries ((List.map_congr_left fun p hp => ?_).trans (List.map_id _))
    have hget := Table.get?_eq_some_iff.2 hp
    exact Prod.ext rfl (Component.reread_of_writable (h.components _ _ hget).2
      (hw.components _ _ hget))
  have hfacets : (g.facets.map fun _ f => f.reread) = g.facets := by
    refine Table.ext_entries ((List.map_congr_left fun p hp => ?_).trans (List.map_id _))
    have hget := Table.get?_eq_some_iff.2 hp
    exact Prod.ext rfl (Facet.reread_of_writable (h.facets _ _ hget).2 (hw.facets _ _ hget))
  rw [TypeGraph.reread, hcomponents, hfacets]

/-- A graph is the same after it was written and read exactly if it is writable. -/
theorem same_reread_iff (h : g.Valid) : g.same g.reread = true ↔ g.Writable := by
  constructor
  · intro hsame
    rw [same, Bool.and_eq_true, Bool.and_eq_true] at hsame
    obtain ⟨⟨hcomponents, hfacets⟩, -⟩ := hsame
    refine ⟨fun n c hc => ?_, fun n f hf => ?_⟩
    · obtain ⟨c', hc', hsame⟩ := Table.get?_of_same hcomponents hc
      have hreread := g.component?_reread n
      rw [hc] at hreread
      obtain rfl := Option.some.inj (hc'.symm.trans hreread)
      exact (Component.same_reread_iff (h.components n c hc).2).1 hsame
    · obtain ⟨f', hf', hsame⟩ := Table.get?_of_same hfacets hf
      have hreread := g.facet?_reread n
      rw [hf] at hreread
      obtain rfl := Option.some.inj (hf'.symm.trans hreread)
      exact (Facet.same_reread_iff (h.facets n f hf).2).1 hsame
  · intro hw
    rw [reread_of_writable h hw]
    exact same_refl g

theorem Writable.readable (hw : g.Writable) (h : g.Valid) : g.Readable where
  components n c hc := Component.readable_of_writable (h.components n c hc).2 (hw.components n c hc)
  facets n f hf := parse_of_writable (h.facets n f hf).2.exports (hw.facets n f hf)

/-! ### The file of a graph -/

section File

variable {path : Path} {options : WriteOptions}

theorem exists_of_mem_toFile {b : Block} (h : b ∈ (g.toFile path options).blocks) :
    ∃ b' ∈ g.written options, ∃ n, b = b'.numbered path n :=
  Block.exists_of_mem_numberedAll (blocks_toFile ▸ h)

theorem mem_written {b : Block} (h : b ∈ g.written options) :
    (∃ c ∈ g.components.values, b = Write.component c) ∨
      (∃ f ∈ g.facets.values, b = Write.facet f) ∨ b.isComment ∨ b.isBlank := by
  rcases List.mem_append.1 h with h | h
  · exact (Write.mem_paragraphs h).imp_right .inr
  · exact .inr (Write.mem_paragraphs h)

/-- A reader that skips comments and blank lines reads the components, then the facets. -/
theorem filterMap_written {β : Type} {read : Block → Option β}
    (hskip : ∀ b : Block, b.isComment ∨ b.isBlank → read b = none) :
    (g.written options).filterMap read =
      g.components.values.filterMap (fun c => read (Write.component c)) ++
        g.facets.values.filterMap fun f => read (Write.facet f) := by
  rw [written, List.filterMap_append, Write.filterMap_paragraphs hskip,
    Write.filterMap_paragraphs hskip]

theorem imports_toFile : (g.toFile path options).imports = [] := by
  refine (congrArg Block.imports blocks_toFile).trans ?_
  refine Block.imports_numberedAll (List.filterMap_eq_nil_iff.2 fun b hb => ?_)
  rcases mem_written hb with ⟨c, -, rfl⟩ | ⟨f, -, rfl⟩ | hskipped
  · rfl
  · rfl
  · rcases Block.exists_of_isComment_or_isBlank hskipped with ⟨site, text, rfl | rfl⟩ <;> rfl

/-- The file of a graph is of a kind that a compilation of types accepts. -/
theorem kind_toFile : Expectation.types.accepted.contains (g.toFile path options).kind := by
  refine Expectation.accepted_of_no_instance fun b hb => ?_
  obtain ⟨b', hb', n, rfl⟩ := exists_of_mem_toFile hb
  rcases mem_written hb' with ⟨c, -, rfl⟩ | ⟨f, -, rfl⟩ | hskipped
  · exact fun h => nomatch h
  · exact fun h => nomatch h
  · rcases Block.exists_of_isComment_or_isBlank hskipped with ⟨site, text, rfl | rfl⟩
    · exact fun h => nomatch h
    · exact fun h => nomatch h

theorem declaredComponents_toFile (h : g.Valid) :
    Block.declaredComponents (g.toFile path options).blocks = g.reread.components.entries := by
  have hskip : ∀ b : Block, b.isComment ∨ b.isBlank → b.declaredComponent = none := by
    intro b hb
    rcases Block.exists_of_isComment_or_isBlank hb with ⟨site, text, rfl | rfl⟩ <;> rfl
  have hcomponent : ∀ p ∈ g.components.entries,
      (Write.component p.2).declaredComponent = some (p.1, p.2.reread) := by
    intro p hp
    obtain ⟨hname, hvalid⟩ := h.components p.1 p.2 (Table.get?_eq_some_iff.2 hp)
    rw [← hname, ← Write.ofBlocks_component hvalid]
    rfl
  have hfacets : (g.facets.values.filterMap fun f => (Write.facet f).declaredComponent) = [] :=
    List.filterMap_eq_nil_iff.2 fun f _ => rfl
  rw [Block.declaredComponents, blocks_toFile,
    Block.filterMap_numberedAll fun b n => Block.declaredComponent_numbered path n b,
    filterMap_written hskip, hfacets, List.append_nil, Table.values, List.filterMap_map]
  exact (List.filterMap_congr hcomponent).trans (congrFun List.filterMap_eq_map' _)

theorem declaredFacets_toFile (h : g.Valid) :
    Block.declaredFacets (g.toFile path options).blocks = g.reread.facets.entries := by
  have hskip : ∀ b : Block, b.isComment ∨ b.isBlank → b.declaredFacet = none := by
    intro b hb
    rcases Block.exists_of_isComment_or_isBlank hb with ⟨site, text, rfl | rfl⟩ <;> rfl
  have hfacet : ∀ p ∈ g.facets.entries,
      (Write.facet p.2).declaredFacet = some (p.1, p.2.reread) := by
    intro p hp
    obtain ⟨hname, hvalid⟩ := h.facets p.1 p.2 (Table.get?_eq_some_iff.2 hp)
    rw [← hname, ← Write.ofBlocks_facet hvalid]
    rfl
  have hcomponents : (g.components.values.filterMap fun c => (Write.component c).declaredFacet) =
      [] :=
    List.filterMap_eq_nil_iff.2 fun c _ => rfl
  rw [Block.declaredFacets, blocks_toFile,
    Block.filterMap_numberedAll fun b n => Block.declaredFacet_numbered path n b,
    filterMap_written hskip, hcomponents, List.nil_append, Table.values, List.filterMap_map]
  exact (List.filterMap_congr hfacet).trans (congrFun List.filterMap_eq_map' _)

theorem nodup_declared_toFile (h : g.Valid) (path : Path) (options : WriteOptions) :
    ((Block.declaredComponents (g.toFile path options).blocks).map Prod.fst).Nodup ∧
      ((Block.declaredFacets (g.toFile path options).blocks).map Prod.fst).Nodup := by
  rw [declaredComponents_toFile h, declaredFacets_toFile h]
  exact ⟨g.reread.components.nodup, g.reread.facets.nodup⟩

/-- The file of a graph describes the graph read again. -/
theorem graph_ofBlocks_toFile (h : g.Valid) (path : Path) (options : WriteOptions) :
    (Catalogue.ofBlocks (g.toFile path options).blocks).graph = g.reread := by
  obtain ⟨hnodupComponents, hnodupFacets⟩ := nodup_declared_toFile h path options
  have hcomponents : (Catalogue.ofBlocks (g.toFile path options).blocks).graph.components =
      g.reread.components :=
    Table.ext_entries <|
      (Catalogue.entries_components_graph hnodupComponents).trans (declaredComponents_toFile h)
  have hfacets : (Catalogue.ofBlocks (g.toFile path options).blocks).graph.facets =
      g.reread.facets :=
    Table.ext_entries <|
      (Catalogue.entries_facets_graph hnodupFacets).trans (declaredFacets_toFile h)
  -- The roots follow from the types.
  have hroots : (Catalogue.ofBlocks (g.toFile path options).blocks).graph.roots =
      g.reread.roots := by
    change (Catalogue.ofBlocks (g.toFile path options).blocks).graph.computedRoots = _
    rw [computedRoots, declaredChildren, hcomponents, hfacets]
    exact (computedRoots_reread g).trans h.roots
  cases hgraph : (Catalogue.ofBlocks (g.toFile path options).blocks).graph
  rw [hgraph] at hcomponents hfacets hroots
  cases hcomponents
  cases hfacets
  cases hroots
  rfl

theorem collisions_toFile (h : g.Valid) :
    (Catalogue.ofBlocks (g.toFile path options).blocks).collisions = [] := by
  have hgraph := graph_ofBlocks_toFile h path options
  have hcomponents := congrArg (fun g : TypeGraph => g.components.keys) hgraph
  have hfacets := congrArg (fun g : TypeGraph => g.facets.keys) hgraph
  simp only [Catalogue.graph, TypeGraph.withRoots, TypeGraph.reread, Table.keys_map]
    at hcomponents hfacets
  rw [Catalogue.collisions_eq_nil_iff, hcomponents, hfacets]
  exact h.disjoint

/-- The check of the file of a graph finds nothing exactly if the graph is readable. -/
theorem check_toFile_iff (h : g.Valid) :
    (g.toFile path options).blocks.flatMap Block.check = [] ↔ g.Readable := by
  rw [List.flatMap_eq_nil_iff]
  constructor
  · intro hcheck
    have hwritten : ∀ b ∈ g.written options, ∃ n, (b.numbered path n).check = [] := by
      intro b hb
      obtain ⟨n, hn⟩ := Block.exists_mem_numberedAll hb path 1
      exact ⟨n, hcheck _ (blocks_toFile ▸ hn)⟩
    constructor
    case components =>
      intro name c hc
      have hvalue : c ∈ g.components.values := Table.mem_values_iff.2 ⟨name, hc⟩
      obtain ⟨n, hn⟩ :=
        hwritten _ (List.mem_append_left _ (Write.declaration_mem_paragraphs hvalue))
      exact (Write.check_component_eq_nil_iff (h.components name c hc).2).1 hn
    case facets =>
      intro name f hf
      have hvalue : f ∈ g.facets.values := Table.mem_values_iff.2 ⟨name, hf⟩
      obtain ⟨n, hn⟩ :=
        hwritten _ (List.mem_append_right _ (Write.declaration_mem_paragraphs hvalue))
      exact (Write.check_facet_eq_nil_iff (h.facets name f hf).2).1 hn
  · intro hread b hb
    obtain ⟨b', hb', n, rfl⟩ := exists_of_mem_toFile hb
    rcases mem_written hb' with ⟨c, hc, rfl⟩ | ⟨f, hf, rfl⟩ | hskipped
    · obtain ⟨name, hget⟩ := Table.mem_values_iff.1 hc
      exact (Write.check_component_eq_nil_iff (h.components name c hget).2).2
        (hread.components name c hget)
    · obtain ⟨name, hget⟩ := Table.mem_values_iff.1 hf
      exact (Write.check_facet_eq_nil_iff (h.facets name f hget).2).2 (hread.facets name f hget)
    · rcases Block.exists_of_isComment_or_isBlank hskipped with ⟨site, text, rfl | rfl⟩ <;> rfl

/-- The check of the file of a writable graph finds nothing. -/
theorem check_toFile (h : g.Valid) (hw : g.Writable) :
    (g.toFile path options).blocks.flatMap Block.check = [] :=
  (check_toFile_iff h).2 (hw.readable h)

/-- Whatever the check of the file of a graph finds is severe. -/
theorem anySevere_check_toFile_iff (h : g.Valid) :
    Diagnostic.anySevere ((g.toFile path options).blocks.flatMap Block.check) = false ↔
      g.Readable := by
  rw [Diagnostic.anySevere_eq_false_iff_eq_nil, check_toFile_iff h]
  intro d hd
  obtain ⟨b, hb, hd⟩ := List.mem_flatMap.1 hd
  obtain ⟨b', hb', n, rfl⟩ := exists_of_mem_toFile hb
  rcases mem_written hb' with ⟨c, -, rfl⟩ | ⟨f, -, rfl⟩ | hskipped
  · exact (Block.grave_of_mem_checkType hd).severe
  · exact (Block.grave_of_mem_checkType hd).severe
  · rcases Block.exists_of_isComment_or_isBlank hskipped with ⟨site, text, rfl | rfl⟩
    · exact nomatch hd
    · exact nomatch hd

end File

end TypeGraph

end Deployment

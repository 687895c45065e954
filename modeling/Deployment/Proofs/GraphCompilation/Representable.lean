import Deployment.Proofs.GraphCompilation.Modes
import Deployment.Proofs.GraphCompilation.RoundTrip

/-!
# Representable graphs

A graph need not be compiled to be written. Any graph whose types and variables stand under their
own valid names, whose mentions are declared and have no cycle, whose installers are read as they
are, and whose exported values have no quotes, is written as a file that compiles without
diagnostics to the same graph, strictly or flexibly (`compile_toFile_of_representable`).

* `TypeGraph.Representable`: such graphs, their roots being the computed ones;
* `TypeGraph.mem_computedRoots_iff`: which these are.
-/

namespace Deployment

/-- A component under a valid name whose installer is read as it is, whose variables stand under
    their own valid names, and whose exported values have no quotes. -/
structure Component.Representable (c : Component) : Prop where
  name : isTypeName c.name
  installer : ∀ s ∈ c.installer, s ≠ "" ∧ Text.unquote s = s
  imports : ImportsValid c.imports
  exports : ExportsValid c.exports
  quotes : ∀ v ∈ c.exports.values, ∀ value ∈ v.value, '"' ∉ value.toList

instance : DecidablePred Component.Representable := fun c =>
  decidable_of_iff (isTypeName c.name ∧ (∀ s ∈ c.installer, s ≠ "" ∧ Text.unquote s = s) ∧
      ImportsValid c.imports ∧ ExportsValid c.exports ∧
      ∀ v ∈ c.exports.values, ∀ value ∈ v.value, '"' ∉ value.toList)
    ⟨fun ⟨hname, hinstaller, himports, hexports, hquotes⟩ =>
        ⟨hname, hinstaller, himports, hexports, hquotes⟩,
      fun h => ⟨h.name, h.installer, h.imports, h.exports, h.quotes⟩⟩

/-- A facet under a valid name whose variables stand under their own valid names, and whose exported
    values have no quotes. -/
structure Facet.Representable (f : Facet) : Prop where
  name : isTypeName f.name
  exports : ExportsValid f.exports
  quotes : ∀ v ∈ f.exports.values, ∀ value ∈ v.value, '"' ∉ value.toList

instance : DecidablePred Facet.Representable := fun f =>
  decidable_of_iff (isTypeName f.name ∧ ExportsValid f.exports ∧
      ∀ v ∈ f.exports.values, ∀ value ∈ v.value, '"' ∉ value.toList)
    ⟨fun ⟨hname, hexports, hquotes⟩ => ⟨hname, hexports, hquotes⟩,
      fun h => ⟨h.name, h.exports, h.quotes⟩⟩

namespace TypeGraph

variable (g : TypeGraph)

/-- A graph of representable types under their own names, none of them both a component and a facet,
    that mention declared types only and have no cycle; its roots are the computed ones, in any
    order. -/
structure Representable : Prop where
  components : g.components.Filed Component.name Component.Representable
  facets : g.facets.Filed Facet.name Facet.Representable
  disjoint : ∀ n ∈ g.components.keys, n ∉ g.facets.keys
  extendsComponent : ∀ a b, g.ExtendsComponent a b → g.components.contains b
  extendsFacet : ∀ a b, g.ExtendsFacet a b → g.facets.contains b
  carries : ∀ a b, g.Carries a b → g.facets.contains b
  hasChild : ∀ a b, g.HasChild a b → g.components.contains b ∨ g.facets.contains b
  extendsComponent_acyclic : ∀ a, ¬Relation.TransGen g.ExtendsComponent a a
  extendsFacet_acyclic : ∀ a, ¬Relation.TransGen g.ExtendsFacet a a
  hasChild_acyclic : ∀ a, ¬Relation.TransGen g.HasChild a a
  roots : g.roots.same g.computedRoots = true

variable {g}

namespace Representable

variable (h : g.Representable)

include h

theorem isTypeName_of_component {n : String} (hn : g.components.contains n) : isTypeName n := by
  obtain ⟨c, hc⟩ := Option.isSome_iff_exists.1 hn
  obtain ⟨rfl, hrepresentable⟩ := h.components n c hc
  exact hrepresentable.name

theorem isTypeName_of_facet {n : String} (hn : g.facets.contains n) : isTypeName n := by
  obtain ⟨f, hf⟩ := Option.isSome_iff_exists.1 hn
  obtain ⟨rfl, hrepresentable⟩ := h.facets n f hf
  exact hrepresentable.name

theorem isTypeName_of_child {a b : String} (hchild : g.HasChild a b) : isTypeName b :=
  (h.hasChild a b hchild).elim h.isTypeName_of_component h.isTypeName_of_facet

/-- What is mentioned is declared, so that it has a valid name. -/
theorem valid : g.withRoots.Valid where
  components n c hc := by
    obtain ⟨hname, hrepresentable⟩ := h.components n c hc
    refine ⟨hname, ?_⟩
    constructor
    case name => exact hrepresentable.name
    case installer => exact fun s hs => (hrepresentable.installer s hs).1
    case base =>
      exact fun b hb => h.isTypeName_of_component
        (h.extendsComponent n b ⟨c, hc, Option.mem_toList.1 hb⟩)
    case facets => exact fun b hb => h.isTypeName_of_facet (h.carries n b ⟨c, hc, hb⟩)
    case children => exact fun b hb => h.isTypeName_of_child (.inl ⟨c, hc, hb⟩)
    case imports => exact hrepresentable.imports
    case exports => exact hrepresentable.exports
  facets n f hf := by
    obtain ⟨hname, hrepresentable⟩ := h.facets n f hf
    refine ⟨hname, ?_⟩
    constructor
    case name => exact hrepresentable.name
    case bases => exact fun b hb => h.isTypeName_of_facet (h.extendsFacet n b ⟨f, hf, hb⟩)
    case children => exact fun b hb => h.isTypeName_of_child (.inr ⟨f, hf, hb⟩)
    case exports => exact hrepresentable.exports
  disjoint := h.disjoint
  roots := rfl

theorem writable : g.withRoots.Writable where
  components n c hc := by
    have hrepresentable := (h.components n c hc).2
    exact ⟨fun s hs => (hrepresentable.installer s hs).2, .of_not_mem hrepresentable.quotes⟩
  facets n f hf := .of_not_mem (h.facets n f hf).2.quotes

theorem holdsTogether : g.withRoots.HoldsTogether where
  extendsComponent := h.extendsComponent
  extendsFacet := h.extendsFacet
  carries := h.carries
  hasChild := h.hasChild
  extendsComponent_acyclic := h.extendsComponent_acyclic
  extendsFacet_acyclic := h.extendsFacet_acyclic
  hasChild_acyclic := h.hasChild_acyclic
  roots := fun _ => mem_computedRoots_iff

theorem same_withRoots : g.same g.withRoots = true := by
  have hcomponents := Table.same_refl Component.same_refl g.components
  have hfacets := Table.same_refl Facet.same_refl g.facets
  rw [same, withRoots, hcomponents, hfacets, h.roots]
  rfl

end Representable

end TypeGraph

namespace GraphCompilation

variable {g : TypeGraph}

/-- A representable graph is written as a file that compiles without diagnostics to the same graph,
    whatever the file is called, whatever comments it has, and in either mode. Tables and sets even
    keep their order; the roots are put in the order in which they are computed. -/
theorem compile_toFile_of_representable (h : g.Representable) (path dir : Path)
    (options : WriteOptions) (flexible : Bool) :
    ∃ again, compile (FileStore.empty.insert (g.toFile path options)).loader Block.check path dir
        flexible = .ok again ∧
      again.diagnostics = [] ∧ again.graph = g.withRoots ∧ g.same again.graph = true := by
  -- The roots are not written.
  have hfile : g.withRoots.toFile path options = g.toFile path options := rfl
  obtain ⟨hnone, hgraph⟩ := ofClosure_toFile h.valid h.holdsTogether path options
  have hclean := hnone.2 (TypeGraph.check_toFile h.valid h.writable)
  have hagain := (hgraph hclean).trans (TypeGraph.reread_of_writable h.valid h.writable)
  rw [hfile] at hclean hagain
  refine ⟨_, compile_single TypeGraph.imports_toFile Block.check dir flexible, ?_⟩
  rw [ofClosure_of_clean hclean, hagain]
  exact ⟨hclean, rfl, h.same_withRoots⟩

/-- Machines on which databases and whatever serves the web may be placed. The roots are not in the
    order in which they are computed. -/
def hosting : TypeGraph :=
  let exports (v : ExportedVariable) := Table.empty.insert v.name v
  { components := .ofList
      [("VM", { Component.named "VM" with
          installer := some "target"
          children := .ofList ["web", "Database"] }),
        ("Database", { Component.named "Database" with
          base := some "Server"
          exports := exports ⟨"port", none, some .port⟩ }),
        ("Server", { Component.named "Server" with
          installer := some "puppet"
          facets := .ofList ["secure"]
          imports := Table.empty.insert "Database.port" ⟨"Database.port", true, false⟩
          exports := (exports ⟨"motd", some "a = b, c; # d", none⟩).insert "note"
            ⟨"note", some "", none⟩ })]
    facets := .ofList
      [("web", { Facet.named "web" with exports := exports ⟨"url", none, none⟩ }),
        ("secure", { Facet.named "secure" with bases := .ofList ["web"] })]
    roots := .ofList ["Server", "VM"] }

theorem holdsTogether_hosting : hosting.withRoots.HoldsTogether := by
  have hgraph : (Catalogue.ofBlocks (hosting.toFile ⟨"a.graph"⟩ .plain).blocks).graph =
      hosting.withRoots := by
    rw [TypeGraph.blocks_toFile]
    rfl
  have hnone : (Catalogue.ofBlocks (hosting.toFile ⟨"a.graph"⟩ .plain).blocks).resolve.2 = [] := by
    rw [TypeGraph.blocks_toFile]
    rfl
  exact hgraph ▸ Catalogue.resolve_snd_eq_nil_iff_holdsTogether.1 hnone

theorem compile_toFile_of_representable_hosting :
    hosting.Representable ∧
      ∃ again, compile (FileStore.empty.insert (hosting.toFile ⟨"a.graph"⟩ { WriteOptions.plain with
          comments := true, remarks := .ofList [("VM", "Machines\nof all kinds")] })).loader
            Block.check ⟨"a.graph"⟩ ⟨""⟩ true = .ok again ∧
        again.diagnostics = [] ∧ again.graph = hosting.withRoots ∧
        hosting.same again.graph = true := by
  have htogether := holdsTogether_hosting
  have h : hosting.Representable :=
    { components := by decide +kernel
      facets := by decide +kernel
      disjoint := by decide +kernel
      extendsComponent := htogether.extendsComponent
      extendsFacet := htogether.extendsFacet
      carries := htogether.carries
      hasChild := htogether.hasChild
      extendsComponent_acyclic := htogether.extendsComponent_acyclic
      extendsFacet_acyclic := htogether.extendsFacet_acyclic
      hasChild_acyclic := htogether.hasChild_acyclic
      roots := by decide +kernel }
  exact ⟨h, compile_toFile_of_representable h _ _ _ _⟩

end GraphCompilation

end Deployment

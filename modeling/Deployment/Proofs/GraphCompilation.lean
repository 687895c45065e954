import Deployment.GraphCompilation
import Deployment.Proofs.Catalogue.Resolution
import Deployment.Proofs.Closure
import Deployment.Proofs.FileStore

/-!
# Graphs that hold together

A graph that was resolved mentions declared types only, has no cycle, and has as roots the
components that nothing has as a child. It differs from the first declarations by mentions that
are each reported.

* `TypeGraph.HoldsTogether`: what resolution is for;
* `TypeGraph.Accounts`: what it may cost;
* `compile_resolved`: both, for every compilation that resolves.
-/

namespace Deployment

namespace TypeGraph

variable (g : TypeGraph)

/-! ### Relations of a graph -/

/-- A component extends another. -/
def ExtendsComponent (a b : String) : Prop := ∃ c, g.component? a = some c ∧ c.base = some b

/-- A facet extends another. -/
def ExtendsFacet (a b : String) : Prop := ∃ f, g.facet? a = some f ∧ b ∈ f.bases.toList

/-- A component carries a facet. -/
def Carries (a b : String) : Prop := ∃ c, g.component? a = some c ∧ b ∈ c.facets.toList

/-- A type, be it a component or a facet, has a child. -/
def HasChild (a b : String) : Prop :=
  (∃ c, g.component? a = some c ∧ b ∈ c.children.toList) ∨
    ∃ f, g.facet? a = some f ∧ b ∈ f.children.toList

/-- Every name mentioned is declared, no relation has a cycle, and the roots are the components
    that are no children. -/
structure HoldsTogether : Prop where
  extendsComponent : ∀ a b, g.ExtendsComponent a b → g.components.contains b
  extendsFacet : ∀ a b, g.ExtendsFacet a b → g.facets.contains b
  carries : ∀ a b, g.Carries a b → g.facets.contains b
  hasChild : ∀ a b, g.HasChild a b → g.components.contains b ∨ g.facets.contains b
  extendsComponent_acyclic : ∀ a, ¬Relation.TransGen g.ExtendsComponent a a
  extendsFacet_acyclic : ∀ a, ¬Relation.TransGen g.ExtendsFacet a a
  hasChild_acyclic : ∀ a, ¬Relation.TransGen g.HasChild a a
  roots : ∀ n, n ∈ g.roots.toList ↔ g.components.contains n ∧ ∀ a, ¬g.HasChild a n

/-- The types of a graph are those that some blocks declare; of what their first declarations
    mention, the graph holds everything but what is lost; and the loss of each mention is
    reported, and nothing else. -/
structure Accounts (blocks : List Block) (lost : List Mention) (reports : List Diagnostic) :
    Prop where
  components : ∀ n, g.components.contains n = (firstComponent blocks n).isSome
  facets : ∀ n, g.facets.contains n = (firstFacet blocks n).isSome
  nodup : lost.Nodup
  kept : ∀ m, FirstMention blocks m ↔ m.HeldBy g.component? g.facet? ∨ m ∈ lost
  gone : ∀ m ∈ lost, ¬m.HeldBy g.component? g.facet?
  reported : List.Forall₂ (Explains (firstComponent blocks) (firstFacet blocks)) reports lost

variable {g}

/-- Whether a graph holds together depends on the names of its types, the relations between them
    and the roots. -/
theorem HoldsTogether.congr {h : TypeGraph} (htogether : g.HoldsTogether)
    (hcomponents : ∀ n, h.components.contains n = g.components.contains n)
    (hfacets : ∀ n, h.facets.contains n = g.facets.contains n)
    (hcomponent : h.ExtendsComponent = g.ExtendsComponent)
    (hfacet : h.ExtendsFacet = g.ExtendsFacet) (hcarries : h.Carries = g.Carries)
    (hchild : h.HasChild = g.HasChild)
    (hroots : ∀ n, n ∈ h.roots.toList ↔ n ∈ g.roots.toList) : h.HoldsTogether := by
  constructor
  case extendsComponent => simpa only [hcomponent, hcomponents] using htogether.extendsComponent
  case extendsFacet => simpa only [hfacet, hfacets] using htogether.extendsFacet
  case carries => simpa only [hcarries, hfacets] using htogether.carries
  case hasChild => simpa only [hchild, hcomponents, hfacets] using htogether.hasChild
  case extendsComponent_acyclic => simpa only [hcomponent] using htogether.extendsComponent_acyclic
  case extendsFacet_acyclic => simpa only [hfacet] using htogether.extendsFacet_acyclic
  case hasChild_acyclic => simpa only [hchild] using htogether.hasChild_acyclic
  case roots => simpa only [hchild, hcomponents, hroots] using htogether.roots

theorem mem_declaredChildren_iff {n : String} :
    n ∈ g.declaredChildren ↔ ∃ a, g.HasChild a n := by
  simp only [declaredChildren, HasChild, component?, facet?, Table.values, List.mem_append,
    List.mem_flatMap, List.mem_map, Table.get?_eq_some_iff, exists_or]
  refine or_congr ?_ ?_
  · constructor
    · rintro ⟨_, ⟨⟨a, m⟩, hm, rfl⟩, hn⟩
      exact ⟨a, m, hm, hn⟩
    · rintro ⟨a, m, hm, hn⟩
      exact ⟨m, ⟨(a, m), hm, rfl⟩, hn⟩
  · constructor
    · rintro ⟨_, ⟨⟨a, f⟩, hf, rfl⟩, hn⟩
      exact ⟨a, f, hf, hn⟩
    · rintro ⟨a, f, hf, hn⟩
      exact ⟨f, ⟨(a, f), hf, rfl⟩, hn⟩

/-- The computed roots are the components that are no children. -/
theorem mem_computedRoots_iff {n : String} :
    n ∈ g.computedRoots.toList ↔ g.components.contains n ∧ ∀ a, ¬g.HasChild a n := by
  rw [computedRoots, NameSet.mem_ofList, List.mem_filter, ← Table.contains_iff, ← not_exists,
    ← mem_declaredChildren_iff]
  simp

end TypeGraph

namespace Catalogue

variable {c : Catalogue}

/-! ### The graph of a catalogue -/

theorem component?_graph (c : Catalogue) : c.graph.component? = c.component? := by
  funext name
  exact Table.get?_map ..

theorem facet?_graph (c : Catalogue) : c.graph.facet? = c.facet? := by
  funext name
  exact Table.get?_map ..

theorem contains_components_graph {name : String} :
    c.graph.components.contains name = (c.component? name).isSome := by
  rw [← component?_graph]
  rfl

theorem contains_facets_graph {name : String} :
    c.graph.facets.contains name = (c.facet? name).isSome := by
  rw [← facet?_graph]
  rfl

theorem extendsComponent_graph_iff {a b : String} :
    c.graph.ExtendsComponent a b ↔ ∃ bond ∈ [Bond.extendsComponent], c.Holds ⟨a, bond, b⟩ := by
  rw [TypeGraph.ExtendsComponent, component?_graph]
  simp [Holds, Mention.HeldBy]

theorem extendsFacet_graph_iff {a b : String} :
    c.graph.ExtendsFacet a b ↔ ∃ bond ∈ [Bond.extendsFacet], c.Holds ⟨a, bond, b⟩ := by
  rw [TypeGraph.ExtendsFacet, facet?_graph]
  simp [Holds, Mention.HeldBy]

theorem carries_graph_iff {a b : String} : c.graph.Carries a b ↔ c.Holds ⟨a, .carries, b⟩ := by
  rw [TypeGraph.Carries, component?_graph]
  rfl

theorem hasChild_graph_iff {a b : String} :
    c.graph.HasChild a b ↔
      ∃ bond ∈ [Bond.componentChild, Bond.facetChild], c.Holds ⟨a, bond, b⟩ := by
  rw [TypeGraph.HasChild, component?_graph, facet?_graph]
  simp [Holds, Mention.HeldBy]

/-- The roots of the graph are the components that are no children. -/
theorem mem_roots_graph {n : String} :
    n ∈ c.graph.roots.toList ↔ c.graph.components.contains n ∧ ∀ a, ¬c.graph.HasChild a n :=
  TypeGraph.mem_computedRoots_iff

/-- The graph of a resolved catalogue holds together. -/
theorem holdsTogether_resolve (c : Catalogue) : c.resolve.1.graph.HoldsTogether := by
  have hcomponent : ∀ b, c.resolve.1.component? b ≠ none →
      c.resolve.1.graph.components.contains b := by
    intro b hb
    rw [contains_components_graph]
    exact Option.isSome_iff_ne_none.2 hb
  have hfacet : ∀ b, c.resolve.1.facet? b ≠ none → c.resolve.1.graph.facets.contains b := by
    intro b hb
    rw [contains_facets_graph]
    exact Option.isSome_iff_ne_none.2 hb
  constructor
  case extendsComponent =>
    intro a b h
    obtain ⟨bond, hbond, hholds⟩ := extendsComponent_graph_iff.1 h
    rw [List.mem_singleton] at hbond
    subst hbond
    exact hcomponent b (not_dangles_of_holds_resolve hholds)
  case extendsFacet =>
    intro a b h
    obtain ⟨bond, hbond, hholds⟩ := extendsFacet_graph_iff.1 h
    rw [List.mem_singleton] at hbond
    subst hbond
    exact hfacet b (not_dangles_of_holds_resolve hholds)
  case carries =>
    intro a b h
    exact hfacet b (not_dangles_of_holds_resolve (carries_graph_iff.1 h))
  case hasChild =>
    intro a b h
    obtain ⟨bond, hbond, hholds⟩ := hasChild_graph_iff.1 h
    have hnot : ¬(c.resolve.1.component? b = none ∧ c.resolve.1.facet? b = none) := by
      rcases List.mem_pair.1 hbond with rfl | rfl
      · exact not_dangles_of_holds_resolve hholds
      · exact not_dangles_of_holds_resolve hholds
    exact (not_and_or.1 hnot).imp (hcomponent b) (hfacet b)
  case extendsComponent_acyclic =>
    intro a h
    exact c.componentInheritance_acyclic a
      (Relation.TransGen.mono (fun _ _ => extendsComponent_graph_iff.1) a a h)
  case extendsFacet_acyclic =>
    intro a h
    exact c.facetInheritance_acyclic a
      (Relation.TransGen.mono (fun _ _ => extendsFacet_graph_iff.1) a a h)
  case hasChild_acyclic =>
    intro a h
    exact c.containment_acyclic a
      (Relation.TransGen.mono (fun _ _ => hasChild_graph_iff.1) a a h)
  case roots => exact fun n => mem_roots_graph

/-- Resolution accounts for what it loses of the first declarations. -/
theorem accounts_resolve (blocks : List Block) :
    ∃ lost, (ofBlocks blocks).resolve.1.graph.Accounts blocks lost (ofBlocks blocks).resolve.2 := by
  obtain ⟨lost, hnodup, hkept, hgone, hreports⟩ := (ofBlocks blocks).exists_lost
  obtain ⟨hcomponents, hfacets⟩ := (ofBlocks blocks).keys_resolve
  have hheld : ∀ m : Mention, m.HeldBy (ofBlocks blocks).resolve.1.graph.component?
      (ofBlocks blocks).resolve.1.graph.facet? ↔ (ofBlocks blocks).resolve.1.Holds m := by
    intro m
    rw [component?_graph, facet?_graph]
    rfl
  rw [component?_ofBlocks, facet?_ofBlocks] at hreports
  refine ⟨lost, ⟨fun n => ?_, fun n => ?_, hnodup, fun m => ?_, fun m hm => ?_, hreports⟩⟩
  · rw [contains_components_graph, ← component?_ofBlocks, component?, component?, Option.isSome_map,
      Option.isSome_map]
    have hkeys := congrArg (n ∈ ·) hcomponents
    rw [eq_iff_iff, ← Table.contains_iff, ← Table.contains_iff] at hkeys
    exact Bool.eq_iff_iff.2 hkeys
  · rw [contains_facets_graph, ← facet?_ofBlocks, facet?, facet?, Option.isSome_map,
      Option.isSome_map]
    have hkeys := congrArg (n ∈ ·) hfacets
    rw [eq_iff_iff, ← Table.contains_iff, ← Table.contains_iff] at hkeys
    exact Bool.eq_iff_iff.2 hkeys
  · rw [hheld, ← holds_ofBlocks]
    exact hkept m
  · rw [hheld]
    exact hgone m hm

end Catalogue

/-! ### The compilation -/

namespace GraphCompilation

/-- A flexible compilation resolves, and so does one in which nothing severe was found before. -/
theorem settle_of_resolves {flexible : Bool} {gathered : Catalogue × List Diagnostic}
    (h : flexible = true ∨ Diagnostic.anySevere gathered.2 = false) :
    settle flexible gathered = (gathered.1.resolve.1, gathered.2 ++ gathered.1.resolve.2) := by
  refine if_neg ?_
  rcases h with hflexible | hmild
  · simp [hflexible]
  · simp [hmild]

/-- A compilation that resolves — a flexible one, or one in which nothing severe was found before
    — results in a graph that holds together. What it loses of the first declarations of the
    accepted files is what the resolution reports. -/
theorem compile_resolved {loader : Loader} {check : BlockCheck} {root dir : Path} {flexible : Bool}
    {c : GraphCompilation} (h : compile loader check root dir flexible = .ok c) :
    ∃ closure, Closure.walk loader check .types root dir = .ok closure ∧
      (flexible = true ∨ Diagnostic.anySevere (gather flexible closure).2 = false →
        c.graph.HoldsTogether ∧
        ∃ lost reports, c.diagnostics = (gather flexible closure).2 ++ reports ∧
          c.graph.Accounts (blocksOf (acceptedFiles flexible closure)) lost reports) := by
  obtain ⟨closure, hwalk, rfl⟩ := exists_of_map_eq_ok h
  refine ⟨closure, hwalk, fun hresolves => ?_⟩
  rw [ofClosure, settle_of_resolves hresolves]
  obtain ⟨lost, haccounts⟩ :=
    Catalogue.accounts_resolve (blocksOf (acceptedFiles flexible closure))
  exact ⟨Catalogue.holdsTogether_resolve _, lost, _, rfl, haccounts⟩

/-- A component that has itself as a child, and a type that is not declared. -/
def tangled : FileDefinition :=
  let site : Site := ⟨⟨"tangled.graph"⟩, 1⟩
  .ofBlocks ⟨"tangled.graph"⟩
    [.declaration site .component "VM" [.property site "children" "VM, App"]]

theorem compile_resolved_tangled :
    ∃ c, compile (FileStore.empty.insert tangled).loader Block.check ⟨"tangled.graph"⟩ ⟨""⟩ true =
        .ok c ∧
      c.graph.HoldsTogether ∧ ∃ lost reports, c.graph.Accounts tangled.blocks lost reports := by
  have himports : tangled.imports = [] := rfl
  have h := compile_single himports Block.check ⟨""⟩ true
  obtain ⟨closure, hwalk, hresolved⟩ := compile_resolved h
  rw [FileStore.walk_single tangled Block.check .types ⟨""⟩ himports] at hwalk
  obtain rfl := Except.ok.inj hwalk
  obtain ⟨htogether, lost, reports, -, haccounts⟩ := hresolved (.inl rfl)
  exact ⟨_, h, htogether, lost, reports, haccounts⟩

end GraphCompilation

end Deployment

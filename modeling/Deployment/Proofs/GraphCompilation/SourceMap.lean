import Deployment.Proofs.Catalogue.Resolution
import Deployment.Proofs.Catalogue.Sites
import Deployment.Proofs.GraphCompilation.Modes

/-!
# Places of types

The source map of a compilation gives every type of the graph the place of its first declaration.
Resolution changes what types mention, not where they were declared, so that it does not matter
whether it took place.

* `Catalogue.sourceMap_resolve`: the places stay the same under resolution;
* `GraphCompilation.get?_sourceMap_ofClosure`: the places are those of the first declarations in the
  files that were accepted;
* `GraphCompilation.exists_site`: every type of the graph has one.
-/

namespace Deployment

namespace SourceMap

theorem get?_merge (m other : SourceMap) (subject : Subject) :
    (m.merge other).get? subject = (m.get? subject).or (other.get? subject) :=
  Table.get?_extend m other.entries subject

end SourceMap

namespace Catalogue

/-! ### Places in a catalogue -/

theorem get?_sourceMap_component (c : Catalogue) (name : String) :
    c.sourceMap.get? (.component name) = (c.components.get? name).map (·.site) := by
  have hnone : Table.find? (Subject.component name)
      (c.facets.entries.map fun p => (Subject.facet p.1, p.2.site)) = none := by
    rw [Table.find?_eq_none_iff]
    simp
  rw [sourceMap, Table.get?_empty_extend, Table.find?_append, hnone, Option.or_none]
  exact Table.find?_map_key (fun _ _ => Subject.component.inj) (fun d => d.site) name
    c.components.entries

theorem get?_sourceMap_facet (c : Catalogue) (name : String) :
    c.sourceMap.get? (.facet name) = (c.facets.get? name).map (·.site) := by
  have hnone : Table.find? (Subject.facet name)
      (c.components.entries.map fun p => (Subject.component p.1, p.2.site)) = none := by
    rw [Table.find?_eq_none_iff]
    simp
  rw [sourceMap, Table.get?_empty_extend, Table.find?_append, hnone, Option.none_or]
  exact Table.find?_map_key (fun _ _ => Subject.facet.inj) (fun d => d.site) name c.facets.entries

/-- A catalogue knows where types were declared, and nothing about instances. -/
theorem get?_sourceMap_instanceAt (c : Catalogue) (path : String) :
    c.sourceMap.get? (.instanceAt path) = none := by
  rw [sourceMap, Table.get?_empty_extend, Table.find?_eq_none_iff]
  simp

/-! ### Places and resolution -/

/-- To change types is not to change where they were declared. -/
theorem map_sites_modify {α : Type} (t : Table String (Declared α)) (name : String) (f : α → α)
    (subject : String → Subject) :
    ((t.modify name (Declared.modify f)).entries.map fun p => (subject p.1, p.2.site)) =
      t.entries.map fun p => (subject p.1, p.2.site) := by
  rw [Table.modify, Table.map, List.map_map]
  refine List.map_congr_left fun p _ => ?_
  obtain ⟨k, d⟩ := p
  dsimp only [Function.comp_apply]
  split <;> rfl

theorem sourceMap_dropMention (c : Catalogue) (m : Mention) :
    (c.dropMention m).sourceMap = c.sourceMap := by
  obtain ⟨owner, bond, target⟩ := m
  cases bond
  all_goals
    rw [sourceMap, sourceMap]
    simp only [dropMention, drop, modifyComponent, modifyFacet, map_sites_modify]

theorem sourceMap_dropAll (c : Catalogue) (ms : List Mention) :
    (c.dropAll ms).sourceMap = c.sourceMap := by
  induction ms generalizing c with
  | nil => rfl
  | cons m ms ih => exact (ih (c.dropMention m)).trans (c.sourceMap_dropMention m)

/-- Resolution drops mentions, and no declaration. -/
theorem sourceMap_resolve (c : Catalogue) : c.resolve.1.sourceMap = c.sourceMap := by
  rw [resolve_eq, sourceMap_dropAll]

/-! ### First declarations -/

theorem site_eq_head?_sitesIn {α : Type} (t : Table String (Declared α)) (name : String) :
    (t.get? name).map (·.site) = (sitesIn t name).head? := by
  rw [sitesIn]
  cases t.get? name <;> rfl

theorem get?_sourceMap_component_ofBlocks (bs : List Block) (name : String) :
    (ofBlocks bs).sourceMap.get? (.component name) = bs.findSome? (Block.componentSite? name) := by
  rw [get?_sourceMap_component, site_eq_head?_sitesIn, sitesIn_components_ofBlocks,
    List.head?_filterMap]

theorem get?_sourceMap_facet_ofBlocks (bs : List Block) (name : String) :
    (ofBlocks bs).sourceMap.get? (.facet name) = bs.findSome? (Block.facetSite? name) := by
  rw [get?_sourceMap_facet, site_eq_head?_sitesIn, sitesIn_facets_ofBlocks, List.head?_filterMap]

end Catalogue

/-! ### The compilation -/

namespace GraphCompilation

variable {flexible : Bool} {closure : Closure}

/-- The place of a type is that of the first declaration of its name in the files that were
    accepted; instances have none. -/
theorem get?_sourceMap_ofClosure (flexible : Bool) (closure : Closure) :
    (∀ name, (ofClosure flexible closure).sourceMap.get? (.component name) =
        (blocksOf (acceptedFiles flexible closure)).findSome? (Block.componentSite? name)) ∧
      (∀ name, (ofClosure flexible closure).sourceMap.get? (.facet name) =
        (blocksOf (acceptedFiles flexible closure)).findSome? (Block.facetSite? name)) ∧
      ∀ path, (ofClosure flexible closure).sourceMap.get? (.instanceAt path) = none := by
  have hmap : (ofClosure flexible closure).sourceMap = (gather flexible closure).1.sourceMap := by
    change (settle flexible (gather flexible closure)).1.sourceMap = _
    rw [settle]
    split
    · rfl
    · rw [Catalogue.sourceMap_resolve]
  rw [hmap]
  exact ⟨Catalogue.get?_sourceMap_component_ofBlocks _, Catalogue.get?_sourceMap_facet_ofBlocks _,
    Catalogue.get?_sourceMap_instanceAt _⟩

/-- Every type of the graph has a place. -/
theorem exists_site (flexible : Bool) (closure : Closure) (name : String) :
    ((ofClosure flexible closure).graph.components.contains name = true →
        ∃ site, (ofClosure flexible closure).sourceMap.get? (.component name) = some site) ∧
      ((ofClosure flexible closure).graph.facets.contains name = true →
        ∃ site, (ofClosure flexible closure).sourceMap.get? (.facet name) = some site) := by
  let c := (settle flexible (gather flexible closure)).1
  have hmap : (ofClosure flexible closure).sourceMap = c.sourceMap := rfl
  have hgraph : (ofClosure flexible closure).graph = c.graph := rfl
  rw [hmap, hgraph, Catalogue.contains_components_graph, Catalogue.contains_facets_graph,
    Catalogue.component?, Catalogue.facet?, Option.isSome_map, Option.isSome_map,
    Catalogue.get?_sourceMap_component, Catalogue.get?_sourceMap_facet]
  exact ⟨fun h => Option.isSome_iff_exists.1 (Option.isSome_map.trans h),
    fun h => Option.isSome_iff_exists.1 (Option.isSome_map.trans h)⟩

end GraphCompilation

end Deployment

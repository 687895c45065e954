import Deployment.Proofs.Block.Numbering
import Deployment.Proofs.Catalogue.Mentions

/-!
# Catalogues of different declarations

If no name is declared twice, a catalogue lists what the declarations describe, in their order
(`entries_components_ofBlocks`, `entries_facets_ofBlocks`), and reports neither repetitions nor,
if no facet has the name of a component, collisions (`repetitions_of_nodup`,
`collisions_eq_nil_iff`).
-/

namespace Deployment

namespace Block

/-- The component that a block declares, with its name. -/
def declaredComponent : Block → Option (String × Component)
  | .declaration _ .component name inner => some (name, .ofBlocks name inner)
  | _ => none

/-- The facet that a block declares, with its name. -/
def declaredFacet : Block → Option (String × Facet)
  | .declaration _ .facet name inner => some (name, .ofBlocks name inner)
  | _ => none

/-- The components that some blocks declare, in order. -/
def declaredComponents (bs : List Block) : List (String × Component) :=
  bs.filterMap declaredComponent

/-- The facets that some blocks declare, in order. -/
def declaredFacets (bs : List Block) : List (String × Facet) := bs.filterMap declaredFacet

theorem declaredComponent_numbered (file : Path) (line : Nat) (b : Block) :
    declaredComponent (b.numbered file line) = declaredComponent b := by
  cases b with
  | declaration site kind name inner =>
    cases kind with
    | component =>
      change some (name, Component.ofBlocks name (numberedAll file (line + 1) inner)) = _
      rw [Component.ofBlocks, properties_numberedAll]
      rfl
    | facet | instanceOf => rfl
  | importOf | property | comment | blank => rfl

theorem declaredFacet_numbered (file : Path) (line : Nat) (b : Block) :
    declaredFacet (b.numbered file line) = declaredFacet b := by
  cases b with
  | declaration site kind name inner =>
    cases kind with
    | facet =>
      change some (name, Facet.ofBlocks name (numberedAll file (line + 1) inner)) = _
      rw [Facet.ofBlocks, properties_numberedAll]
      rfl
    | component | instanceOf => rfl
  | importOf | property | comment | blank => rfl

end Block

namespace Catalogue

/-- What is known under a name, places aside: the type, and the other declarations. -/
def summary {α : Type} (p : String × Declared α) : String × α × List Site :=
  (p.1, p.2.model, p.2.repeated)

/-- The declaration of a new name goes to the end. -/
theorem entries_declare {α : Type} {t : Table String (Declared α)} {name : String}
    (h : name ∉ t.keys) (model : α) (site : Site) :
    (declare t name model site).entries = t.entries ++ [(name, ⟨model, site, []⟩)] := by
  rw [declare, Table.get?_eq_none_iff.2 h]
  exact Table.put_of_not_mem h

/-- Declarations of different names are listed in their order, each as the only one. -/
theorem entries_foldl_add {α : Type} (read : Catalogue → Table String (Declared α))
    {look : Block → Option (String × α)}
    (hnone : ∀ c b, look b = none → read (add c b) = read c)
    (hsome : ∀ c b p, look b = some p → read (add c b) = declare (read c) p.1 p.2 b.site)
    (bs : List Block) (c : Catalogue)
    (h : ((read c).keys ++ (bs.filterMap look).map Prod.fst).Nodup) :
    (read (bs.foldl add c)).entries.map summary =
      (read c).entries.map summary ++ (bs.filterMap look).map fun p => (p.1, p.2, []) := by
  induction bs generalizing c with
  | nil => simp
  | cons b bs ih =>
    rw [List.foldl_cons]
    cases hlook : look b with
    | none =>
      rw [List.filterMap_cons_none hlook] at h ⊢
      rw [← hnone c b hlook] at h ⊢
      exact ih _ h
    | some p =>
      rw [List.filterMap_cons_some hlook] at h ⊢
      have hnew : p.1 ∉ (read c).keys := fun hmem =>
        (List.nodup_append.1 h).2.2 _ hmem _ List.mem_cons_self rfl
      have hentries := entries_declare hnew p.2 b.site
      rw [← hsome c b p hlook] at hentries
      have hkeys : (read (add c b)).keys = (read c).keys ++ [p.1] := by
        rw [Table.keys, hentries, List.map_append]
        rfl
      rw [ih _ (by rw [hkeys]; simpa using h), hentries]
      simp [summary]

theorem entries_components_ofBlocks {bs : List Block}
    (h : ((Block.declaredComponents bs).map Prod.fst).Nodup) :
    (ofBlocks bs).components.entries.map summary =
      (Block.declaredComponents bs).map fun p => (p.1, p.2, []) := by
  refine entries_foldl_add (·.components) ?_ ?_ bs empty h
  · intro c b hb
    cases b with
    | declaration site kind name inner =>
      cases kind with
      | component => exact nomatch hb
      | facet | instanceOf => rfl
    | importOf | property | comment | blank => rfl
  · intro c b p hb
    cases b with
    | declaration site kind name inner =>
      cases kind with
      | component =>
        cases hb
        rfl
      | facet | instanceOf => exact nomatch hb
    | importOf | property | comment | blank => exact nomatch hb

theorem entries_facets_ofBlocks {bs : List Block}
    (h : ((Block.declaredFacets bs).map Prod.fst).Nodup) :
    (ofBlocks bs).facets.entries.map summary =
      (Block.declaredFacets bs).map fun p => (p.1, p.2, []) := by
  refine entries_foldl_add (·.facets) ?_ ?_ bs empty h
  · intro c b hb
    cases b with
    | declaration site kind name inner =>
      cases kind with
      | facet => exact nomatch hb
      | component | instanceOf => rfl
    | importOf | property | comment | blank => rfl
  · intro c b p hb
    cases b with
    | declaration site kind name inner =>
      cases kind with
      | facet =>
        cases hb
        rfl
      | component | instanceOf => exact nomatch hb
    | importOf | property | comment | blank => exact nomatch hb

/-- The graph of different declarations has the types that they declare. -/
theorem entries_components_graph {bs : List Block}
    (h : ((Block.declaredComponents bs).map Prod.fst).Nodup) :
    (ofBlocks bs).graph.components.entries = Block.declaredComponents bs := by
  have hmodels := congrArg (List.map fun s => (s.1, s.2.1)) (entries_components_ofBlocks h)
  rw [List.map_map, List.map_map] at hmodels
  exact hmodels.trans (List.map_id _)

theorem entries_facets_graph {bs : List Block}
    (h : ((Block.declaredFacets bs).map Prod.fst).Nodup) :
    (ofBlocks bs).graph.facets.entries = Block.declaredFacets bs := by
  have hmodels := congrArg (List.map fun s => (s.1, s.2.1)) (entries_facets_ofBlocks h)
  rw [List.map_map, List.map_map] at hmodels
  exact hmodels.trans (List.map_id _)

/-! ### Names declared more than once -/

/-- Names collide exactly if a facet has the name of a component. -/
theorem collisions_eq_nil_iff {c : Catalogue} :
    c.collisions = [] ↔ ∀ n ∈ c.components.keys, n ∉ c.facets.keys := by
  rw [collisions, List.flatMap_eq_nil_iff, Table.keys, List.forall_mem_map]
  refine forall₂_congr fun p _ => ?_
  rw [← Table.get?_eq_none_iff]
  cases hfacet : c.facets.get? p.1 with
  | none => simp [hfacet]
  | some facet => simp [hfacet, Declared.sites]

theorem repetition_of_nil {α : Type} {code : Code} {detail : Detail} {d : Declared α}
    (h : d.repeated = []) : repetition code detail d = [] :=
  if_pos h

/-- What is declared once is not reported. -/
theorem repetitions_of_nodup {bs : List Block}
    (hcomponents : ((Block.declaredComponents bs).map Prod.fst).Nodup)
    (hfacets : ((Block.declaredFacets bs).map Prod.fst).Nodup) :
    (ofBlocks bs).repetitions = [] := by
  have honce : ∀ {α : Type} {t : Table String (Declared α)} {ps : List (String × α)},
      t.entries.map summary = ps.map (fun p => (p.1, p.2, [])) →
        ∀ p ∈ t.entries, p.2.repeated = [] := by
    intro α t ps heq p hp
    have hmem := List.mem_map_of_mem (f := summary) hp
    rw [heq] at hmem
    obtain ⟨q, -, hq⟩ := List.mem_map.1 hmem
    exact (congrArg (·.2.2) hq).symm
  rw [repetitions, List.append_eq_nil_iff, List.flatMap_eq_nil_iff, List.flatMap_eq_nil_iff]
  exact ⟨fun p hp => repetition_of_nil (honce (entries_components_ofBlocks hcomponents) p hp),
    fun p hp => repetition_of_nil (honce (entries_facets_ofBlocks hfacets) p hp)⟩

end Catalogue

end Deployment

import Deployment.Proofs.Reach
import Deployment.Proofs.TypeGraph.Inheritance

/-!
# Walks along inheritance

What a component extends, and what a facet extends, is found by walking along relations that may
have loops and may lead to names that nothing is declared under. All that stops a walk are the names
that it has met before: the walk up from a component ends at the first of them, the search among
facets passes it over. Neither misses anything thereby, since what lies behind a name was found when
the name was met first; and there are no more names to meet than there are types.

* `Ascends`: the walk up from a component, told without fuel. It comes to an end
  (`Keyed.ascends_ancestors`), passes no name twice (`Ascends.nodup`) and goes from each component
  to the one that it extends (`Keyed.isChain_of_ascends`);
* `searches_bases`: the search among facets comes to an end;
* `Navigable`: both walks end and find exactly what is inherited, and so do the facets of a
  component. This holds of all graphs whose types stand under their own names
  (`Keyed.inheritance_exact`).
-/

namespace Deployment.TypeGraph

variable {g : TypeGraph} {name owner : String}

/-! ### The walk up from a component -/

/-- What a walk up lists, from the component that it has come to, past none of the names that it has
    met: the component that this one extends, and what follows. -/
inductive Ascends (g : TypeGraph) : List String → Option Component → List Component → Prop
  | top {seen : List String} {c : Option Component} : c.bind g.baseOf = none → Ascends g seen c []
  | met {seen : List String} {c : Option Component} {base : Component} :
      c.bind g.baseOf = some base → base.name ∈ seen → Ascends g seen c []
  | next {seen : List String} {c : Option Component} {base : Component} {rest : List Component} :
      c.bind g.baseOf = some base → base.name ∉ seen →
      Ascends g (base.name :: seen) (some base) rest → Ascends g seen c (base :: rest)

variable {seen : List String} {current : Option Component} {rest : List Component}

/-- A walk up meets no name twice. -/
theorem Ascends.nodup (h : g.Ascends seen current rest) (hseen : seen.Nodup) :
    (seen.reverse ++ rest.map (·.name)).Nodup := by
  induction h with
  | top _ =>
    rw [List.map_nil, List.append_nil]
    exact List.nodup_reverse.2 hseen
  | met _ _ =>
    rw [List.map_nil, List.append_nil]
    exact List.nodup_reverse.2 hseen
  | next _ hnew _ ih =>
    have hrest := ih (List.nodup_cons.2 ⟨hnew, hseen⟩)
    rwa [List.reverse_cons, List.append_assoc] at hrest

section Keyed

variable (hkeyed : g.Keyed)

include hkeyed

/-- A walk up goes from each component to the one that it extends. -/
theorem Keyed.isChain_of_ascends {c : Component} (h : g.Ascends seen current rest)
    (hcurrent : current = some c) (hc : g.component? c.name = some c) :
    (c.name :: rest.map (·.name)).IsChain g.ExtendsComponent := by
  induction h generalizing c with
  | top _ => exact List.isChain_singleton _
  | met _ _ => exact List.isChain_singleton _
  | next hbase _ _ ih =>
    subst hcurrent
    obtain ⟨hstep, hdeclared⟩ := hkeyed.extends_of_baseOf hc hbase
    exact List.isChain_cons_cons.2 ⟨hstep, ih rfl hdeclared⟩

/-- Every component that a walk up comes to has a name that it had not met, so that it comes to an
    end before the fuel of the chain does. -/
theorem Keyed.ascends_chain {fuel : Nat} (hnodup : seen.Nodup) (hsubset : seen ⊆ g.components.keys)
    (hfuel : g.components.size < fuel + seen.length) :
    g.Ascends seen current (g.chain fuel seen current) := by
  induction fuel generalizing seen current with
  | zero =>
    rw [Nat.zero_add] at hfuel
    exact absurd (length_le_size hnodup hsubset) (Nat.not_le_of_lt hfuel)
  | succ fuel ih =>
    rw [chain]
    cases hbase : current.bind g.baseOf with
    | none => exact .top hbase
    | some base =>
      dsimp only
      split
      · next hold => exact .met hbase hold
      · next hnew =>
        obtain ⟨c, -, hc⟩ := Option.bind_eq_some_iff.1 hbase
        obtain ⟨b, -, hdeclared⟩ := baseOf_eq_some_iff.1 hc
        obtain rfl := hkeyed.component b base hdeclared
        have hkey : base.name ∈ g.components.keys :=
          Table.contains_iff.1 (contains_iff_exists.2 ⟨base, hdeclared⟩)
        refine .next hbase hnew (ih (List.nodup_cons.2 ⟨hnew, hnodup⟩)
          (List.cons_subset.2 ⟨hkey, hsubset⟩) ?_)
        rw [List.length_cons]
        omega

/-- The walk up from a component comes to an end, loops or not. -/
theorem Keyed.ascends_ancestors (name : String) :
    g.Ascends [name] (g.component? name) (g.ancestors name) := by
  rw [ancestors]
  cases hc : g.component? name with
  | none =>
    rw [chain_none]
    exact .top rfl
  | some c =>
    have hkey : name ∈ g.components.keys := Table.contains_iff.1 (contains_iff_exists.2 ⟨c, hc⟩)
    exact hkeyed.ascends_chain (List.nodup_singleton name)
      (List.cons_subset.2 ⟨hkey, List.nil_subset _⟩) (Nat.lt_succ_self _)

theorem Keyed.isChain_ancestors (name : String) :
    (name :: (g.ancestors name).map (·.name)).IsChain g.ExtendsComponent := by
  cases hc : g.component? name with
  | none =>
    rw [ancestors, hc, chain_none]
    exact List.isChain_singleton name
  | some c =>
    obtain rfl := hkeyed.component name c hc
    exact hkeyed.isChain_of_ascends (hkeyed.ascends_ancestors c.name) hc hc

end Keyed

/-! ### Facets and those they extend -/

theorem mem_basesOf_iff {a b : String} : b ∈ g.basesOf a ↔ g.ExtendsFacet a b := by
  rw [basesOf, ExtendsFacet]
  cases g.facet? a <;> simp

/-- Only what is declared extends anything. -/
theorem mem_keys_of_basesOf_ne_nil {a : String} (h : g.basesOf a ≠ []) : a ∈ g.facets.keys := by
  by_contra hnone
  rw [basesOf, show g.facet? a = none from Table.get?_eq_none_iff.2 hnone] at h
  exact h rfl

/-- The fuel of the search suffices. -/
theorem length_bases (g : TypeGraph) :
    [name].length + (g.facets.keys.flatMap g.basesOf).length = g.facetFuel := by
  have hbases : g.facets.keys.flatMap g.basesOf = g.facets.values.flatMap (·.bases.toList) := by
    rw [Table.keys, Table.values, List.flatMap_map, List.flatMap_map]
    refine List.flatMap_congr fun p hp => ?_
    rw [basesOf, show g.facet? p.1 = some p.2 from Table.get?_eq_some_iff.2 hp]
  rw [hbases, facetFuel, List.length_singleton, Nat.add_comm]

/-- The search among facets comes to an end, loops or not. -/
theorem searches_bases (g : TypeGraph) (name : String) :
    Searches g.basesOf [] [name] (breadthFirst g.basesOf g.facetFuel [name]) :=
  searches_breadthFirst g.facets.nodup (fun _ => mem_keys_of_basesOf_ne_nil) (length_bases g).le

/-- The facets that a facet extends, directly or not, are those that it leads to. -/
theorem Keyed.mem_facetHierarchy_iff (hkeyed : g.Keyed) {f : Facet} :
    f ∈ g.facetHierarchy name ↔
      g.facet? f.name = some f ∧ Relation.ReflTransGen g.ExtendsFacet name f.name := by
  have hreach : ∀ x, x ∈ breadthFirst g.basesOf g.facetFuel [name] ↔
      Relation.ReflTransGen g.ExtendsFacet name x := by
    intro x
    rw [mem_breadthFirst_iff g.facets.nodup (fun _ => mem_keys_of_basesOf_ne_nil)
      (length_bases g).le]
    simp only [List.mem_singleton, exists_eq_left, mem_basesOf_iff]
  simp only [facetHierarchy, List.mem_filterMap, hreach]
  constructor
  · rintro ⟨x, hx, hf⟩
    obtain rfl := hkeyed.facet x f hf
    exact ⟨hf, hx⟩
  · rintro ⟨hf, hx⟩
    exact ⟨f.name, hx, hf⟩

/-- No facet is listed twice: a search meets each name once, and finds a facet of this name under
    it. -/
theorem Keyed.nodup_facetHierarchy (hkeyed : g.Keyed) (name : String) :
    ((g.facetHierarchy name).map (·.name)).Nodup := by
  have hnames : ∀ found : List String,
      ((found.filterMap g.facet?).map (·.name)).Sublist found := by
    intro found
    induction found with
    | nil => exact .slnil
    | cons n found ih =>
      cases hf : g.facet? n with
      | none =>
        rw [List.filterMap_cons_none hf]
        exact ih.cons n
      | some f =>
        obtain rfl := hkeyed.facet n f hf
        rw [List.filterMap_cons_some hf]
        exact ih.cons_cons f.name
  exact ((g.searches_bases name).nodup List.nodup_nil).sublist (hnames _)

theorem Keyed.exists_of_mem_allFacets (hkeyed : g.Keyed) (h : owner ∈ (g.allFacets name).toList) :
    ∃ f, g.facet? owner = some f := by
  obtain ⟨_, -, _, -, f, hf, rfl⟩ := mem_allFacets_iff.1 h
  exact ⟨f, (hkeyed.mem_facetHierarchy_iff.1 hf).1⟩

/-! ### Everything inherited -/

/-- The walks along inheritance from a name come to an end and are exact. -/
structure Navigable (g : TypeGraph) (name : String) : Prop where
  ascends : g.Ascends [name] (g.component? name) (g.ancestors name)
  /-- Each ancestor is what the one before it extends, so that the nearest comes first. -/
  isChain_ancestors : (name :: (g.ancestors name).map (·.name)).IsChain g.ExtendsComponent
  nodup_ancestors : (name :: (g.ancestors name).map (·.name)).Nodup
  mem_ancestors : ∀ c, c ∈ g.ancestors name ↔
    g.component? c.name = some c ∧ c.name ≠ name ∧
      Relation.TransGen g.ExtendsComponent name c.name
  searches : ∃ found, Searches g.basesOf [] [name] found ∧
    g.facetHierarchy name = found.filterMap g.facet?
  nodup_facetHierarchy : ((g.facetHierarchy name).map (·.name)).Nodup
  mem_facetHierarchy : ∀ f, f ∈ g.facetHierarchy name ↔
    g.facet? f.name = some f ∧ Relation.ReflTransGen g.ExtendsFacet name f.name
  mem_allFacets : ∀ facet, facet ∈ (g.allFacets name).toList ↔
    ∃ c, (g.component? name = some c ∨ c ∈ g.ancestors name) ∧
      ∃ own ∈ c.facets.toList, ∃ f ∈ g.facetHierarchy own, f.name = facet

/-- If types stand under their own names, the walks along inheritance come to an end from every
    name, whatever loops and undeclared names there are, and find just what is inherited. -/
theorem Keyed.inheritance_exact (hkeyed : g.Keyed) (name : String) : g.Navigable name where
  ascends := hkeyed.ascends_ancestors name
  isChain_ancestors := hkeyed.isChain_ancestors name
  nodup_ancestors := (hkeyed.ascends_ancestors name).nodup (List.nodup_singleton name)
  mem_ancestors c := by
    rw [hkeyed.mem_ancestors_iff]
    refine and_congr_right fun _ => and_congr_right fun hne => ?_
    rw [Relation.reflTransGen_iff_eq_or_transGen, or_iff_right hne]
  searches := ⟨_, g.searches_bases name, rfl⟩
  nodup_facetHierarchy := hkeyed.nodup_facetHierarchy name
  mem_facetHierarchy _ := hkeyed.mem_facetHierarchy_iff
  mem_allFacets facet := by
    simp only [mem_allFacets_iff, mem_lineage_iff_ancestors]

/-- A graph with loops and undeclared names: a component that leads into a loop without being on it,
    one that extends itself, and facets that extend each other and themselves. -/
def looped : TypeGraph :=
  withRoots {
    components := .ofList [
      ("Leaf", { Component.named "Leaf" with base := "Mid", facets := .ofList ["Logging"] }),
      ("Mid", { Component.named "Mid" with base := "Top" }),
      ("Top", { Component.named "Top" with base := "Mid", facets := .ofList ["Gone", "Plain"] }),
      ("Self", { Component.named "Self" with base := "Self" }),
      ("Lost", { Component.named "Lost" with base := "Nowhere" })]
    facets := .ofList [
      ("Logging", { Facet.named "Logging" with bases := .ofList ["Output", "Buffer"] }),
      ("Output", { Facet.named "Output" with bases := .ofList ["Logging", "Gone"] }),
      ("Buffer", { Facet.named "Buffer" with bases := .ofList ["Buffer"] }),
      ("Plain", Facet.named "Plain")]
    roots := .empty }

theorem inheritance_exact_looped :
    looped.Keyed ∧ looped.Navigable "Leaf" ∧ looped.Navigable "Logging" ∧
      (looped.ancestors "Leaf").map (·.name) = ["Mid", "Top"] ∧
      looped.ancestors "Self" = [] ∧ looped.ancestors "Lost" = [] ∧
      (looped.facetHierarchy "Logging").map (·.name) = ["Logging", "Output", "Buffer"] ∧
      (looped.allFacets "Leaf").toList = ["Logging", "Output", "Buffer", "Plain"] := by
  have hkeyed : looped.Keyed := by decide +kernel
  have hself : ∀ name ∈ ["Self", "Lost"], (looped.ancestors name).isEmpty = true := by
    decide +kernel
  exact ⟨hkeyed, hkeyed.inheritance_exact "Leaf", hkeyed.inheritance_exact "Logging",
    by decide +kernel, List.isEmpty_iff.1 (hself _ (by decide)),
    List.isEmpty_iff.1 (hself _ (by decide)), by decide +kernel, by decide +kernel⟩

end Deployment.TypeGraph

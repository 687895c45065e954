import Deployment.Proofs.GraphCompilation
import Deployment.TypeGraph.Placement

/-!
# What is inherited

The chain of what a component extends is followed until it ends or comes back to a component that it
already met. Whatever it would meet later it has met by then (`mem_chain_of_extends`), so that the
lineage of a component consists of the declared components that it leads to, loops or not
(`mem_lineage_iff`). A component thus has all that the components of its lineage have: their facets,
their exports, their children.

* `Keyed`: types stand under their own names;
* `mem_ancestors_iff`, `mem_descendants_iff`: who extends whom, directly or not;
* `lineage_subset`: a descendant has the lineage of the component that it descends from;
* `allFacets_subset`, `exportsVariable_of_lineage`, `effectiveChildren_subset`: what it has thereby.
-/

namespace Deployment.TypeGraph

variable {g : TypeGraph} {name : String}

/-- Types stand under their own names. -/
structure Keyed (g : TypeGraph) : Prop where
  component : ∀ name c, g.component? name = some c → c.name = name
  facet : ∀ name f, g.facet? name = some f → f.name = name

theorem keyed_iff : g.Keyed ↔
    (∀ p ∈ g.components.entries, p.2.name = p.1) ∧ ∀ p ∈ g.facets.entries, p.2.name = p.1 := by
  constructor
  · intro h
    exact ⟨fun p hp => h.component p.1 p.2 (Table.get?_eq_some_iff.2 hp),
      fun p hp => h.facet p.1 p.2 (Table.get?_eq_some_iff.2 hp)⟩
  · rintro ⟨hcomponents, hfacets⟩
    exact ⟨fun name c hc => hcomponents (name, c) (Table.get?_eq_some_iff.1 hc),
      fun name f hf => hfacets (name, f) (Table.get?_eq_some_iff.1 hf)⟩

instance : Decidable g.Keyed := decidable_of_iff _ keyed_iff.symm

theorem ExtendsComponent.contains {a b : String} (h : g.ExtendsComponent a b) :
    g.components.contains a = true := by
  obtain ⟨c, hc, -⟩ := h
  rw [Table.contains, show g.components.get? a = some c from hc]
  rfl

theorem contains_iff_exists {a : String} :
    g.components.contains a = true ↔ ∃ c, g.component? a = some c := by
  rw [Table.contains, Option.isSome_iff_exists]
  rfl

/-- What a component extends is declared exactly if it has a base. -/
theorem baseOf_eq_some_iff {c d : Component} :
    g.baseOf c = some d ↔ ∃ b, c.base = some b ∧ g.component? b = some d :=
  Option.bind_eq_some_iff

/-- There are no more names of components than components. -/
theorem length_le_size {seen : List String} (hnodup : seen.Nodup)
    (hsubset : seen ⊆ g.components.keys) : seen.length ≤ g.components.size := by
  have hle := (hnodup.subperm hsubset).length_le
  rwa [Table.keys, List.length_map] at hle

/-! ### The chain above a component -/

theorem chain_none (fuel : Nat) (seen : List String) : g.chain fuel seen none = [] := by
  cases fuel <;> rfl

/-- The lineage of a component are the component, if it is declared, and its ancestors. -/
theorem mem_lineage_iff_ancestors {c : Component} :
    c ∈ g.lineage name ↔ g.component? name = some c ∨ c ∈ g.ancestors name := by
  rw [lineage]
  cases hc : g.component? name with
  | none => simp [ancestors, hc, chain_none]
  | some d => simp [eq_comm]

section Chain

variable (hkeyed : g.Keyed)

include hkeyed

theorem Keyed.extends_of_baseOf {c d : Component} (hc : g.component? c.name = some c)
    (hd : g.baseOf c = some d) :
    g.ExtendsComponent c.name d.name ∧ g.component? d.name = some d := by
  obtain ⟨b, hb, hdeclared⟩ := baseOf_eq_some_iff.1 hd
  obtain rfl := hkeyed.component b d hdeclared
  exact ⟨⟨c, hc, hb⟩, hdeclared⟩

/-- What a component extends, if it is declared, is its base. -/
theorem Keyed.baseOf_of_extends {c : Component} {b : String} (hc : g.component? c.name = some c)
    (h : g.ExtendsComponent c.name b) (hb : g.components.contains b = true) :
    ∃ d, g.baseOf c = some d ∧ d.name = b := by
  obtain ⟨c', hc', hbase⟩ := h
  obtain rfl := Option.some.inj (hc.symm.trans hc')
  obtain ⟨d, hd⟩ := contains_iff_exists.1 hb
  exact ⟨d, baseOf_eq_some_iff.2 ⟨b, hbase, hd⟩, hkeyed.component b d hd⟩

/-- The chain meets declared components that the component leads to, and none that it is told was
    met before. -/
theorem Keyed.of_mem_chain {fuel : Nat} {seen : List String} {c x : Component}
    (hc : g.component? c.name = some c) (hx : x ∈ g.chain fuel seen (some c)) :
    g.component? x.name = some x ∧ x.name ∉ seen ∧
      Relation.ReflTransGen g.ExtendsComponent c.name x.name := by
  induction fuel generalizing seen c with
  | zero => exact absurd hx List.not_mem_nil
  | succ fuel ih =>
    rw [chain, Option.bind_some] at hx
    cases hbase : g.baseOf c with
    | none =>
      rw [hbase] at hx
      exact absurd hx List.not_mem_nil
    | some d =>
      obtain ⟨hstep, hd⟩ := hkeyed.extends_of_baseOf hc hbase
      rw [hbase] at hx
      dsimp only at hx
      split at hx
      · exact absurd hx List.not_mem_nil
      · next hnew =>
        rcases List.mem_cons.1 hx with rfl | hx
        · exact ⟨hd, hnew, .single hstep⟩
        · obtain ⟨hdeclared, hnot, hreach⟩ := ih hd hx
          exact ⟨hdeclared, fun hmem => hnot (List.mem_cons_of_mem _ hmem), .head hstep hreach⟩

/-- Where the chain stops, nothing new is left: what was met extends nothing else. Of the names that
    were met before, only the last one may have a base that was not. -/
theorem Keyed.mem_chain_of_extends {fuel : Nat} {seen : List String} {c : Component}
    (hc : g.component? c.name = some c) (hmem : c.name ∈ seen) (hnodup : seen.Nodup)
    (hsubset : seen ⊆ g.components.keys) (hfuel : g.components.size < fuel + seen.length)
    (hclosed : ∀ a ∈ seen, a ≠ c.name → ∀ b, g.ExtendsComponent a b →
      g.components.contains b = true → b ∈ seen) :
    ∀ a ∈ seen ++ (g.chain fuel seen (some c)).map Component.name, ∀ b, g.ExtendsComponent a b →
      g.components.contains b = true →
        b ∈ seen ++ (g.chain fuel seen (some c)).map Component.name := by
  induction fuel generalizing seen c with
  | zero =>
    -- More names were met than there are.
    rw [Nat.zero_add] at hfuel
    exact absurd (length_le_size hnodup hsubset) (Nat.not_le_of_lt hfuel)
  | succ fuel ih =>
    rw [chain, Option.bind_some]
    cases hbase : g.baseOf c with
    | none =>
      rw [List.map_nil, List.append_nil]
      intro a ha b hab hb
      by_cases hac : a = c.name
      · subst hac
        obtain ⟨d, hd, -⟩ := hkeyed.baseOf_of_extends hc hab hb
        exact absurd (hbase.symm.trans hd) (Option.some_ne_none d).symm
      · exact hclosed a ha hac b hab hb
    | some d =>
      obtain ⟨hstep, hd⟩ := hkeyed.extends_of_baseOf hc hbase
      have hseen : ∀ a ∈ seen, ∀ b, g.ExtendsComponent a b → g.components.contains b = true →
          b ∈ d.name :: seen := by
        intro a ha b hab hb
        by_cases hac : a = c.name
        · subst hac
          obtain ⟨d', hd', rfl⟩ := hkeyed.baseOf_of_extends hc hab hb
          obtain rfl := Option.some.inj (hbase.symm.trans hd')
          exact List.mem_cons_self
        · exact List.mem_cons_of_mem _ (hclosed a ha hac b hab hb)
      dsimp only
      split
      · next hold =>
        rw [List.map_nil, List.append_nil]
        intro a ha b hab hb
        exact (List.mem_cons.1 (hseen a ha b hab hb)).elim (fun e => e ▸ hold) id
      · next hnew =>
        have hkey : d.name ∈ g.components.keys :=
          Table.contains_iff.1 (contains_iff_exists.2 ⟨d, hd⟩)
        have hnodup' : (d.name :: seen).Nodup := List.nodup_cons.2 ⟨hnew, hnodup⟩
        have hrest := ih hd List.mem_cons_self hnodup' (List.cons_subset.2 ⟨hkey, hsubset⟩)
          (by rw [List.length_cons]; omega)
          fun a ha hne b hab hb => hseen a ((List.mem_cons.1 ha).resolve_left hne) b hab hb
        have hperm : ∀ x, x ∈ seen ++ (d :: g.chain fuel (d.name :: seen) (some d)).map
            Component.name ↔
            x ∈ d.name :: seen ++ (g.chain fuel (d.name :: seen) (some d)).map Component.name := by
          intro x
          rw [List.map_cons, List.cons_append]
          exact List.perm_middle.mem_iff
        intro a ha b hab hb
        exact (hperm b).2 (hrest a ((hperm a).1 ha) b hab hb)

/-- The ancestors of a component are the declared components that it leads to, but for itself. -/
theorem Keyed.mem_ancestors_iff {x : Component} :
    x ∈ g.ancestors name ↔ g.component? x.name = some x ∧ x.name ≠ name ∧
      Relation.ReflTransGen g.ExtendsComponent name x.name := by
  rw [ancestors]
  cases hc : g.component? name with
  | none =>
    -- Nothing is declared under the name, which leads nowhere then.
    rw [chain_none]
    refine iff_of_false List.not_mem_nil ?_
    rintro ⟨-, hne, hreach⟩
    rcases hreach.cases_head with heq | ⟨b, ⟨c, hc', -⟩, -⟩
    · exact hne heq.symm
    · exact absurd (hc.symm.trans hc') (Option.some_ne_none c).symm
  | some c =>
    obtain rfl := hkeyed.component name c hc
    constructor
    · intro hx
      obtain ⟨hdeclared, hnot, hreach⟩ := hkeyed.of_mem_chain hc hx
      exact ⟨hdeclared, fun heq => hnot (List.mem_singleton.2 heq), hreach⟩
    · rintro ⟨hdeclared, hne, hreach⟩
      have hkey : c.name ∈ g.components.keys := Table.contains_iff.1 (contains_iff_exists.2 ⟨c, hc⟩)
      have hclosed := hkeyed.mem_chain_of_extends hc List.mem_cons_self (List.nodup_singleton _)
        (List.cons_subset.2 ⟨hkey, List.nil_subset _⟩) (Nat.lt_succ_self _)
        fun a ha hac => absurd (List.mem_singleton.1 ha) hac
      -- By induction on the way, all declared components on it are met.
      have hmet : ∀ b, Relation.ReflTransGen g.ExtendsComponent c.name b →
          g.components.contains b = true →
          b ∈ [c.name] ++ (g.chain g.components.size [c.name] (some c)).map Component.name := by
        intro b hb
        induction hb with
        | refl => exact fun _ => List.mem_cons_self
        | tail _ hstep ih => exact hclosed _ (ih hstep.contains) _ hstep
      have hmem := hmet x.name hreach (contains_iff_exists.2 ⟨x, hdeclared⟩)
      rw [List.singleton_append, List.mem_cons, List.mem_map] at hmem
      obtain ⟨y, hy, hname⟩ := hmem.resolve_left hne
      obtain ⟨hy', -, -⟩ := hkeyed.of_mem_chain hc hy
      rw [hname, hdeclared] at hy'
      exact Option.some.inj hy' ▸ hy

/-- The lineage of a component are the declared components that it leads to. -/
theorem Keyed.mem_lineage_iff {x : Component} :
    x ∈ g.lineage name ↔ g.component? x.name = some x ∧
      Relation.ReflTransGen g.ExtendsComponent name x.name := by
  rw [mem_lineage_iff_ancestors, hkeyed.mem_ancestors_iff]
  constructor
  · rintro (hdeclared | ⟨hdeclared, -, hreach⟩)
    · obtain rfl := hkeyed.component name x hdeclared
      exact ⟨hdeclared, .refl⟩
    · exact ⟨hdeclared, hreach⟩
  · rintro ⟨hdeclared, hreach⟩
    by_cases hname : x.name = name
    · exact .inl (hname ▸ hdeclared)
    · exact .inr ⟨hdeclared, hname, hreach⟩

/-- The descendants of a component are the other components that lead to it. -/
theorem Keyed.mem_descendants_iff {c : Component} :
    c ∈ g.descendants name ↔ g.component? c.name = some c ∧ c.name ≠ name ∧
      g.components.contains name = true ∧
      Relation.ReflTransGen g.ExtendsComponent c.name name := by
  have hvalues : c ∈ g.components.values ↔ g.component? c.name = some c := by
    rw [Table.mem_values_iff]
    refine ⟨fun ⟨k, hk⟩ => ?_, fun h => ⟨_, h⟩⟩
    rw [hkeyed.component k c hk]
    exact hk
  simp only [descendants, List.mem_filter, hvalues, Bool.and_eq_true, bne_iff_ne, List.any_eq_true,
    beq_iff_eq, hkeyed.mem_ancestors_iff, contains_iff_exists]
  constructor
  · rintro ⟨hdeclared, hne, a, ⟨ha, -, hreach⟩, rfl⟩
    exact ⟨hdeclared, hne, ⟨a, ha⟩, hreach⟩
  · rintro ⟨hdeclared, hne, ⟨a, ha⟩, hreach⟩
    obtain rfl := hkeyed.component name a ha
    exact ⟨hdeclared, hne, a, ⟨ha, hne.symm, hreach⟩, rfl⟩

/-- A descendant has the lineage of the component that it descends from. -/
theorem Keyed.lineage_subset {c : Component} (hc : c ∈ g.descendants name) :
    g.lineage name ⊆ g.lineage c.name := by
  obtain ⟨-, -, -, hreach⟩ := hkeyed.mem_descendants_iff.1 hc
  intro x hx
  obtain ⟨hdeclared, hreach'⟩ := hkeyed.mem_lineage_iff.1 hx
  exact hkeyed.mem_lineage_iff.2 ⟨hdeclared, hreach.trans hreach'⟩

/-- A component descends from those from which one that it descends from does. -/
theorem Keyed.mem_descendants_trans {c d : Component} (hd : d ∈ g.descendants c.name)
    (hc : c ∈ g.descendants name) (hne : d.name ≠ name) : d ∈ g.descendants name := by
  obtain ⟨hdeclared, -, -, hreach⟩ := hkeyed.mem_descendants_iff.1 hd
  obtain ⟨-, -, hname, hreach'⟩ := hkeyed.mem_descendants_iff.1 hc
  exact hkeyed.mem_descendants_iff.2 ⟨hdeclared, hne, hname, hreach.trans hreach'⟩

end Chain

/-! ### What a component has by its lineage -/

variable {other : String}

theorem mem_allFacets_iff {facet : String} :
    facet ∈ (g.allFacets name).toList ↔ ∃ c ∈ g.lineage name, ∃ own ∈ c.facets.toList,
      ∃ f ∈ g.facetHierarchy own, f.name = facet := by
  rw [allFacets, NameSet.mem_ofList]
  simp only [List.mem_flatMap, List.mem_map]

theorem exportsVariable_iff {key : String} :
    g.exportsVariable name key = true ↔
      (∃ facet ∈ (g.allFacets name).toList, ∃ f, g.facet? facet = some f ∧
        ∃ v ∈ f.exports.values, v.designatedBy f.name key = true) ∨
      ∃ c ∈ g.lineage name, ∃ v ∈ c.exports.values, v.designatedBy c.name key = true := by
  have hlineage : ∀ {P : Component → Prop}, (∃ c ∈ g.lineage name, P c) ↔
      (∃ c ∈ g.ancestors name, P c) ∨ ∃ c, g.component? name = some c ∧ P c := by
    intro P
    simp only [mem_lineage_iff_ancestors, or_and_right, exists_or, or_comm]
  rw [hlineage, exportsVariable, allExports]
  simp only [List.any_append, Bool.or_eq_true, List.any_flatMap, List.any_map, List.any_eq_true,
    List.mem_filterMap, List.mem_reverse, Option.mem_toList, Function.comp_apply, or_assoc]
  constructor
  · rintro (⟨f, ⟨facet, hfacet, hf⟩, h⟩ | h)
    · exact .inl ⟨facet, hfacet, f, hf, h⟩
    · exact .inr h
  · rintro (⟨facet, hfacet, f, hf, h⟩ | h)
    · exact .inl ⟨f, ⟨facet, hfacet, hf⟩, h⟩
    · exact .inr h

theorem mem_inheritedChildren_iff {child : String} :
    child ∈ (g.inheritedChildren name).toList ↔
      (∃ c ∈ g.lineage name, child ∈ c.children.toList) ∨
      ∃ facet ∈ (g.allFacets name).toList, ∃ f, g.facet? facet = some f ∧
        child ∈ f.children.toList := by
  rw [inheritedChildren, NameSet.mem_ofList, List.mem_append, List.mem_flatMap, List.mem_flatMap]
  refine or_congr_right ?_
  simp only [List.mem_filterMap]
  constructor
  · rintro ⟨f, ⟨facet, hfacet, hf⟩, hchild⟩
    exact ⟨facet, hfacet, f, hf, hchild⟩
  · rintro ⟨facet, hfacet, f, hf, hchild⟩
    exact ⟨f, ⟨facet, hfacet, hf⟩, hchild⟩

theorem mem_effectiveChildren_iff {child : String} :
    child ∈ (g.effectiveChildren name).toList ↔
      ∃ declared ∈ (g.inheritedChildren name).toList, child ∈ g.admitted declared := by
  rw [effectiveChildren, NameSet.mem_ofList, List.mem_flatMap]

section Lineage

variable (h : g.lineage name ⊆ g.lineage other)

include h

theorem allFacets_subset : (g.allFacets name).toList ⊆ (g.allFacets other).toList := by
  intro facet hfacet
  obtain ⟨c, hc, hown⟩ := mem_allFacets_iff.1 hfacet
  exact mem_allFacets_iff.2 ⟨c, h hc, hown⟩

theorem exportsVariable_of_lineage {key : String} (hkey : g.exportsVariable name key = true) :
    g.exportsVariable other key = true := by
  rw [exportsVariable_iff] at hkey ⊢
  rcases hkey with ⟨facet, hfacet, hexports⟩ | ⟨c, hc, hexports⟩
  · exact .inl ⟨facet, allFacets_subset h hfacet, hexports⟩
  · exact .inr ⟨c, h hc, hexports⟩

theorem effectiveChildren_subset :
    (g.effectiveChildren name).toList ⊆ (g.effectiveChildren other).toList := by
  intro child hchild
  obtain ⟨declared, hdeclared, hadmitted⟩ := mem_effectiveChildren_iff.1 hchild
  refine mem_effectiveChildren_iff.2 ⟨declared, mem_inheritedChildren_iff.2 ?_, hadmitted⟩
  rcases mem_inheritedChildren_iff.1 hdeclared with ⟨c, hc, hown⟩ | ⟨facet, hfacet, hown⟩
  · exact .inl ⟨c, h hc, hown⟩
  · exact .inr ⟨facet, allFacets_subset h hfacet, hown⟩

end Lineage

/-! ### What is admitted as a child -/

/-- A component is admitted as itself and as what it descends from; a facet admits whatever carries
    it, and what descends from it. -/
theorem Keyed.mem_admitted_of_descendants (hkeyed : g.Keyed) {child : String}
    (hchild : child ∈ g.admitted name) {d : Component} (hd : d ∈ g.descendants child) :
    d.name ∈ g.admitted name := by
  rw [admitted] at hchild ⊢
  cases hfind : g.find? name with
  | none =>
    rw [hfind] at hchild
    exact absurd hchild List.not_mem_nil
  | some entry =>
    rw [hfind] at hchild
    cases entry with
    | component c =>
      dsimp only at hchild ⊢
      rw [List.mem_cons, List.mem_map] at hchild ⊢
      rcases hchild with rfl | ⟨b, hb, rfl⟩
      · exact .inr ⟨d, hd, rfl⟩
      · by_cases hname : d.name = c.name
        · exact .inl hname
        · exact .inr ⟨d, hkeyed.mem_descendants_trans hd hb hname, rfl⟩
    | facet f =>
      dsimp only at hchild ⊢
      rw [List.mem_filter] at hchild ⊢
      obtain ⟨hdeclared, -, -, -⟩ := hkeyed.mem_descendants_iff.1 hd
      refine ⟨Table.contains_iff.1 (contains_iff_exists.2 ⟨d, hdeclared⟩), ?_⟩
      rw [NameSet.contains, List.contains_iff_mem] at hchild ⊢
      exact allFacets_subset (hkeyed.lineage_subset hd) hchild.2

/-- Whatever may be placed below a component, its descendants may be placed there too. -/
theorem Keyed.mem_effectiveChildren_of_descendants (hkeyed : g.Keyed) {child : String}
    (hchild : child ∈ (g.effectiveChildren name).toList) {d : Component}
    (hd : d ∈ g.descendants child) : d.name ∈ (g.effectiveChildren name).toList := by
  obtain ⟨declared, hdeclared, hadmitted⟩ := mem_effectiveChildren_iff.1 hchild
  exact mem_effectiveChildren_iff.2
    ⟨declared, hdeclared, hkeyed.mem_admitted_of_descendants hadmitted hd⟩

end Deployment.TypeGraph

import Deployment.Proofs.Findings
import Deployment.Proofs.Forest.Links
import Deployment.Proofs.Reach
import Deployment.Proofs.TypeGraph.Inheritance
import Mathlib.Algebra.Group.Action.Defs
import Mathlib.Algebra.Order.BigOperators.Group.List

/-!
# What can be deployed

A component can occur in a deployment if it is a root or may be placed below a component that can
(`TypeGraph.Deployable`). A breadth-first search finds these components (`Keyed.mem_reachable_iff`),
so that the check of a graph reports all others as unreachable, each once, and nothing else. In a
forest whose instances stand where they may, all components are deployable
(`deployable_of_check`): the checks of graphs and of forests agree (`unreachable_exact`).
-/

namespace Deployment

namespace TypeGraph

variable {g : TypeGraph} {name : String}

/-- The least set of names that has the roots, and the effective children of all that it has. -/
inductive Deployable (g : TypeGraph) : String → Prop
  | root {name : String} : name ∈ g.roots.toList → g.Deployable name
  | child {above name : String} :
      g.Deployable above → name ∈ (g.effectiveChildren above).toList → g.Deployable name

/-! ### Effective children are few -/

theorem lineage_of_not_contains (h : ¬g.components.contains name = true) : g.lineage name = [] := by
  rw [Table.contains, Bool.not_eq_true, Option.isSome_eq_false_iff, Option.isNone_iff_eq_none] at h
  rw [lineage, show g.component? name = none from h]

/-- Nothing is placed below what is not declared. -/
theorem contains_of_effectiveChildren_ne_nil (h : (g.effectiveChildren name).toList ≠ []) :
    g.components.contains name = true := by
  by_contra hnot
  have hlineage := lineage_of_not_contains hnot
  refine h (List.eq_nil_iff_forall_not_mem.2 fun child hchild => ?_)
  obtain ⟨declared, hdeclared, -⟩ := mem_effectiveChildren_iff.1 hchild
  rcases mem_inheritedChildren_iff.1 hdeclared with ⟨c, hc, -⟩ | ⟨facet, hfacet, -⟩
  · exact List.not_mem_nil (hlineage ▸ hc)
  · obtain ⟨c, hc, -⟩ := mem_allFacets_iff.1 hfacet
    exact List.not_mem_nil (hlineage ▸ hc)

section Keyed

variable (hkeyed : g.Keyed)

include hkeyed

/-- Only components are admitted as children. -/
theorem Keyed.contains_of_mem_admitted {child : String} (h : child ∈ g.admitted name) :
    g.components.contains child = true := by
  rw [admitted, find?] at h
  cases hc : g.component? name with
  | some c =>
    obtain rfl := hkeyed.component name c hc
    rw [hc, Option.map_some, Option.some_or] at h
    rcases List.mem_cons.1 h with rfl | h
    · exact contains_iff_exists.2 ⟨c, hc⟩
    · obtain ⟨d, hd, rfl⟩ := List.mem_map.1 h
      exact contains_iff_exists.2 ⟨d, (hkeyed.mem_descendants_iff.1 hd).1⟩
  | none =>
    rw [hc, Option.map_none, Option.none_or] at h
    cases hf : g.facet? name with
    | some f =>
      rw [hf, Option.map_some] at h
      exact Table.contains_iff.2 (List.mem_of_mem_filter h)
    | none =>
      rw [hf, Option.map_none] at h
      exact absurd h List.not_mem_nil

theorem Keyed.length_effectiveChildren_le (name : String) :
    (g.effectiveChildren name).toList.length ≤ g.components.size := by
  have hsubset : (g.effectiveChildren name).toList ⊆ g.components.keys := by
    intro child hchild
    obtain ⟨declared, -, hadmitted⟩ := mem_effectiveChildren_iff.1 hchild
    exact Table.contains_iff.1 (hkeyed.contains_of_mem_admitted hadmitted)
  have hle := ((g.effectiveChildren name).nodup.subperm hsubset).length_le
  rwa [Table.keys, List.length_map] at hle

/-- The fuel of the search suffices, as no component has more effective children than there are
    components. -/
theorem Keyed.le_placementFuel :
    g.roots.toList.length +
      (g.components.keys.flatMap fun name => (g.effectiveChildren name).toList).length ≤
        g.placementFuel := by
  refine Nat.add_le_add_left ?_ _
  have hle := List.sum_le_card_nsmul
    (g.components.keys.map fun name => (g.effectiveChildren name).toList.length) g.components.size
  rw [List.length_map, Table.keys, List.length_map, smul_eq_mul] at hle
  rw [List.length_flatMap]
  refine hle fun n hn => ?_
  obtain ⟨name, -, rfl⟩ := List.mem_map.1 hn
  exact hkeyed.length_effectiveChildren_le name

/-- What is reached from the roots is what can be deployed. -/
theorem Keyed.mem_reachable_iff : name ∈ g.reachable ↔ g.Deployable name := by
  rw [reachable, mem_breadthFirst_iff g.components.nodup
    (fun n hn => Table.contains_iff.1 (contains_of_effectiveChildren_ne_nil hn))
    hkeyed.le_placementFuel]
  constructor
  · rintro ⟨root, hroot, hreach⟩
    induction hreach with
    | refl => exact .root hroot
    | tail _ hchild ih => exact .child ih hchild
  · intro h
    induction h with
    | root hroot => exact ⟨_, hroot, .refl⟩
    | child _ hchild ih =>
      obtain ⟨root, hroot, hreach⟩ := ih
      exact ⟨root, hroot, hreach.tail hchild⟩

end Keyed

/-! ### What the checks report -/

theorem code_ne_of_mem_checkComponent {c : Component} {e : Finding}
    (h : e ∈ g.checkComponent name c) : e.diagnostic.code ≠ .unreachableComponent := by
  rcases eq_of_mem_checkComponent h with rfl | ⟨installer, rfl⟩ | ⟨owner, key, rfl⟩
  · exact Code.noConfusion
  · exact Code.noConfusion
  · change g.unresolvedCode owner ≠ _
    rw [unresolvedCode]
    split <;> exact Code.noConfusion

theorem code_ne_of_mem_checkFacet {f : Facet} {e : Finding} (h : e ∈ g.checkFacet name f) :
    e.diagnostic.code ≠ .unreachableComponent := by
  rcases eq_of_mem_checkFacet h with rfl | rfl <;> exact Code.noConfusion

/-- The components reported as unreachable are those that the search does not find. -/
theorem filter_check_unreachable (g : TypeGraph) :
    g.check.filter (·.diagnostic.code = .unreachableComponent) =
      (g.components.keys.filter fun name => !g.reachable.contains name).map fun name =>
        .about (.component name) .unreachableComponent [] := by
  rw [check, List.filter_append, List.filter_append, List.filter_eq_nil_iff.2,
    List.filter_eq_nil_iff.2, List.nil_append, List.nil_append, List.filter_eq_self.2]
  · intro e he
    obtain ⟨name, -, rfl⟩ := List.mem_map.1 he
    rfl
  · intro e he
    obtain ⟨p, -, he⟩ := List.mem_flatMap.1 he
    simpa using code_ne_of_mem_checkFacet he
  · intro e he
    obtain ⟨p, -, he⟩ := List.mem_flatMap.1 he
    simpa using code_ne_of_mem_checkComponent he

/-- Instances that stand where they may are all instances of components that can be deployed. -/
theorem deployable_of_check {f : Forest} (htree : f.TreeShaped) (hknown : f.Known g)
    (hplaced : ∀ e ∈ f.check g, e.diagnostic.code ≠ .invalidInstanceParent) :
    ∀ id ∈ f.all, ∀ body, f.get? id = some body → g.Deployable body.component := by
  refine htree.induction fun id hid habove body hbody => ?_
  obtain ⟨body', hbody', hdeclared⟩ := hknown id hid
  obtain rfl := Option.some.inj (hbody.symm.trans hbody')
  have hwell := Forest.isWellPlaced_of_check hplaced hid hbody hdeclared
  rw [Forest.isWellPlaced] at hwell
  cases hparent : f.parent? id with
  | none =>
    rw [hparent] at hwell
    exact .root (List.contains_iff_mem.1 hwell)
  | some parent =>
    rw [hparent] at hwell
    obtain ⟨above, hget, hchild⟩ := (Option.any_eq_true ..).1 hwell
    exact .child (habove parent hparent above hget) (List.contains_iff_mem.1 hchild)

/-- The components reported as unreachable, each once, are the declared ones that cannot be
    deployed. None of them has an instance in a forest in which all instances stand where they may. -/
theorem Keyed.unreachable_exact (hkeyed : g.Keyed) :
    (∃ names : List String, names.Sublist g.components.keys ∧
      (∀ name, name ∈ names ↔ g.components.contains name = true ∧ ¬g.Deployable name) ∧
      g.check.filter (·.diagnostic.code = .unreachableComponent) =
        names.map fun name => .about (.component name) .unreachableComponent []) ∧
    ∀ f : Forest, f.TreeShaped → f.Known g →
      (∀ e ∈ f.check g, e.diagnostic.code ≠ .invalidInstanceParent) →
      ∀ id ∈ f.all, ∀ body, f.get? id = some body → g.Deployable body.component ∧
        ∀ e ∈ g.check, e.diagnostic.code = .unreachableComponent →
          e.subject ≠ .component body.component := by
  have hmem : ∀ name, name ∈ (g.components.keys.filter fun name => !g.reachable.contains name) ↔
      g.components.contains name = true ∧ ¬g.Deployable name := by
    intro name
    rw [List.mem_filter, Bool.not_eq_true', Bool.eq_false_iff, ne_eq, List.contains_iff_mem,
      hkeyed.mem_reachable_iff, Table.contains_iff]
  refine ⟨⟨_, List.filter_sublist, hmem, g.filter_check_unreachable⟩, ?_⟩
  intro f htree hknown hplaced id hid body hbody
  have hdeployable := deployable_of_check htree hknown hplaced id hid body hbody
  refine ⟨hdeployable, fun e he hcode hsubject => ?_⟩
  have hfiltered : e ∈ g.check.filter (·.diagnostic.code = .unreachableComponent) :=
    List.mem_filter.2 ⟨he, decide_eq_true hcode⟩
  rw [g.filter_check_unreachable] at hfiltered
  obtain ⟨name, hname, rfl⟩ := List.mem_map.1 hfiltered
  obtain rfl := Subject.component.inj hsubject
  exact ((hmem _).1 hname).2 hdeployable

/-- Containers that may stand in each other, and a component that only belongs below itself. -/
def nested : TypeGraph :=
  withRoots {
    components := .ofList [
      ("VM", { Component.named "VM" with children := .ofList ["Container"] }),
      ("Container", { Component.named "Container" with children := .ofList ["Container"] }),
      ("Spare", { Component.named "Spare" with children := .ofList ["Spare"] })]
    facets := .empty
    roots := .empty }

/-- A container in a container on a machine. -/
def boxes : Forest :=
  .ofTrees [.node (.named "vm" "VM")
    [.node (.named "outer" "Container") [.node (.named "inner" "Container") []]]]

/-- The component that belongs below itself is unreachable, and all containers are deployable. -/
theorem unreachable_exact_nested :
    nested.Keyed ∧ ¬nested.Deployable "Spare" ∧ boxes.TreeShaped ∧ boxes.Known nested ∧
      ∀ id ∈ boxes.all, ∀ body, boxes.get? id = some body → nested.Deployable body.component := by
  have hkeyed : nested.Keyed := by decide +kernel
  obtain ⟨⟨names, -, hnames, hreported⟩, hplaced⟩ := hkeyed.unreachable_exact
  have hknown : boxes.Known nested := by
    have hall : ∀ id ∈ boxes.all, (boxes.get? id).any
        (nested.components.contains ·.component) = true := by decide +kernel
    exact fun id hid => (Option.any_eq_true ..).1 (hall id hid)
  have hclean : (boxes.check nested).map (·.diagnostic.code) = [] := by decide +kernel
  have htree : boxes.TreeShaped := Forest.treeShaped_ofTrees _
  have hspare : nested.check.filter (·.diagnostic.code = .unreachableComponent) =
      [.about (.component "Spare") .unreachableComponent []] := by decide +kernel
  refine ⟨hkeyed, ?_, htree, hknown, fun id hid body hbody => ?_⟩
  · rw [hspare] at hreported
    obtain ⟨name, rest, rfl, hname, -⟩ := List.map_eq_cons_iff.1 hreported.symm
    have heq : name = "Spare" := Subject.component.inj (congrArg Finding.subject hname)
    exact heq ▸ ((hnames name).1 List.mem_cons_self).2
  · refine (hplaced boxes htree hknown (fun e he => ?_) id hid body hbody).1
    rw [List.map_eq_nil_iff.1 hclean] at he
    exact absurd he List.not_mem_nil

end TypeGraph

end Deployment

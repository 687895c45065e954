import Deployment.Forest.Check
import Deployment.Proofs.Forest.Links
import Deployment.Proofs.TypeGraph.Inheritance

/-!
# A descendant instead of a component

A component that descends from another can stand in for it: it has all facets, exports and children
of the other, and may be placed wherever the other may be placed below something. Instances of the
other thus stay well placed when they become instances of it, and so does what is below them
(`descendants_stand_in`). Only an instance without parent may come to stand where it should not,
since a descendant of a root component need not be one.

* `Forest.withComponent`: an instance made one of another component;
* `Forest.StandsWell`: the placement of an instance is valid.
-/

namespace Deployment

namespace Forest

variable {f : Forest} {g : TypeGraph} {id : Nat}

/-- The component of an instance. -/
def component? (f : Forest) (id : Nat) : Option String := (f.get? id).map (·.component)

/-- An instance made one of another component, its place left alone. -/
def withComponent (f : Forest) (id : Nat) (component : String) : Forest :=
  f.modifyInstance id fun body => { body with component }

/-- An instance stands where its component may be. -/
def StandsWell (f : Forest) (g : TypeGraph) (id : Nat) : Prop :=
  ∃ body, f.get? id = some body ∧ f.isWellPlaced g id body = true

instance : Decidable (f.StandsWell g id) :=
  decidable_of_iff ((f.get? id).any (f.isWellPlaced g id)) (Option.any_eq_true ..)

theorem component?_withComponent (f : Forest) (id other : Nat) (component : String) :
    (f.withComponent id component).component? other =
      if id = other then (f.component? other).map fun _ => component else f.component? other := by
  rw [component?, withComponent, get?_modifyInstance, component?]
  split
  · rw [Option.map_map, Option.map_map]
    rfl
  · rfl

theorem parent?_withComponent (f : Forest) (id other : Nat) (component : String) :
    (f.withComponent id component).parent? other = f.parent? other :=
  parent?_modifyInstance ..

/-- An instance without parent stands well if its component is a root of the graph. -/
theorem standsWell_iff_of_root (hparent : f.parent? id = none) :
    f.StandsWell g id ↔ ∃ c, f.component? id = some c ∧ c ∈ g.roots.toList := by
  simp only [StandsWell, isWellPlaced, hparent, NameSet.contains, List.contains_iff_mem, component?,
    Option.map_eq_some_iff]
  constructor
  · rintro ⟨body, hbody, hroot⟩
    exact ⟨_, ⟨body, hbody, rfl⟩, hroot⟩
  · rintro ⟨_, ⟨body, hbody, rfl⟩, hroot⟩
    exact ⟨body, hbody, hroot⟩

/-- An instance with a parent stands well if its component is an effective child of the component
    of the parent. -/
theorem standsWell_iff_of_child {parent : Nat} (hparent : f.parent? id = some parent) :
    f.StandsWell g id ↔ ∃ c p, f.component? id = some c ∧ f.component? parent = some p ∧
      c ∈ (g.effectiveChildren p).toList := by
  simp only [StandsWell, isWellPlaced, hparent, NameSet.contains, List.contains_iff_mem, component?,
    Option.map_eq_some_iff, Option.any_eq_true]
  constructor
  · rintro ⟨body, hbody, above, habove, hchild⟩
    exact ⟨_, _, ⟨body, hbody, rfl⟩, ⟨above, habove, rfl⟩, hchild⟩
  · rintro ⟨_, _, ⟨body, hbody, rfl⟩, ⟨above, habove, rfl⟩, hchild⟩
    exact ⟨body, hbody, above, habove, hchild⟩

end Forest

namespace TypeGraph

open Forest

variable {g : TypeGraph}

section Placement

variable {f : Forest} {id : Nat} {old : String} {new : Component}

/-- After a change to a descendant, every instance has its component or a descendant of it. -/
theorem component?_withComponent_or (hold : f.component? id = some old)
    (hnew : new ∈ g.descendants old) {other : Nat} {c : String}
    (hc : f.component? other = some c) :
    ∃ c', (f.withComponent id new.name).component? other = some c' ∧
      (c' = c ∨ ∃ d ∈ g.descendants c, d.name = c') := by
  rw [component?_withComponent, hc]
  by_cases h : id = other
  · subst h
    obtain rfl := Option.some.inj (hold.symm.trans hc)
    exact ⟨new.name, if_pos rfl, .inr ⟨new, hnew, rfl⟩⟩
  · exact ⟨c, if_neg h, .inl rfl⟩

/-- An instance below another one stays well placed if either is made one of a descendant. -/
theorem Keyed.standsWell_withComponent (hkeyed : g.Keyed) (hold : f.component? id = some old)
    (hnew : new ∈ g.descendants old) {other parent : Nat} (hparent : f.parent? other = some parent)
    (hother : f.StandsWell g other) : (f.withComponent id new.name).StandsWell g other := by
  obtain ⟨c, p, hc, hp, hchild⟩ := (standsWell_iff_of_child hparent).1 hother
  obtain ⟨c', hc', hcor⟩ := component?_withComponent_or hold hnew hc
  obtain ⟨p', hp', hpor⟩ := component?_withComponent_or hold hnew hp
  refine (standsWell_iff_of_child ((parent?_withComponent ..).trans hparent)).2
    ⟨c', p', hc', hp', ?_⟩
  have hbelow : c' ∈ (g.effectiveChildren p).toList := by
    rcases hcor with rfl | ⟨d, hd, rfl⟩
    · exact hchild
    · exact hkeyed.mem_effectiveChildren_of_descendants hchild hd
  rcases hpor with rfl | ⟨d, hd, rfl⟩
  · exact hbelow
  · exact effectiveChildren_subset (hkeyed.lineage_subset hd) hbelow

/-- An instance without parent stays well placed unless it is itself made one of a component that is
    no root. -/
theorem standsWell_withComponent_iff_of_root (hold : f.component? id = some old) {other : Nat}
    (hparent : f.parent? other = none) (hother : f.StandsWell g other) :
    (f.withComponent id new.name).StandsWell g other ↔
      (other = id → new.name ∈ g.roots.toList) := by
  obtain ⟨c, hc, hroot⟩ := (standsWell_iff_of_root hparent).1 hother
  rw [standsWell_iff_of_root ((parent?_withComponent ..).trans hparent), component?_withComponent]
  by_cases h : id = other
  · subst h
    rw [if_pos rfl, hold]
    simp
  · rw [if_neg h]
    exact iff_of_true ⟨c, hc, hroot⟩ fun heq => absurd heq.symm h

end Placement

/-- Whatever a component has, its descendants have: facets, exports, children. What may be placed
    below a component, its descendants may. So instances that stand well keep doing so when one of
    them is made an instance of a descendant of its component, unless this one has no parent and the
    descendant is no root. -/
theorem Keyed.descendants_stand_in (hkeyed : g.Keyed) :
    (∀ p, ∀ c ∈ g.descendants p,
      (g.allFacets p).toList ⊆ (g.allFacets c.name).toList ∧
      (∀ key, g.exportsVariable p key = true → g.exportsVariable c.name key = true) ∧
      (g.effectiveChildren p).toList ⊆ (g.effectiveChildren c.name).toList) ∧
    (∀ x, ∀ y ∈ (g.effectiveChildren x).toList, ∀ z ∈ g.descendants y,
      z.name ∈ (g.effectiveChildren x).toList) ∧
    ∀ (f : Forest) (id : Nat) (old : String) (new : Component), f.component? id = some old →
      new ∈ g.descendants old → ∀ other, f.StandsWell g other →
        ((f.withComponent id new.name).StandsWell g other ↔
          (other = id → f.parent? id = none → new.name ∈ g.roots.toList)) := by
  refine ⟨fun p c hc => ?_, fun x y hy z hz => ?_, fun f id old new hold hnew other hother => ?_⟩
  · have hlineage := hkeyed.lineage_subset hc
    exact ⟨allFacets_subset hlineage, fun key => exportsVariable_of_lineage hlineage,
      effectiveChildren_subset hlineage⟩
  · exact hkeyed.mem_effectiveChildren_of_descendants hy hz
  · cases hparent : f.parent? other with
    | none =>
      rw [standsWell_withComponent_iff_of_root hold hparent hother]
      exact ⟨fun h heq _ => h heq, fun h heq => h heq (heq ▸ hparent)⟩
    | some parent =>
      refine iff_of_true (hkeyed.standsWell_withComponent hold hnew hparent hother) ?_
      rintro rfl hnone
      exact absurd (hnone.symm.trans hparent) (Option.some_ne_none parent).symm

/-- Machines of three sizes, each extending the one before, and racks that hold the larger ones. -/
def fleet : TypeGraph :=
  withRoots {
    components := .ofList [
      ("VM", { Component.named "VM" with installer := "target", children := .ofList ["Server"] }),
      ("BigVM", { Component.named "BigVM" with base := "VM" }),
      ("HugeVM", { Component.named "HugeVM" with base := "BigVM" }),
      ("Rack", { Component.named "Rack" with installer := "target", children := .ofList ["BigVM"] }),
      ("Server", { Component.named "Server" with installer := "script" })]
    facets := .empty
    roots := .empty }

/-- A machine in a rack, with a server. -/
def racked : Forest :=
  .ofTrees [.node (.named "rack" "Rack")
    [.node (.named "vm" "BigVM") [.node (.named "server" "Server") []]]]

/-- A machine in a rack may grow, and its server stays well placed, as it does itself. -/
theorem descendants_stand_in_racked :
    fleet.Keyed ∧ ∃ huge ∈ fleet.descendants "BigVM",
      (fleet.effectiveChildren "BigVM").toList ⊆ (fleet.effectiveChildren huge.name).toList ∧
      huge.name ∈ (fleet.effectiveChildren "Rack").toList ∧
      (racked.withComponent 1 huge.name).StandsWell fleet 1 ∧
      (racked.withComponent 1 huge.name).StandsWell fleet 2 := by
  have hkeyed : fleet.Keyed := by decide +kernel
  obtain ⟨hhas, hadmitted, hplaced⟩ := hkeyed.descendants_stand_in
  have hhuge : (fleet.descendants "BigVM").head?.map (·.name) = some "HugeVM" := by decide +kernel
  obtain ⟨huge, hhead, -⟩ := Option.map_eq_some_iff.1 hhuge
  have hmem := List.mem_of_mem_head? hhead
  have hparent : ∀ id ∈ [1, 2], racked.parent? id ≠ none := by decide +kernel
  have hstands : ∀ id ∈ [1, 2], (racked.withComponent 1 huge.name).StandsWell fleet id := by
    intro id hid
    have hbefore : ∀ id ∈ [1, 2], racked.StandsWell fleet id := by decide +kernel
    exact (hplaced racked 1 "BigVM" huge (by decide +kernel) hmem id (hbefore id hid)).2
      fun heq hnone => absurd (heq ▸ hnone) (hparent 1 List.mem_cons_self)
  refine ⟨hkeyed, huge, hmem, (hhas "BigVM" huge hmem).2.2, ?_, hstands 1 (by decide),
    hstands 2 (by decide)⟩
  exact hadmitted "Rack" "BigVM" (by decide +kernel) huge hmem

/-- A machine without parent. -/
def standalone : Forest := .ofTrees [.node (.named "vm" "VM") []]

/-- A machine without parent may not become a larger one, which belongs into a rack. -/
theorem standalone_misplaced :
    fleet.Keyed ∧ standalone.component? 0 = some "VM" ∧
      "BigVM" ∈ (fleet.descendants "VM").map (·.name) ∧
      standalone.StandsWell fleet 0 ∧ standalone.check fleet = [] ∧
      ¬(standalone.withComponent 0 "BigVM").StandsWell fleet 0 ∧
      ((standalone.withComponent 0 "BigVM").check fleet).map (·.diagnostic.code) =
        [.invalidInstanceParent] := by
  decide +kernel

end TypeGraph

end Deployment

import Deployment.Proofs.Catalogue.Resolution

/-!
# What is left of a type

To drop mentions is to take them from the types that have them, and to change nothing else about
these types: their names, installers and variables stay, and so does what they mention otherwise, in
its order (`component?_dropAll`, `facet?_dropAll`).

* `Component.without`, `Facet.without`: a type without some of its mentions;
* `exists_left`: what resolution leaves of the types of a catalogue, each loss with its report.
-/

namespace Deployment

/-! ### Types without some of their mentions -/

namespace NameSet

/-- The names of a set that pass a test, in their order. -/
def keep (s : NameSet) (p : String → Bool) : NameSet := ⟨s.toList.filter p, s.nodup.filter p⟩

theorem keep_congr {s : NameSet} {p q : String → Bool} (h : ∀ n ∈ s.toList, p n = q n) :
    s.keep p = s.keep q := by
  simp only [keep, List.filter_congr h]

theorem keep_eq_self {s : NameSet} {p : String → Bool} (h : ∀ n ∈ s.toList, p n = true) :
    s.keep p = s := by
  simp only [keep, List.filter_eq_self.2 h]

theorem keep_keep (s : NameSet) (p q : String → Bool) :
    (s.keep p).keep q = s.keep fun n => p n && q n := by
  simp only [keep, List.filter_filter, Bool.and_comm]

theorem erase_eq_keep (s : NameSet) (name : String) : s.erase name = s.keep (· != name) := by
  simp only [erase, keep, s.nodup.erase_eq_filter]

end NameSet

/-- Whether what a type mentions in some way is still mentioned when some mentions are lost. -/
def Mention.isKept (lost : List Mention) (owner : String) (bond : Bond) (target : String) : Bool :=
  !lost.contains ⟨owner, bond, target⟩

/-- The component of a name, without those of its mentions that are lost. -/
def Component.without (lost : List Mention) (name : String) (c : Component) : Component :=
  { c with
    base := c.base.filter (Mention.isKept lost name .extendsComponent)
    facets := c.facets.keep (Mention.isKept lost name .carries)
    children := c.children.keep (Mention.isKept lost name .componentChild) }

/-- The facet of a name, without those of its mentions that are lost. -/
def Facet.without (lost : List Mention) (name : String) (f : Facet) : Facet :=
  { f with
    bases := f.bases.keep (Mention.isKept lost name .extendsFacet)
    children := f.children.keep (Mention.isKept lost name .facetChild) }

namespace Mention

variable {m : Mention} {lost : List Mention} {owner : String} {bond : Bond} {target : String}

theorem isKept_iff : isKept lost owner bond target = true ↔ ⟨owner, bond, target⟩ ∉ lost := by
  simp [isKept]

theorem isKept_cons (m : Mention) (lost : List Mention) (owner : String) (bond : Bond) :
    isKept (m :: lost) owner bond = fun target =>
      isKept [m] owner bond target && isKept lost owner bond target := by
  funext target
  simp [isKept]

/-- Mentions of one kind are all kept when one of another type or another kind is lost. -/
theorem isKept_of_ne (h : m.owner ≠ owner ∨ m.bond ≠ bond) (target : String) :
    isKept [m] owner bond target = true := by
  rw [isKept_iff, List.mem_singleton]
  rintro rfl
  exact h.elim (· rfl) (· rfl)

theorem keep_isKept_of_ne (h : m.owner ≠ owner ∨ m.bond ≠ bond) (s : NameSet) :
    s.keep (isKept [m] owner bond) = s :=
  NameSet.keep_eq_self fun n _ => isKept_of_ne h n

theorem filter_isKept_of_ne (h : m.owner ≠ owner ∨ m.bond ≠ bond) (base : Option String) :
    base.filter (isKept [m] owner bond) = base := by
  cases base with
  | none => rfl
  | some n => exact Option.filter_some_pos (isKept_of_ne h n)

theorem isKept_self (owner : String) (bond : Bond) (target : String) :
    isKept [⟨owner, bond, target⟩] owner bond = (· != target) := by
  funext n
  rw [Bool.eq_iff_iff, isKept_iff]
  simp [bne_iff_ne]

/-- What a component mentions is held wherever the component is. -/
theorem HeldBy.of_component {component? : String → Option Component}
    {facet? : String → Option Facet} {c : Component}
    (h : m.HeldBy (fun _ => some c) fun _ => none) (hc : component? m.owner = some c) :
    m.HeldBy component? facet? := by
  obtain ⟨owner, bond, target⟩ := m
  cases bond with
  | extendsComponent | carries | componentChild =>
    obtain ⟨_, heq, htarget⟩ := h
    cases heq
    exact ⟨c, hc, htarget⟩
  | extendsFacet | facetChild => exact nomatch h.choose_spec.1

/-- What a facet mentions is held wherever the facet is. -/
theorem HeldBy.of_facet {component? : String → Option Component}
    {facet? : String → Option Facet} {f : Facet}
    (h : m.HeldBy (fun _ => none) fun _ => some f) (hf : facet? m.owner = some f) :
    m.HeldBy component? facet? := by
  obtain ⟨owner, bond, target⟩ := m
  cases bond with
  | extendsFacet | facetChild =>
    obtain ⟨_, heq, htarget⟩ := h
    cases heq
    exact ⟨f, hf, htarget⟩
  | extendsComponent | carries | componentChild => exact nomatch h.choose_spec.1

end Mention

open Mention

variable {lost lost' : List Mention} {name : String}

/-- What is left of a component depends on which of its mentions are lost. -/
theorem Component.without_congr {c : Component}
    (h : ∀ m : Mention, m.owner = name → m.HeldBy (fun _ => some c) (fun _ => none) →
      (m ∈ lost ↔ m ∈ lost')) : c.without lost name = c.without lost' name := by
  have hkept : ∀ bond target, HeldBy (fun _ => some c) (fun _ => none) ⟨name, bond, target⟩ →
      isKept lost name bond target = isKept lost' name bond target := by
    intro bond target hheld
    rw [Bool.eq_iff_iff, isKept_iff, isKept_iff, h _ rfl hheld]
  have hbase : c.base.filter (isKept lost name .extendsComponent) =
      c.base.filter (isKept lost' name .extendsComponent) := by
    cases hc : c.base with
    | none => rfl
    | some target =>
      rw [Option.filter_some, Option.filter_some, hkept .extendsComponent target ⟨c, rfl, hc⟩]
  have hfacets : c.facets.keep (isKept lost name .carries) =
      c.facets.keep (isKept lost' name .carries) :=
    NameSet.keep_congr fun _ htarget => hkept _ _ ⟨c, rfl, htarget⟩
  have hchildren : c.children.keep (isKept lost name .componentChild) =
      c.children.keep (isKept lost' name .componentChild) :=
    NameSet.keep_congr fun _ htarget => hkept _ _ ⟨c, rfl, htarget⟩
  rw [without, without, hbase, hfacets, hchildren]

/-- What is left of a facet depends on which of its mentions are lost. -/
theorem Facet.without_congr {f : Facet}
    (h : ∀ m : Mention, m.owner = name → m.HeldBy (fun _ => none) (fun _ => some f) →
      (m ∈ lost ↔ m ∈ lost')) : f.without lost name = f.without lost' name := by
  have hkept : ∀ bond target, HeldBy (fun _ => none) (fun _ => some f) ⟨name, bond, target⟩ →
      isKept lost name bond target = isKept lost' name bond target := by
    intro bond target hheld
    rw [Bool.eq_iff_iff, isKept_iff, isKept_iff, h _ rfl hheld]
  have hbases : f.bases.keep (isKept lost name .extendsFacet) =
      f.bases.keep (isKept lost' name .extendsFacet) :=
    NameSet.keep_congr fun _ htarget => hkept _ _ ⟨f, rfl, htarget⟩
  have hchildren : f.children.keep (isKept lost name .facetChild) =
      f.children.keep (isKept lost' name .facetChild) :=
    NameSet.keep_congr fun _ htarget => hkept _ _ ⟨f, rfl, htarget⟩
  rw [without, without, hbases, hchildren]

theorem Component.without_nil (name : String) : Component.without [] name = id := by
  funext c
  have hkept : ∀ bond target, isKept [] name bond target = true := fun _ _ => rfl
  have hbase : c.base.filter (isKept [] name .extendsComponent) = c.base := by
    cases c.base <;> rfl
  rw [without, hbase, NameSet.keep_eq_self fun _ _ => hkept _ _,
    NameSet.keep_eq_self fun _ _ => hkept _ _]
  rfl

theorem Facet.without_nil (name : String) : Facet.without [] name = id := by
  funext f
  have hkept : ∀ bond target, isKept [] name bond target = true := fun _ _ => rfl
  rw [without, NameSet.keep_eq_self fun _ _ => hkept _ _, NameSet.keep_eq_self fun _ _ => hkept _ _]
  rfl

/-- To lose one mention and then others is to lose all of them. -/
theorem Component.without_cons (m : Mention) (lost : List Mention) (name : String) :
    Component.without (m :: lost) name =
      Component.without lost name ∘ Component.without [m] name := by
  funext c
  simp only [Function.comp_apply, without, NameSet.keep_keep, Option.filter_filter,
    isKept_cons m lost]

theorem Facet.without_cons (m : Mention) (lost : List Mention) (name : String) :
    Facet.without (m :: lost) name =
      Facet.without lost name ∘ Facet.without [m] name := by
  funext f
  simp only [Function.comp_apply, without, NameSet.keep_keep, isKept_cons m lost]

/-! ### Types without one mention -/

namespace Component

variable {name : String} {m : Mention}

theorem without_base (c : Component) (name target : String) :
    c.without [⟨name, .extendsComponent, target⟩] name =
      if c.base = some target then { c with base := none } else c := by
  have hbase : c.base.filter (· != target) = if c.base = some target then none else c.base := by
    cases c.base <;> simp [Option.filter]
  rw [without, isKept_self, hbase, keep_isKept_of_ne (.inr Bond.noConfusion),
    keep_isKept_of_ne (.inr Bond.noConfusion)]
  split <;> rfl

theorem without_facet (c : Component) (name target : String) :
    c.without [⟨name, .carries, target⟩] name = { c with facets := c.facets.erase target } := by
  rw [without, isKept_self, ← NameSet.erase_eq_keep, filter_isKept_of_ne (.inr Bond.noConfusion),
    keep_isKept_of_ne (.inr Bond.noConfusion)]

theorem without_child (c : Component) (name target : String) :
    c.without [⟨name, .componentChild, target⟩] name =
      { c with children := c.children.erase target } := by
  rw [without, isKept_self, ← NameSet.erase_eq_keep, filter_isKept_of_ne (.inr Bond.noConfusion),
    keep_isKept_of_ne (.inr Bond.noConfusion)]

/-- A component loses nothing with the mention of another type. -/
theorem without_of_other (h : m.owner ≠ name ∨ m.bond = .extendsFacet ∨ m.bond = .facetChild) :
    Component.without [m] name = id := by
  have hbond : ∀ bond, bond ≠ .extendsFacet → bond ≠ .facetChild →
      m.owner ≠ name ∨ m.bond ≠ bond := by
    intro bond hbases hchildren
    exact h.imp_right fun hm hbond => hm.elim (hbases <| hbond.symm.trans ·)
      (hchildren <| hbond.symm.trans ·)
  funext c
  rw [without, filter_isKept_of_ne (hbond _ Bond.noConfusion Bond.noConfusion),
    keep_isKept_of_ne (hbond _ Bond.noConfusion Bond.noConfusion),
    keep_isKept_of_ne (hbond _ Bond.noConfusion Bond.noConfusion)]
  rfl

end Component

namespace Facet

variable {name : String} {m : Mention}

theorem without_base (f : Facet) (name target : String) :
    f.without [⟨name, .extendsFacet, target⟩] name = { f with bases := f.bases.erase target } := by
  rw [without, isKept_self, ← NameSet.erase_eq_keep, keep_isKept_of_ne (.inr Bond.noConfusion)]

theorem without_child (f : Facet) (name target : String) :
    f.without [⟨name, .facetChild, target⟩] name =
      { f with children := f.children.erase target } := by
  rw [without, isKept_self, ← NameSet.erase_eq_keep, keep_isKept_of_ne (.inr Bond.noConfusion)]

/-- A facet loses nothing with the mention of another type. -/
theorem without_of_other (h : m.owner ≠ name ∨ (m.bond ≠ .extendsFacet ∧ m.bond ≠ .facetChild)) :
    Facet.without [m] name = id := by
  funext f
  rw [without, keep_isKept_of_ne (h.imp_right And.left), keep_isKept_of_ne (h.imp_right And.right)]
  rfl

end Facet

namespace Catalogue

variable {c : Catalogue}

/-! ### One mention dropped, and several -/

/-- To drop a mention is to take it from what the components mention. -/
theorem component?_dropMention (m : Mention) (name : String) :
    (c.dropMention m).component? name = (c.component? name).map (Component.without [m] name) := by
  obtain ⟨owner, bond, target⟩ := m
  have hother : owner ≠ name ∨ bond = .extendsFacet ∨ bond = .facetChild →
      (c.component? name).map (Component.without [⟨owner, bond, target⟩] name) =
        c.component? name := by
    intro h
    rw [Component.without_of_other h, Option.map_id_fun, id_eq]
  have hmodify : ∀ f : Component → Component,
      (∀ model, f model = model.without [⟨name, bond, target⟩] name) →
        (c.modifyComponent owner f).component? name =
          (c.component? name).map (Component.without [⟨owner, bond, target⟩] name) := by
    intro f hf
    rw [component?_modifyComponent]
    split
    · next howner =>
      subst howner
      rw [funext hf]
    · next howner => exact (hother (.inl (Ne.symm howner))).symm
  cases bond with
  | extendsComponent => exact hmodify _ fun model => (model.without_base name target).symm
  | carries => exact hmodify _ fun model => (model.without_facet name target).symm
  | componentChild => exact hmodify _ fun model => (model.without_child name target).symm
  | extendsFacet => exact (hother (.inr (.inl rfl))).symm
  | facetChild => exact (hother (.inr (.inr rfl))).symm

/-- To drop a mention is to take it from what the facets mention. -/
theorem facet?_dropMention (m : Mention) (name : String) :
    (c.dropMention m).facet? name = (c.facet? name).map (Facet.without [m] name) := by
  obtain ⟨owner, bond, target⟩ := m
  have hother : owner ≠ name ∨ (bond ≠ .extendsFacet ∧ bond ≠ .facetChild) →
      (c.facet? name).map (Facet.without [⟨owner, bond, target⟩] name) = c.facet? name := by
    intro h
    rw [Facet.without_of_other h, Option.map_id_fun, id_eq]
  have hmodify : ∀ f : Facet → Facet,
      (∀ model, f model = model.without [⟨name, bond, target⟩] name) →
        (c.modifyFacet owner f).facet? name =
          (c.facet? name).map (Facet.without [⟨owner, bond, target⟩] name) := by
    intro f hf
    rw [facet?_modifyFacet]
    split
    · next howner =>
      subst howner
      rw [funext hf]
    · next howner => exact (hother (.inl (Ne.symm howner))).symm
  cases bond with
  | extendsFacet => exact hmodify _ fun model => (model.without_base name target).symm
  | facetChild => exact hmodify _ fun model => (model.without_child name target).symm
  | extendsComponent | carries | componentChild =>
    exact (hother (.inr ⟨Bond.noConfusion, Bond.noConfusion⟩)).symm

theorem component?_dropAll (ms : List Mention) (name : String) :
    (c.dropAll ms).component? name = (c.component? name).map (Component.without ms name) := by
  induction ms generalizing c with
  | nil => rw [Component.without_nil, Option.map_id_fun, id_eq, dropAll, List.foldl_nil]
  | cons m ms ih =>
    rw [Component.without_cons, ← Option.map_map, ← component?_dropMention]
    exact ih

theorem facet?_dropAll (ms : List Mention) (name : String) :
    (c.dropAll ms).facet? name = (c.facet? name).map (Facet.without ms name) := by
  induction ms generalizing c with
  | nil => rw [Facet.without_nil, Option.map_id_fun, id_eq, dropAll, List.foldl_nil]
  | cons m ms ih =>
    rw [Facet.without_cons, ← Option.map_map, ← facet?_dropMention]
    exact ih

/-! ### Resolution -/

/-- What resolution leaves of the types: each without some of its mentions, whose loss is
    reported. -/
theorem exists_left (c : Catalogue) :
    ∃ lost : List Mention, List.Forall₂ (Explains c.component? c.facet?) c.resolve.2 lost ∧
      (∀ name, c.resolve.1.component? name =
        (c.component? name).map (Component.without lost name)) ∧
      ∀ name, c.resolve.1.facet? name = (c.facet? name).map (Facet.without lost name) := by
  obtain ⟨lost, -, hkept, hgone, hreports⟩ := c.exists_lost
  -- More was dropped than held, but of what was held no more than what is lost.
  have hlost : ∀ m, c.Holds m →
      (m ∈ c.danglingMentions ++ c.withoutDangling.1.closingMentions ↔ m ∈ lost) := by
    intro m hm
    have hleft : c.resolve.1.Holds m ↔
        m ∉ c.danglingMentions ++ c.withoutDangling.1.closingMentions := by
      rw [resolve_eq, holds_dropAll, and_iff_right hm]
    rw [← not_iff_not, ← hleft]
    exact ⟨fun h hm => hgone m hm h, ((hkept m).1 hm).resolve_right⟩
  refine ⟨lost, hreports, fun name => ?_, fun name => ?_⟩
  · rw [resolve_eq, component?_dropAll]
    refine Option.map_congr fun model hmodel => Component.without_congr fun m howner hheld => ?_
    refine hlost m (hheld.of_component ?_)
    rw [howner, hmodel]
  · rw [resolve_eq, facet?_dropAll]
    refine Option.map_congr fun model hmodel => Facet.without_congr fun m howner hheld => ?_
    refine hlost m (hheld.of_facet ?_)
    rw [howner, hmodel]

end Catalogue

end Deployment

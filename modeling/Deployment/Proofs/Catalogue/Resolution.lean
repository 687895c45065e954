import Deployment.Proofs.Catalogue.Relations

/-!
# What resolution loses

Resolution drops mentions in two steps: those of undeclared names, and those that close a cycle
of what the first step leaves. Every mention that is lost is reported, and the reports are of
nothing else.

* `Mention.Dangles`: a mention of an undeclared name;
* `Explains`: a report tells of the loss of a mention;
* `not_dangles_of_holds_resolve`, `acyclic_of_relates`: what is left mentions declared names only,
  and has no cycle;
* `exists_lost`: the mentions lost, each with its report.
-/

namespace Deployment

/-- The kinds of the mentions that may close a cycle with one of a given kind. -/
def Bond.kin : Bond → List Bond
  | .extendsComponent => [.extendsComponent]
  | .carries => []
  | .componentChild => [.componentChild, .facetChild]
  | .extendsFacet => [.extendsFacet]
  | .facetChild => [.componentChild, .facetChild]

/-- The code for a cycle that a mention closes. -/
def Bond.cycleCode? : Bond → Option Code
  | .extendsComponent => some .cycleInComponentsInheritance
  | .carries => none
  | .componentChild => some .cycleInChildren
  | .extendsFacet => some .cycleInFacetsInheritance
  | .facetChild => some .cycleInChildren

/-- A mention of a name that is not declared as what it should be. -/
def Mention.Dangles (component? : String → Option Component) (facet? : String → Option Facet)
    (m : Mention) : Prop :=
  match m.bond with
  | .extendsComponent => component? m.target = none
  | .carries => facet? m.target = none
  | .componentChild => component? m.target = none ∧ facet? m.target = none
  | .extendsFacet => facet? m.target = none
  | .facetChild => component? m.target = none ∧ facet? m.target = none

/-- A report tells of the loss of a mention among some components and facets: either the name
    mentioned is not declared, or the mention is the last edge of the reported cycle. -/
inductive Explains (component? : String → Option Component) (facet? : String → Option Facet) :
    Diagnostic → Mention → Prop
  | dangling {r : Reference} :
      r.mention.Dangles component? facet? → Explains component? facet? r.report r.mention
  | closing {m : Mention} {cycle : Cycle} {code : Code} {site : Site} {subject : Detail} :
      m.bond.cycleCode? = some code → m.edge = (cycle.last, cycle.start) →
      (cycle.names.IsChain fun a b =>
        ∃ bond ∈ m.bond.kin, Mention.HeldBy component? facet? ⟨a, bond, b⟩) →
      subject = ⟨.component, cycle.start⟩ ∨ subject = ⟨.facet, cycle.start⟩ →
      Explains component? facet? (.found site code [subject, .cycle cycle.names]) m

namespace Catalogue

variable {c : Catalogue}

/-! ### Undeclared names -/

theorem component?_eq_none_iff {name : String} :
    c.component? name = none ↔ c.components.contains name = false := by
  rw [component?, Option.map_eq_none_iff, Table.contains, Option.isSome_eq_false_iff,
    Option.isNone_iff_eq_none]

theorem facet?_eq_none_iff {name : String} :
    c.facet? name = none ↔ c.facets.contains name = false := by
  rw [facet?, Option.map_eq_none_iff, Table.contains, Option.isSome_eq_false_iff,
    Option.isNone_iff_eq_none]

theorem isDeclared_eq_false_iff {r : Reference} :
    c.isDeclared r = false ↔ r.mention.Dangles c.component? c.facet? := by
  obtain ⟨owner, bond, target, site⟩ := r
  cases bond <;>
    simp [isDeclared, Mention.Dangles, Reference.mention, component?_eq_none_iff,
      facet?_eq_none_iff, hasType]

/-- Whether a name is declared does not change when mentions are dropped. -/
theorem dangles_dropAll (ms : List Mention) (m : Mention) :
    m.Dangles (c.dropAll ms).component? (c.dropAll ms).facet? ↔
      m.Dangles c.component? c.facet? := by
  obtain ⟨hcomponents, hfacets⟩ := c.keys_dropAll ms
  have hcomponent : ∀ name, (c.dropAll ms).component? name = none ↔ c.component? name = none := by
    intro name
    rw [component?, component?, Option.map_eq_none_iff, Option.map_eq_none_iff,
      Table.get?_eq_none_iff, Table.get?_eq_none_iff, hcomponents]
  have hfacet : ∀ name, (c.dropAll ms).facet? name = none ↔ c.facet? name = none := by
    intro name
    rw [facet?, facet?, Option.map_eq_none_iff, Option.map_eq_none_iff,
      Table.get?_eq_none_iff, Table.get?_eq_none_iff, hfacets]
  obtain ⟨owner, bond, target⟩ := m
  cases bond <;> simp [Mention.Dangles, hcomponent, hfacet]

/-- The mentions of undeclared names, in order. -/
def danglingMentions (c : Catalogue) : List Mention := c.dangling.map Reference.mention

theorem withoutDangling_eq (c : Catalogue) :
    c.withoutDangling.1 = c.dropAll c.danglingMentions := by
  rw [danglingMentions, dropAll, List.foldl_map]
  rfl

theorem mem_danglingMentions {m : Mention} :
    m ∈ c.danglingMentions ↔ c.Holds m ∧ m.Dangles c.component? c.facet? := by
  rw [danglingMentions, dangling, List.mem_map, ← mem_mentions_iff, mentions, List.mem_map]
  constructor
  · rintro ⟨r, hr, rfl⟩
    obtain ⟨hmem, hdeclared⟩ := List.mem_filter.1 hr
    refine ⟨⟨r, hmem, rfl⟩, isDeclared_eq_false_iff.1 (by simpa using hdeclared)⟩
  · rintro ⟨⟨r, hr, rfl⟩, hdangles⟩
    refine ⟨r, List.mem_filter.2 ⟨hr, ?_⟩, rfl⟩
    rw [isDeclared_eq_false_iff.2 hdangles]
    rfl

theorem nodup_danglingMentions (c : Catalogue) : c.danglingMentions.Nodup :=
  c.nodup_mentions.sublist (List.filter_sublist.map _)

/-- What the first step leaves mentions declared names only. -/
theorem holds_withoutDangling {m : Mention} :
    c.withoutDangling.1.Holds m ↔ c.Holds m ∧ ¬m.Dangles c.component? c.facet? := by
  rw [withoutDangling_eq, holds_dropAll, mem_danglingMentions]
  constructor
  · exact fun ⟨hholds, hnot⟩ => ⟨hholds, fun hd => hnot ⟨hholds, hd⟩⟩
  · exact fun ⟨hholds, hnot⟩ => ⟨hholds, fun hd => hnot hd.2⟩

/-! ### Edges that close cycles -/

/-- The mentions, of the given kinds, between the ends of the last edges of some cycles. -/
def closings (bonds : List Bond) (cycles : List Cycle) : List Mention :=
  cycles.flatMap fun cycle => bonds.map fun bond => ⟨cycle.last, bond, cycle.start⟩

theorem dropClosing_eq (c : Catalogue) (bonds : List Bond) (cycles : List Cycle) :
    c.dropClosing bonds cycles = c.dropAll (closings bonds cycles) := by
  induction cycles generalizing c with
  | nil => rfl
  | cons cycle cycles ih =>
    rw [closings, List.flatMap_cons, dropAll, List.foldl_append, List.foldl_map]
    exact ih _

theorem mem_closings {bonds : List Bond} {cycles : List Cycle} {m : Mention} :
    m ∈ closings bonds cycles ↔ m.bond ∈ bonds ∧ m.edge ∈ cycles.map Cycle.edge := by
  obtain ⟨owner, bond, target⟩ := m
  simp only [closings, List.mem_flatMap, List.mem_map, Mention.edge, Cycle.edge, Mention.mk.injEq,
    Prod.mk.injEq]
  constructor
  · rintro ⟨cycle, hcycle, bond', hbond, rfl, rfl, rfl⟩
    exact ⟨hbond, cycle, hcycle, rfl, rfl⟩
  · rintro ⟨hbond, cycle, hcycle, rfl, rfl⟩
    exact ⟨cycle, hcycle, bond, hbond, rfl, rfl, rfl⟩

/-- The mentions that close cycles. -/
def closingMentions (c : Catalogue) : List Mention :=
  closings [.extendsComponent] c.componentInheritance.breakCycles.2 ++
    closings [.extendsFacet] c.facetInheritance.breakCycles.2 ++
    closings [.componentChild, .facetChild] c.containment.breakCycles.2

theorem withoutCycles_eq (c : Catalogue) : c.withoutCycles.1 = c.dropAll c.closingMentions := by
  rw [closingMentions, dropAll, List.foldl_append, List.foldl_append]
  change _ = ((c.dropAll _).dropAll _).dropAll _
  rw [← dropClosing_eq, ← dropClosing_eq, ← dropClosing_eq]
  rfl

/-- What resolution drops, in order. -/
theorem resolve_eq (c : Catalogue) :
    c.resolve.1 = c.dropAll (c.danglingMentions ++ c.withoutDangling.1.closingMentions) := by
  rw [dropAll, List.foldl_append]
  change _ = (c.dropAll _).dropAll _
  rw [← withoutDangling_eq, ← withoutCycles_eq]
  rfl

theorem holds_resolve {m : Mention} :
    c.resolve.1.Holds m ↔
      c.withoutDangling.1.Holds m ∧ m ∉ c.withoutDangling.1.closingMentions := by
  have hresolve : c.resolve.1 = c.withoutDangling.1.withoutCycles.1 := rfl
  rw [hresolve, withoutCycles_eq, holds_dropAll]

/-- Resolution keeps every type. -/
theorem keys_resolve (c : Catalogue) :
    c.resolve.1.components.keys = c.components.keys ∧ c.resolve.1.facets.keys = c.facets.keys := by
  rw [resolve_eq]
  exact c.keys_dropAll _

/-- What is left mentions declared names only. -/
theorem not_dangles_of_holds_resolve {m : Mention} (h : c.resolve.1.Holds m) :
    ¬m.Dangles c.resolve.1.component? c.resolve.1.facet? := by
  rw [resolve_eq, dangles_dropAll]
  exact (holds_withoutDangling.1 (holds_resolve.1 h).1).2

/-- What is left has no cycle among mentions of a relation that is searched. -/
theorem acyclic_of_relates {bonds : List Bond} {r : Relation}
    (hrelates : c.withoutDangling.1.Relates bonds r)
    (hclosings : closings bonds r.breakCycles.2 ⊆ c.withoutDangling.1.closingMentions)
    (x : String) :
    ¬Relation.TransGen (fun a b => ∃ bond ∈ bonds, c.resolve.1.Holds ⟨a, bond, b⟩) x x := by
  intro hcycle
  refine hrelates.acyclic x (Relation.TransGen.mono (fun a b => ?_) x x hcycle)
  rintro ⟨bond, hbond, hholds⟩
  obtain ⟨hleft, hnot⟩ := holds_resolve.1 hholds
  exact ⟨bond, hbond, hleft, fun hedge => hnot (hclosings (mem_closings.2 ⟨hbond, hedge⟩))⟩

theorem componentInheritance_acyclic (c : Catalogue) (x : String) :
    ¬Relation.TransGen (fun a b => ∃ bond ∈ [Bond.extendsComponent],
      c.resolve.1.Holds ⟨a, bond, b⟩) x x :=
  acyclic_of_relates (relates_componentInheritance _)
    (fun _ hm => List.mem_append_left _ (List.mem_append_left _ hm)) x

theorem facetInheritance_acyclic (c : Catalogue) (x : String) :
    ¬Relation.TransGen (fun a b => ∃ bond ∈ [Bond.extendsFacet],
      c.resolve.1.Holds ⟨a, bond, b⟩) x x :=
  acyclic_of_relates (relates_facetInheritance _)
    (fun _ hm => List.mem_append_left _ (List.mem_append_right _ hm)) x

theorem containment_acyclic (c : Catalogue) (x : String) :
    ¬Relation.TransGen (fun a b => ∃ bond ∈ [Bond.componentChild, Bond.facetChild],
      c.resolve.1.Holds ⟨a, bond, b⟩) x x :=
  acyclic_of_relates (relates_containment _) (fun _ hm => List.mem_append_right _ hm) x

/-! ### Reports -/

/-- A cycle of a type that is declared is reported. -/
theorem reportCycle_eq {code : Code} {cycle : Cycle}
    (h : c.component? cycle.start ≠ none ∨ c.facet? cycle.start ≠ none) :
    ∃ site subject, c.reportCycle code cycle = [.found site code [subject, .cycle cycle.names]] ∧
      (subject = ⟨.component, cycle.start⟩ ∨ subject = ⟨.facet, cycle.start⟩) := by
  rw [component?, facet?, ne_eq, ne_eq, Option.map_eq_none_iff, Option.map_eq_none_iff] at h
  rw [reportCycle]
  split
  · exact ⟨_, _, rfl, .inl rfl⟩
  · exact ⟨_, _, rfl, .inr rfl⟩
  · next hcomponent hfacet => exact absurd h (by simp [hcomponent, hfacet])

theorem reportFacetCycle_eq {cycle : Cycle} (h : c.facet? cycle.start ≠ none) :
    ∃ site subject, c.reportFacetCycle cycle =
        [.found site .cycleInFacetsInheritance [subject, .cycle cycle.names]] ∧
      (subject = ⟨.component, cycle.start⟩ ∨ subject = ⟨.facet, cycle.start⟩) := by
  rw [facet?, ne_eq, Option.map_eq_none_iff] at h
  rw [reportFacetCycle]
  split
  · exact ⟨_, _, rfl, .inr rfl⟩
  · next hfacet => exact absurd hfacet h

/-- A cycle that is closed by a mention of the given kinds has one report, about the type it starts
    from. -/
def Reports (c : Catalogue) (bonds : List Bond) (code : Code) (report : Cycle → List Diagnostic) :
    Prop :=
  ∀ cycle, ∀ bond ∈ bonds, c.Holds ⟨cycle.last, bond, cycle.start⟩ →
    ∃ site subject, report cycle = [.found site code [subject, .cycle cycle.names]] ∧
      (subject = ⟨.component, cycle.start⟩ ∨ subject = ⟨.facet, cycle.start⟩)

/-- Every name mentioned is declared as what it should be. -/
def Closed (c : Catalogue) : Prop := ∀ m, c.Holds m → ¬m.Dangles c.component? c.facet?

theorem Closed.reports_components (h : c.Closed) :
    c.Reports [.extendsComponent] .cycleInComponentsInheritance
      (c.reportCycle .cycleInComponentsInheritance) := by
  intro cycle bond hbond hholds
  rw [List.mem_singleton] at hbond
  subst hbond
  exact reportCycle_eq (.inl (h _ hholds))

theorem Closed.reports_facets (h : c.Closed) :
    c.Reports [.extendsFacet] .cycleInFacetsInheritance c.reportFacetCycle := by
  intro cycle bond hbond hholds
  rw [List.mem_singleton] at hbond
  subst hbond
  exact reportFacetCycle_eq (h _ hholds)

theorem Closed.reports_children (h : c.Closed) :
    c.Reports [.componentChild, .facetChild] .cycleInChildren (c.reportCycle .cycleInChildren) := by
  intro cycle bond hbond hholds
  refine reportCycle_eq (not_and_or.1 ?_)
  rcases List.mem_pair.1 hbond with rfl | rfl
  · exact h _ hholds
  · exact h _ hholds

/-- Cycles with one report each are reported one by one. -/
theorem forall₂_flatMap {E : Diagnostic → Mention → Prop} {report : Cycle → List Diagnostic}
    {lost : List Mention} {cycles : List Cycle}
    (hedges : lost.map Mention.edge = cycles.map Cycle.edge)
    (h : ∀ cycle ∈ cycles, ∀ m ∈ lost, m.edge = cycle.edge → ∃ d, report cycle = [d] ∧ E d m) :
    List.Forall₂ E (cycles.flatMap report) lost := by
  induction cycles generalizing lost with
  | nil =>
    rw [List.map_nil, List.map_eq_nil_iff] at hedges
    rw [hedges]
    exact .nil
  | cons cycle cycles ih =>
    obtain ⟨m, lost, rfl, hedge, hrest⟩ := List.map_eq_cons_iff.1 hedges
    obtain ⟨d, hd, hexplains⟩ := h cycle List.mem_cons_self m List.mem_cons_self hedge
    rw [List.flatMap_cons, hd]
    refine .cons hexplains (ih hrest fun cycle' hcycle m' hm => ?_)
    exact h cycle' (List.mem_cons_of_mem _ hcycle) m' (List.mem_cons_of_mem _ hm)

/-- The mentions that a relation of declared types loses to cycles, each with its report. -/
theorem exists_lost_of_relates {bonds : List Bond} {r : Relation} {code : Code}
    {report : Cycle → List Diagnostic} {component? : String → Option Component}
    {facet? : String → Option Facet} (hrelates : c.Relates bonds r) (hbonds : bonds.Nodup)
    (hheld : ∀ m, c.Holds m → m.HeldBy component? facet?)
    (hkin : ∀ bond ∈ bonds, bond.kin = bonds ∧ bond.cycleCode? = some code)
    (hreport : c.Reports bonds code report) :
    ∃ lost : List Mention, lost.Nodup ∧
      (∀ m, m ∈ lost ↔ c.Holds m ∧ m ∈ closings bonds r.breakCycles.2) ∧
      List.Forall₂ (Explains component? facet?) (r.breakCycles.2.flatMap report) lost := by
  obtain ⟨lost, hnodup, hedges, hmem⟩ := hrelates.exists_lost hbonds
  refine ⟨lost, hnodup, fun m => by rw [hmem, mem_closings], ?_⟩
  refine forall₂_flatMap hedges fun cycle hcycle m hm hedge => ?_
  obtain ⟨hholds, hbond, -⟩ := (hmem m).1 hm
  obtain ⟨howner, htarget⟩ := Prod.ext_iff.1 hedge
  have hlast : c.Holds ⟨cycle.last, m.bond, cycle.start⟩ := by
    rw [← show m.owner = cycle.last from howner, ← show m.target = cycle.start from htarget]
    exact hholds
  obtain ⟨site, subject, heq, hsubject⟩ := hreport cycle m.bond hbond hlast
  obtain ⟨hkin, hcode⟩ := hkin m.bond hbond
  refine ⟨_, heq, .closing hcode hedge ?_ hsubject⟩
  rw [hkin]
  refine (hrelates.isChain hcycle).imp fun a b => ?_
  rintro ⟨bond, hbond, hholds⟩
  exact ⟨bond, hbond, hheld _ hholds⟩

/-- The mentions that the first step loses, each with its report. -/
theorem forall₂_dangling (c : Catalogue) :
    List.Forall₂ (Explains c.component? c.facet?) c.withoutDangling.2 c.danglingMentions := by
  have hall : ∀ rs : List Reference, (∀ r ∈ rs, r.mention.Dangles c.component? c.facet?) →
      List.Forall₂ (Explains c.component? c.facet?) (rs.map Reference.report)
        (rs.map Reference.mention) := by
    intro rs
    induction rs with
    | nil => exact fun _ => .nil
    | cons r rs ih =>
      intro hdangles
      exact .cons (.dangling (hdangles r List.mem_cons_self))
        (ih fun r' hr => hdangles r' (List.mem_cons_of_mem _ hr))
  exact hall _ fun r hr => (mem_danglingMentions.1 (List.mem_map_of_mem hr)).2

/-- The mentions that the second step loses, each with its report. -/
theorem exists_lost_to_cycles (c : Catalogue) :
    ∃ lost : List Mention, lost.Nodup ∧
      (∀ m, m ∈ lost ↔
        c.withoutDangling.1.Holds m ∧ m ∈ c.withoutDangling.1.closingMentions) ∧
      List.Forall₂ (Explains c.component? c.facet?) c.withoutDangling.1.withoutCycles.2 lost := by
  have hheld : ∀ m, c.withoutDangling.1.Holds m → m.HeldBy c.component? c.facet? := fun m hm =>
    (holds_withoutDangling.1 hm).1
  -- The first step leaves no undeclared name and drops no type.
  have hclosed : c.withoutDangling.1.Closed := by
    intro m hm
    have hnot := (holds_withoutDangling.1 hm).2
    rw [withoutDangling_eq, dangles_dropAll]
    exact hnot
  obtain ⟨components, hnodup₁, hmem₁, hreports₁⟩ := exists_lost_of_relates
    (relates_componentInheritance _) (by decide) hheld (by decide) hclosed.reports_components
  obtain ⟨facets, hnodup₂, hmem₂, hreports₂⟩ := exists_lost_of_relates
    (relates_facetInheritance _) (by decide) hheld (by decide) hclosed.reports_facets
  obtain ⟨children, hnodup₃, hmem₃, hreports₃⟩ := exists_lost_of_relates
    (relates_containment _) (by decide) hheld (by decide) hclosed.reports_children
  refine ⟨components ++ facets ++ children, ?_, fun m => ?_, ?_⟩
  · -- The three lists are of mentions of different kinds.
    have hbond₁ : ∀ m ∈ components, m.bond ∈ [Bond.extendsComponent] := fun m hm =>
      (mem_closings.1 ((hmem₁ m).1 hm).2).1
    have hbond₂ : ∀ m ∈ facets, m.bond ∈ [Bond.extendsFacet] := fun m hm =>
      (mem_closings.1 ((hmem₂ m).1 hm).2).1
    have hbond₃ : ∀ m ∈ children, m.bond ∈ [Bond.componentChild, Bond.facetChild] := fun m hm =>
      (mem_closings.1 ((hmem₃ m).1 hm).2).1
    refine List.nodup_append'.2 ⟨List.nodup_append'.2 ⟨hnodup₁, hnodup₂, fun m hm hm' => ?_⟩,
      hnodup₃, fun m hm hm' => ?_⟩
    · have h := hbond₁ m hm
      have h' := hbond₂ m hm'
      revert h h'
      cases m.bond <;> decide
    · have h' := hbond₃ m hm'
      rcases List.mem_append.1 hm with hm | hm
      · have h := hbond₁ m hm
        revert h h'
        cases m.bond <;> decide
      · have h := hbond₂ m hm
        revert h h'
        cases m.bond <;> decide
  · rw [List.mem_append, List.mem_append, hmem₁, hmem₂, hmem₃, closingMentions, List.mem_append,
      List.mem_append, ← and_or_left, ← and_or_left]
  · exact List.rel_append (List.rel_append hreports₁ hreports₂) hreports₃

/-- The mentions that resolution loses, each with its report. -/
theorem exists_lost (c : Catalogue) :
    ∃ lost : List Mention, lost.Nodup ∧
      (∀ m, c.Holds m ↔ c.resolve.1.Holds m ∨ m ∈ lost) ∧ (∀ m ∈ lost, ¬c.resolve.1.Holds m) ∧
      List.Forall₂ (Explains c.component? c.facet?) c.resolve.2 lost := by
  obtain ⟨lost, hnodup, hmem, hreports⟩ := c.exists_lost_to_cycles
  refine ⟨c.danglingMentions ++ lost, ?_, fun m => ?_, fun m hm => ?_, ?_⟩
  · refine List.nodup_append'.2 ⟨c.nodup_danglingMentions, hnodup, fun m hm hm' => ?_⟩
    exact (holds_withoutDangling.1 ((hmem m).1 hm').1).2 (mem_danglingMentions.1 hm).2
  · rw [holds_resolve, List.mem_append, hmem, mem_danglingMentions, holds_withoutDangling]
    constructor
    · intro h
      -- A mention is lost in the first step, or in the second, or kept.
      by_cases hdangles : m.Dangles c.component? c.facet?
      · exact .inr (.inl ⟨h, hdangles⟩)
      · by_cases hcloses : m ∈ c.withoutDangling.1.closingMentions
        · exact .inr (.inr ⟨⟨h, hdangles⟩, hcloses⟩)
        · exact .inl ⟨⟨h, hdangles⟩, hcloses⟩
    · rintro (h | h | h)
      · exact h.1.1
      · exact h.1
      · exact h.1.1
  · rw [holds_resolve, not_and_not_right]
    rcases List.mem_append.1 hm with hm | hm
    · exact fun hleft => absurd (mem_danglingMentions.1 hm).2 (holds_withoutDangling.1 hleft).2
    · exact fun _ => ((hmem m).1 hm).2
  · exact List.rel_append c.forall₂_dangling hreports

end Catalogue

end Deployment

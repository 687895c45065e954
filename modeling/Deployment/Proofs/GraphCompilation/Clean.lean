import Deployment.Proofs.GraphCompilation

/-!
# Compilations without severe diagnostics

Nothing severe is found in a strict compilation exactly if nothing severe is found in the files, no
name is declared twice, and the declarations as they stand hold together; the graph is then that of
the declarations (`isSevere_ofClosure_eq_false_iff`, `ofClosure_graph_of_mild`). Nothing at all is
found if the files have nothing to report either (`ofClosure_diagnostics_eq_nil_iff`).

* `Catalogue.Sound`: what a strict compilation asks of the declarations;
* `Relation.breakCycles_eq_nil_iff`: a relation without cycles reports none;
* `Catalogue.resolve_snd_eq_nil_iff`: resolution reports nothing exactly if there is nothing to
  resolve, and changes nothing then.
-/

namespace Deployment

/-! ### Relations without cycles -/

/-- A relation without cycles reports none. -/
theorem Relation.breakCycles_eq_nil_iff (r : Relation) :
    r.breakCycles.2 = [] ↔ ∀ x, ¬Relation.TransGen (fun a b => b ∈ r.targets a) x x := by
  obtain ⟨-, hcycles, hacyclic⟩ := r.breakCycles_spec
  constructor
  · intro hnil x hcycle
    refine hacyclic x (Relation.TransGen.mono (fun a b hab => ⟨hab, ?_⟩) x x hcycle)
    rw [hnil]
    exact List.not_mem_nil
  · intro h
    refine List.eq_nil_iff_forall_not_mem.2 fun cycle hcycle => ?_
    exact h _ (Cycle.transGen (hcycles cycle hcycle))

/-- A diagnostic of a compilation that compares declarations: at the place of one, with a code of
    the family of compilations. -/
def Diagnostic.Linking (d : Diagnostic) : Prop :=
  ∃ site code details, d = .found site code details ∧ code.family = .conversion

theorem Diagnostic.Linking.family {d : Diagnostic} (h : d.Linking) :
    d.code.family = .conversion := by
  obtain ⟨site, code, details, rfl, hcode⟩ := h
  exact hcode

namespace Catalogue

variable {c : Catalogue}

/-! ### Resolution that has nothing to report -/

/-- A relation of which no cycle is reported has none. -/
theorem Relates.breakCycles_eq_nil {bonds : List Bond} {r : Relation} {code : Code}
    {report : Cycle → List Diagnostic} (h : c.Relates bonds r) (hbonds : bonds.Nodup)
    (hreport : c.Reports bonds code report) (hnil : r.breakCycles.2.flatMap report = []) :
    r.breakCycles.2 = [] := by
  obtain ⟨lost, -, hedges, hlost⟩ := h.exists_lost hbonds
  refine List.eq_nil_iff_forall_not_mem.2 fun cycle hcycle => ?_
  have hedge : cycle.edge ∈ lost.map Mention.edge := by
    rw [hedges]
    exact List.mem_map_of_mem hcycle
  obtain ⟨m, hm, hme⟩ := List.mem_map.1 hedge
  obtain ⟨hholds, hbond, -⟩ := (hlost m).1 hm
  obtain ⟨howner, htarget⟩ := Prod.ext_iff.1 hme
  have hlast : c.Holds ⟨cycle.last, m.bond, cycle.start⟩ := by
    rw [← show m.owner = cycle.last from howner, ← show m.target = cycle.start from htarget]
    exact hholds
  obtain ⟨site, subject, heq, -⟩ := hreport cycle m.bond hbond hlast
  rw [List.flatMap_eq_nil_iff] at hnil
  exact List.cons_ne_nil _ _ (heq.symm.trans (hnil cycle hcycle))

theorem withoutDangling_of_nil (h : c.danglingMentions = []) : c.withoutDangling.1 = c := by
  rw [withoutDangling_eq, h]
  rfl

theorem closed_of_nil (h : c.danglingMentions = []) : c.Closed := by
  intro m hm hdangles
  have hmem := mem_danglingMentions.2 ⟨hm, hdangles⟩
  rw [h] at hmem
  exact nomatch hmem

/-- Resolution reports nothing exactly if no name mentioned is undeclared and no relation has a
    cycle. -/
theorem resolve_snd_eq_nil_iff :
    c.resolve.2 = [] ↔ c.danglingMentions = [] ∧ c.componentInheritance.breakCycles.2 = [] ∧
      c.facetInheritance.breakCycles.2 = [] ∧ c.containment.breakCycles.2 = [] := by
  have hdangling : c.withoutDangling.2 = [] ↔ c.danglingMentions = [] := by
    rw [danglingMentions, List.map_eq_nil_iff]
    exact List.map_eq_nil_iff
  have hresolve : c.resolve.2 = c.withoutDangling.2 ++ c.withoutDangling.1.withoutCycles.2 := rfl
  rw [hresolve, List.append_eq_nil_iff, hdangling]
  refine and_congr_right fun hnone => ?_
  have hclosed := closed_of_nil hnone
  have hcycles : c.withoutCycles.2 =
      c.componentInheritance.breakCycles.2.flatMap (c.reportCycle .cycleInComponentsInheritance) ++
        c.facetInheritance.breakCycles.2.flatMap c.reportFacetCycle ++
        c.containment.breakCycles.2.flatMap (c.reportCycle .cycleInChildren) := rfl
  rw [withoutDangling_of_nil hnone, hcycles, List.append_eq_nil_iff, List.append_eq_nil_iff,
    and_assoc]
  constructor
  · rintro ⟨hcomponents, hfacets, hchildren⟩
    exact ⟨(relates_componentInheritance c).breakCycles_eq_nil (by decide)
        hclosed.reports_components hcomponents,
      (relates_facetInheritance c).breakCycles_eq_nil (by decide) hclosed.reports_facets hfacets,
      (relates_containment c).breakCycles_eq_nil (by decide) hclosed.reports_children hchildren⟩
  · rintro ⟨hcomponents, hfacets, hchildren⟩
    rw [hcomponents, hfacets, hchildren]
    exact ⟨rfl, rfl, rfl⟩

/-- A resolution that reports nothing changes nothing. -/
theorem resolve_fst_of_nil (h : c.resolve.2 = []) : c.resolve.1 = c := by
  obtain ⟨hdangling, hcomponents, hfacets, hchildren⟩ := resolve_snd_eq_nil_iff.1 h
  have hleft := withoutDangling_of_nil hdangling
  have hclosing : c.closingMentions = [] := by
    rw [closingMentions, hcomponents, hfacets, hchildren]
    rfl
  rw [resolve_eq, hdangling, hleft, hclosing]
  rfl

/-- A relation has no cycle if the mentions that it consists of have none. -/
theorem Relates.breakCycles_of_acyclic {bonds : List Bond} {r : Relation} (h : c.Relates bonds r)
    {R : String → String → Prop} (hR : ∀ a b, (∃ bond ∈ bonds, c.Holds ⟨a, bond, b⟩) → R a b)
    (hacyclic : ∀ x, ¬Relation.TransGen R x x) : r.breakCycles.2 = [] := by
  rw [Relation.breakCycles_eq_nil_iff]
  intro x hcycle
  exact hacyclic x
    (Relation.TransGen.mono (fun a b hb => hR a b (h.mem_targets_iff.1 hb)) x x hcycle)

/-- A graph that holds together mentions declared names only. -/
theorem closed_of_holdsTogether (h : c.graph.HoldsTogether) : c.Closed := by
  rintro ⟨owner, bond, target⟩ hholds hdangles
  have hcomponent : c.graph.components.contains target → c.component? target ≠ none := by
    rw [contains_components_graph, Option.isSome_iff_ne_none]
    exact id
  have hfacet : c.graph.facets.contains target → c.facet? target ≠ none := by
    rw [contains_facets_graph, Option.isSome_iff_ne_none]
    exact id
  have hchild : c.graph.HasChild owner target →
      ¬(c.component? target = none ∧ c.facet? target = none) := by
    rintro hhas ⟨hc, hf⟩
    rcases h.hasChild owner target hhas with hcontains | hcontains
    · exact hcomponent hcontains hc
    · exact hfacet hcontains hf
  cases bond with
  | extendsComponent =>
    have hedge := extendsComponent_graph_iff.2 ⟨_, List.mem_singleton_self _, hholds⟩
    exact hcomponent (h.extendsComponent owner target hedge) hdangles
  | carries => exact hfacet (h.carries owner target (carries_graph_iff.2 hholds)) hdangles
  | componentChild =>
    exact hchild (hasChild_graph_iff.2 ⟨_, List.mem_pair.2 (.inl rfl), hholds⟩) hdangles
  | extendsFacet =>
    have hedge := extendsFacet_graph_iff.2 ⟨_, List.mem_singleton_self _, hholds⟩
    exact hfacet (h.extendsFacet owner target hedge) hdangles
  | facetChild =>
    exact hchild (hasChild_graph_iff.2 ⟨_, List.mem_pair.2 (.inr rfl), hholds⟩) hdangles

/-- Resolution reports nothing exactly if the declarations as they stand hold together. -/
theorem resolve_snd_eq_nil_iff_holdsTogether : c.resolve.2 = [] ↔ c.graph.HoldsTogether := by
  constructor
  · intro h
    have htogether := c.holdsTogether_resolve
    rwa [resolve_fst_of_nil h] at htogether
  · intro h
    rw [resolve_snd_eq_nil_iff]
    refine ⟨List.eq_nil_iff_forall_not_mem.2 fun m hm => ?_, ?_, ?_, ?_⟩
    · obtain ⟨hholds, hdangles⟩ := mem_danglingMentions.1 hm
      exact closed_of_holdsTogether h m hholds hdangles
    · exact (relates_componentInheritance c).breakCycles_of_acyclic
        (fun a b => extendsComponent_graph_iff.2) h.extendsComponent_acyclic
    · exact (relates_facetInheritance c).breakCycles_of_acyclic
        (fun a b => extendsFacet_graph_iff.2) h.extendsFacet_acyclic
    · exact (relates_containment c).breakCycles_of_acyclic
        (fun a b => hasChild_graph_iff.2) h.hasChild_acyclic

variable (c) in
/-- No name is declared twice, and what is declared holds together. -/
structure Sound : Prop where
  collisions : c.collisions = []
  repetitions : c.repetitions = []
  together : c.graph.HoldsTogether

/-! ### Reports on declarations -/

variable {d : Diagnostic}

theorem linking_of_mem_collisions (h : d ∈ c.collisions) : d.Linking := by
  obtain ⟨⟨name, component⟩, -, hd⟩ := List.mem_flatMap.1 h
  dsimp only at hd
  split at hd
  · exact nomatch hd
  · obtain ⟨site, -, rfl⟩ := List.mem_map.1 hd
    exact ⟨_, _, _, rfl, rfl⟩

theorem linking_of_mem_repetition {α : Type} {code : Code} {detail : Detail} {t : Declared α}
    (hcode : code.family = .conversion) (h : d ∈ repetition code detail t) : d.Linking := by
  rw [repetition] at h
  split at h
  · exact nomatch h
  · obtain ⟨site, -, rfl⟩ := List.mem_map.1 h
    exact ⟨_, _, _, rfl, hcode⟩

theorem linking_of_mem_repetitions (h : d ∈ c.repetitions) : d.Linking := by
  rcases List.mem_append.1 h with h | h
  · obtain ⟨p, -, hd⟩ := List.mem_flatMap.1 h
    exact linking_of_mem_repetition rfl hd
  · obtain ⟨p, -, hd⟩ := List.mem_flatMap.1 h
    exact linking_of_mem_repetition rfl hd

theorem linking_of_mem_reportCycle {code : Code} {cycle : Cycle}
    (hcode : code.family = .conversion) (h : d ∈ c.reportCycle code cycle) : d.Linking := by
  rw [reportCycle] at h
  split at h
  · exact ⟨_, _, _, List.mem_singleton.1 h, hcode⟩
  · exact ⟨_, _, _, List.mem_singleton.1 h, hcode⟩
  · cases h

theorem linking_of_mem_reportFacetCycle {cycle : Cycle} (h : d ∈ c.reportFacetCycle cycle) :
    d.Linking := by
  rw [reportFacetCycle] at h
  split at h
  · exact ⟨_, _, _, List.mem_singleton.1 h, rfl⟩
  · cases h

theorem linking_of_mem_withoutCycles (h : d ∈ c.withoutCycles.2) : d.Linking := by
  rcases List.mem_append.1 h with h | h
  · rcases List.mem_append.1 h with h | h
    · obtain ⟨cycle, -, hd⟩ := List.mem_flatMap.1 h
      exact linking_of_mem_reportCycle rfl hd
    · obtain ⟨cycle, -, hd⟩ := List.mem_flatMap.1 h
      exact linking_of_mem_reportFacetCycle hd
  · obtain ⟨cycle, -, hd⟩ := List.mem_flatMap.1 h
    exact linking_of_mem_reportCycle rfl hd

theorem linking_of_mem_resolve (h : d ∈ c.resolve.2) : d.Linking := by
  rcases List.mem_append.1 h with h | h
  · obtain ⟨⟨owner, bond, target, site⟩, -, rfl⟩ := List.mem_map.1 h
    exact ⟨_, _, _, rfl, by cases bond <;> rfl⟩
  · exact linking_of_mem_withoutCycles h

end Catalogue

/-! ### The compilation -/

namespace GraphCompilation

variable {closure : Closure}

/-- All files count if nothing severe was found in them. -/
theorem acceptedFiles_of_mild (flexible : Bool)
    (h : Diagnostic.anySevere closure.diagnostics = false) :
    acceptedFiles flexible closure = closure.files := by
  refine List.filter_eq_self.2 fun file hfile => ?_
  obtain ⟨visit, hvisit, hloaded⟩ := List.mem_filterMap.1 hfile
  cases visit with
  | missing => exact nomatch hloaded
  | loaded f =>
    cases hloaded
    have hfound : file.diagnostics ⊆ closure.diagnostics := fun d hd =>
      List.mem_flatMap.2 ⟨_, hvisit, hd⟩
    rw [LoadedFile.isSevere, Diagnostic.anySevere_of_subset hfound h]
    exact Bool.or_true flexible

/-- The declarations of all files are gathered if nothing severe was found in them. -/
theorem gather_of_mild (flexible : Bool)
    (h : Diagnostic.anySevere closure.diagnostics = false) :
    gather flexible closure = (Catalogue.ofBlocks closure.blocks,
      closure.diagnostics ++ (Catalogue.ofBlocks closure.blocks).collisions ++
        (Catalogue.ofBlocks closure.blocks).repetitions) := by
  rw [gather, acceptedFiles_of_mild flexible h]
  rfl

/-- What comes of a strict compilation that finds nothing severe in the files, and no name declared
    more than once. -/
theorem ofClosure_of_mild (h : Diagnostic.anySevere closure.diagnostics = false)
    (hcollisions : (Catalogue.ofBlocks closure.blocks).collisions = [])
    (hrepetitions : (Catalogue.ofBlocks closure.blocks).repetitions = []) :
    (ofClosure false closure).diagnostics =
        closure.diagnostics ++ (Catalogue.ofBlocks closure.blocks).resolve.2 ∧
      (ofClosure false closure).graph = (Catalogue.ofBlocks closure.blocks).resolve.1.graph := by
  have hsettle : settle false (gather false closure) =
      ((Catalogue.ofBlocks closure.blocks).resolve.1,
        closure.diagnostics ++ (Catalogue.ofBlocks closure.blocks).resolve.2) := by
    rw [gather_of_mild false h, hcollisions, hrepetitions, List.append_nil, List.append_nil, settle,
      if_neg]
    simp [h]
  rw [ofClosure, hsettle]
  exact ⟨rfl, rfl⟩

/-- What is gathered is reported. -/
theorem gather_sublist (flexible : Bool) (closure : Closure) :
    (gather flexible closure).2.Sublist (ofClosure flexible closure).diagnostics := by
  change List.Sublist _ (settle flexible (gather flexible closure)).2
  rw [settle]
  split
  · exact .refl _
  · exact List.sublist_append_left _ _

/-- A compilation raises nothing that belongs to the checks of models. -/
theorem carried_of_runtimeModel {loader : Loader} {flexible : Bool}
    (hmade : ∀ v ∈ closure, Closure.Made loader Block.check .types v) {d : Diagnostic}
    (hd : d ∈ (ofClosure flexible closure).diagnostics) (hfamily : d.code.family = .runtimeModel) :
    d ∈ closure.carried := by
  have hnot : d.code.family ≠ .conversion := fun h => nomatch h.symm.trans hfamily
  have hgathered : d ∈ (gather flexible closure).2 := by
    change d ∈ (settle flexible (gather flexible closure)).2 at hd
    rw [settle] at hd
    split at hd
    · exact hd
    · refine (List.mem_append.1 hd).resolve_right fun hresolve => ?_
      exact hnot (Catalogue.linking_of_mem_resolve hresolve).family
  rcases List.mem_append.1 hgathered with h | h
  · rcases List.mem_append.1 h with h | h
    · exact Closure.carried_of_runtimeModel hmade rfl h hfamily
    · exact absurd (Catalogue.linking_of_mem_collisions h).family hnot
  · exact absurd (Catalogue.linking_of_mem_repetitions h).family hnot

/-- Nothing severe is found in a strict compilation exactly if nothing severe is found in the files,
    and the declarations are sound. -/
theorem isSevere_ofClosure_eq_false_iff :
    (ofClosure false closure).isSevere = false ↔
      Diagnostic.anySevere closure.diagnostics = false ∧
        (Catalogue.ofBlocks closure.blocks).Sound := by
  have hnone : ∀ {ds : List Diagnostic}, (∀ d ∈ ds, d.Linking) →
      (Diagnostic.anySevere ds = false ↔ ds = []) := fun h =>
    Diagnostic.anySevere_eq_false_iff_eq_nil fun d hd =>
      Code.isSevere_of_conversion (h d hd).family
  have hresolve : Diagnostic.anySevere (Catalogue.ofBlocks closure.blocks).resolve.2 = false ↔
      (Catalogue.ofBlocks closure.blocks).resolve.2 = [] :=
    hnone fun _ => Catalogue.linking_of_mem_resolve
  constructor
  · intro h
    have hgathered := Diagnostic.anySevere_of_subset (gather_sublist false closure).subset h
    have hfiles : Diagnostic.anySevere closure.diagnostics = false := by
      refine Diagnostic.anySevere_of_subset (fun d hd => ?_) hgathered
      exact List.mem_append_left _ (List.mem_append_left _ hd)
    rw [gather_of_mild false hfiles, Diagnostic.anySevere_append, Diagnostic.anySevere_append,
      Bool.or_eq_false_iff, Bool.or_eq_false_iff] at hgathered
    obtain ⟨⟨-, hcollisions⟩, hrepetitions⟩ := hgathered
    rw [hnone fun _ => Catalogue.linking_of_mem_collisions] at hcollisions
    rw [hnone fun _ => Catalogue.linking_of_mem_repetitions] at hrepetitions
    rw [isSevere, (ofClosure_of_mild hfiles hcollisions hrepetitions).1,
      Diagnostic.anySevere_append, Bool.or_eq_false_iff, hresolve,
      Catalogue.resolve_snd_eq_nil_iff_holdsTogether] at h
    exact ⟨hfiles, hcollisions, hrepetitions, h.2⟩
  · rintro ⟨hfiles, hsound⟩
    rw [isSevere, (ofClosure_of_mild hfiles hsound.collisions hsound.repetitions).1,
      Diagnostic.anySevere_append, Bool.or_eq_false_iff, hresolve,
      Catalogue.resolve_snd_eq_nil_iff_holdsTogether]
    exact ⟨hfiles, hsound.together⟩

/-- The graph is then that of the declarations. -/
theorem ofClosure_graph_of_mild (h : (ofClosure false closure).isSevere = false) :
    (ofClosure false closure).graph = (Catalogue.ofBlocks closure.blocks).graph := by
  obtain ⟨hfiles, hsound⟩ := isSevere_ofClosure_eq_false_iff.1 h
  rw [(ofClosure_of_mild hfiles hsound.collisions hsound.repetitions).2,
    Catalogue.resolve_fst_of_nil (Catalogue.resolve_snd_eq_nil_iff_holdsTogether.2 hsound.together)]

theorem isSevere_of_clean {c : GraphCompilation} (h : c.diagnostics = []) : c.isSevere = false := by
  rw [isSevere, h]
  rfl

/-- Nothing at all is found in a strict compilation exactly if, moreover, nothing at all is found in
    the files. -/
theorem ofClosure_diagnostics_eq_nil_iff :
    (ofClosure false closure).diagnostics = [] ↔
      closure.diagnostics = [] ∧ (Catalogue.ofBlocks closure.blocks).Sound := by
  constructor
  · intro h
    obtain ⟨hfiles, hsound⟩ := isSevere_ofClosure_eq_false_iff.1 (isSevere_of_clean h)
    rw [(ofClosure_of_mild hfiles hsound.collisions hsound.repetitions).1,
      List.append_eq_nil_iff] at h
    exact ⟨h.1, hsound⟩
  · rintro ⟨hfiles, hsound⟩
    have hmild : Diagnostic.anySevere closure.diagnostics = false := by
      rw [hfiles]
      rfl
    rw [(ofClosure_of_mild hmild hsound.collisions hsound.repetitions).1, hfiles,
      Catalogue.resolve_snd_eq_nil_iff_holdsTogether.2 hsound.together]
    rfl

end GraphCompilation

end Deployment

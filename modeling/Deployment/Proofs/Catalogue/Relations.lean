import Deployment.Proofs.Catalogue.Mentions
import Deployment.Proofs.Relation.Cycles

/-!
# Mentions and cycles

The relations of which resolution breaks the cycles — what components extend, what facets extend,
what types have as children — consist of mentions: from one name to another there are as many
edges as there are mentions of the kinds at hand (`Relates`). Breaking the cycles of a relation
thus loses mentions, one for each cycle that is reported.

* `relates_componentInheritance`, `relates_facetInheritance`, `relates_containment`: the three
  relations;
* `Relates.exists_lost`: the mentions lost, one for each cycle and in the same order;
* `Relates.acyclic`: the other mentions have no cycle.
-/

namespace Deployment

/-! ### Lists up to order -/

/-- A list whose images are others up to order can be put into their order. -/
theorem exists_perm_map_eq {α β : Type} [DecidableEq α] {f : α → β} {l : List α} {m : List β}
    (h : (l.map f).Perm m) : ∃ l' : List α, l'.Perm l ∧ l'.map f = m := by
  induction m generalizing l with
  | nil =>
    have hnil : l = [] := by simpa using h
    exact ⟨[], by rw [hnil], rfl⟩
  | cons b m ih =>
    obtain ⟨a, ha, rfl⟩ := List.mem_map.1 (h.mem_iff.2 List.mem_cons_self)
    have hsplit := List.perm_cons_erase ha
    obtain ⟨l', hperm, rfl⟩ := ih ((hsplit.map f).symm.trans h).cons_inv
    exact ⟨a :: l', (hperm.cons a).trans hsplit.symm, rfl⟩

/-- Mentions of the given kinds, counted by their edges. -/
theorem count_edges {ms : List Mention} (hms : ms.Nodup) {bonds : List Bond} (hbonds : bonds.Nodup)
    (a b : String) :
    ((ms.filter (·.bond ∈ bonds)).map Mention.edge).count (a, b) =
      bonds.countP fun bond => ⟨a, bond, b⟩ ∈ ms := by
  have hinj : Function.Injective fun bond => (⟨a, bond, b⟩ : Mention) := fun _ _ h =>
    congrArg Mention.bond h
  -- Both sides count the mentions from `a` to `b`.
  have hperm : ((ms.filter (·.bond ∈ bonds)).filter (·.edge = (a, b))).Perm
      ((bonds.filter fun bond => (⟨a, bond, b⟩ : Mention) ∈ ms).map fun bond => ⟨a, bond, b⟩) := by
    refine (List.perm_ext_iff_of_nodup ((hms.filter _).filter _) ((hbonds.filter _).map hinj)).2 ?_
    rintro ⟨owner, bond, target⟩
    simp only [List.mem_filter, List.mem_map, decide_eq_true_eq, Mention.edge, Prod.mk.injEq,
      Mention.mk.injEq]
    constructor
    · rintro ⟨⟨hmem, hbond⟩, rfl, rfl⟩
      exact ⟨bond, ⟨hbond, hmem⟩, rfl, rfl, rfl⟩
    · rintro ⟨bond', ⟨hbond, hmem⟩, rfl, rfl, rfl⟩
      exact ⟨⟨hmem, hbond⟩, rfl, rfl⟩
  have hlength := hperm.length_eq
  rw [List.length_map, ← List.countP_eq_length_filter, ← List.countP_eq_length_filter] at hlength
  rw [List.count, List.countP_map, ← hlength]
  exact List.countP_congr fun m _ => by simp

namespace Catalogue

variable {c : Catalogue}

/-- The edges of a relation are mentions of the given kinds, one edge for each. -/
def Relates (c : Catalogue) (bonds : List Bond) (r : Relation) : Prop :=
  ∀ a b, (r.targets a).count b = bonds.countP fun bond => ⟨a, bond, b⟩ ∈ c.mentions

/-! ### The three relations -/

theorem targets_map {α : Type} (t : Table String α) (f : α → List String) (a : String) :
    Relation.targets (t.map fun _ v => f v) a = ((t.get? a).map f).getD [] := by
  rw [Relation.targets, Table.get?_map]

theorem relates_componentInheritance (c : Catalogue) :
    c.Relates [.extendsComponent] c.componentInheritance := by
  intro a b
  rw [componentInheritance, targets_map]
  simp only [List.countP_cons, List.countP_nil, mem_mentions_iff, Holds, Mention.HeldBy,
    component?, decide_eq_true_eq]
  cases c.components.get? a with
  | none => simp
  | some d =>
    cases hbase : d.model.base with
    | none => simp [hbase]
    | some base => simp [hbase, List.count_cons]

theorem relates_facetInheritance (c : Catalogue) :
    c.Relates [.extendsFacet] c.facetInheritance := by
  intro a b
  rw [facetInheritance, targets_map]
  simp only [List.countP_cons, List.countP_nil, mem_mentions_iff, Holds, Mention.HeldBy,
    facet?, decide_eq_true_eq]
  cases c.facets.get? a with
  | none => simp
  | some d => simp [d.model.bases.nodup.count]

/-- The children of a name: those of the component, then those of the facet. -/
theorem targets_containment (c : Catalogue) (a : String) :
    c.containment.targets a = ((c.component? a).map (·.children.toList)).getD [] ++
      ((c.facet? a).map (·.children.toList)).getD [] := by
  have hfold : ∀ (fs : List (String × Declared Facet)) (r : Relation), (fs.map Prod.fst).Nodup →
      Relation.targets (fs.foldl (fun r p =>
        r.insert p.1 (Relation.targets r p.1 ++ p.2.model.children.toList)) r) a =
      r.targets a ++ ((Table.find? a fs).map (·.model.children.toList)).getD [] := by
    intro fs
    induction fs with
    | nil => simp [Table.find?]
    | cons f fs ih =>
      obtain ⟨name, d⟩ := f
      intro r hfs
      rw [List.map_cons, List.nodup_cons] at hfs
      rw [List.foldl_cons, ih _ hfs.2, Table.find?]
      by_cases hname : name = a
      · -- No later entry has the name.
        subst hname
        have hnone : Table.find? name fs = none := Table.find?_eq_none_iff.2 hfs.1
        simp [Relation.targets, Table.get?_insert, hnone]
      · simp [Relation.targets, Table.get?_insert, hname]
  rw [containment, hfold _ _ c.facets.nodup, targets_map, component?, facet?, Option.map_map,
    Option.map_map]
  rfl

theorem relates_containment (c : Catalogue) :
    c.Relates [.componentChild, .facetChild] c.containment := by
  intro a b
  rw [targets_containment, List.count_append]
  simp only [List.countP_cons, List.countP_nil, mem_mentions_iff, Holds, Mention.HeldBy,
    decide_eq_true_eq]
  rw [Nat.zero_add, Nat.add_comm]
  refine congrArg₂ (· + ·) ?_ ?_
  · cases c.facet? a with
    | none => simp
    | some f => simp [f.children.nodup.count]
  · cases c.component? a with
    | none => simp
    | some m => simp [m.children.nodup.count]

/-! ### What is lost to cycles -/

variable {bonds : List Bond} {r : Relation}

theorem Relates.mem_targets_iff (h : c.Relates bonds r) {a b : String} :
    b ∈ r.targets a ↔ ∃ bond ∈ bonds, c.Holds ⟨a, bond, b⟩ := by
  rw [← List.count_pos_iff, h a b, List.countP_pos_iff]
  simp [mem_mentions_iff]

/-- The mentions lost to cycles are those whose edge closes one. They can be listed cycle by
    cycle. -/
theorem Relates.exists_lost (h : c.Relates bonds r) (hbonds : bonds.Nodup) :
    ∃ lost : List Mention, lost.Nodup ∧ lost.map Mention.edge = r.breakCycles.2.map Cycle.edge ∧
      ∀ m, m ∈ lost ↔
        c.Holds m ∧ m.bond ∈ bonds ∧ m.edge ∈ r.breakCycles.2.map Cycle.edge := by
  let closing := (c.mentions.filter (·.bond ∈ bonds)).filter
    (·.edge ∈ r.breakCycles.2.map Cycle.edge)
  have hperm : (closing.map Mention.edge).Perm (r.breakCycles.2.map Cycle.edge) := by
    refine List.perm_iff_count.2 fun e => ?_
    obtain ⟨a, b⟩ := e
    have hclosing : (closing.map Mention.edge).count (a, b) =
        if (a, b) ∈ r.breakCycles.2.map Cycle.edge then (r.targets a).count b else 0 := by
      have hfilter : closing.map Mention.edge = ((c.mentions.filter (·.bond ∈ bonds)).map
          Mention.edge).filter (· ∈ r.breakCycles.2.map Cycle.edge) := by
        rw [List.filter_map]
        rfl
      rw [hfilter, h a b, ← count_edges c.nodup_mentions hbonds]
      split
      · next hmem => exact List.count_filter (decide_eq_true hmem)
      · next hmem =>
        refine List.count_eq_zero.2 fun hfiltered => hmem ?_
        exact of_decide_eq_true (List.mem_filter.1 hfiltered).2
    rw [hclosing]
    -- An edge that closes a cycle closes as many as it occurs.
    rcases (r.breakCycles_spec.1 a b) with hzero | hcount
    · rw [if_neg fun hmem => Relation.mem_edge_iff.1 hmem hzero]
      exact hzero.symm
    · split
      · exact hcount.symm
      · next hmem => exact (List.count_eq_zero.2 hmem).symm
  obtain ⟨lost, hlost, hedges⟩ := exists_perm_map_eq hperm
  refine ⟨lost, hlost.nodup_iff.2 ((c.nodup_mentions.filter _).filter _), hedges, fun m => ?_⟩
  rw [hlost.mem_iff]
  simp only [closing, List.mem_filter, decide_eq_true_eq, mem_mentions_iff, and_assoc]

/-- A chain of the mentions that are left never comes back to where it starts. -/
theorem Relates.acyclic (h : c.Relates bonds r) (x : String) :
    ¬Relation.TransGen (fun a b => ∃ bond ∈ bonds, c.Holds ⟨a, bond, b⟩ ∧
      (a, b) ∉ r.breakCycles.2.map Cycle.edge) x x := by
  intro hcycle
  refine r.breakCycles_spec.2.2 x (Relation.TransGen.mono (fun a b => ?_) x x hcycle)
  rintro ⟨bond, hbond, hholds, hnot⟩
  exact ⟨h.mem_targets_iff.2 ⟨bond, hbond, hholds⟩, hnot⟩

/-- The cycles reported are chains of mentions. -/
theorem Relates.isChain (h : c.Relates bonds r) {cycle : Cycle} (hcycle : cycle ∈ r.breakCycles.2) :
    cycle.names.IsChain fun a b => ∃ bond ∈ bonds, c.Holds ⟨a, bond, b⟩ :=
  (r.breakCycles_spec.2.1 cycle hcycle).imp fun _ _ => h.mem_targets_iff.1

end Catalogue

end Deployment

import Deployment.Proofs.Relation.Search

/-!
# What the cuts keep

The search goes down along some edges and meets the cycles at others. The edges along which it goes
down are never cut: where a name is new, the edge that leads to it closes no cycle. So each cycle
found is still there but for its last edge when all cuts are done, and none of the cuts could have
been spared.

* `mem_targets_breakCycles_iff`: what is kept are the edges that close none of the cycles found;
* `chain_of_walk`: the edges of a cycle, up to the last one, are kept;
* `restore`: a relation with one more edge; `isCycle_restore`: a cut edge that is put back closes
  the cycle for which it was cut.
-/

namespace Deployment.Relation

variable {r : Relation} {trail visited names visited' : List String} {cycles : List Cycle}

/-! ### Edges along which the search goes down -/

/-- Of the edges that leave the names of a trail and those that a walk comes to visit, let those be
    kept that close no cycle of the walk. Then the edges of each cycle that the walk records are
    kept, up to the last one. -/
theorem chain_of_walk {Kept : String → String → Prop}
    (h : Walk r trail visited names visited' cycles) (htrail : trail ⊆ visited)
    (hchain : trail.IsChain fun b a => Kept a b)
    (hnames : ∀ head ∈ trail.head?, ∀ y ∈ names, y ∉ trail → Kept head y)
    (hkept : ∀ x ∈ visited', x ∉ visited → ∀ y ∈ r.targets x, closedBy x y cycles = 0 → Kept x y) :
    ∀ cycle ∈ cycles, (cycle.start :: cycle.rest).IsChain Kept := by
  induction h with
  | done => exact fun _ h => absurd h List.not_mem_nil
  | @back trail visited names visited' next cycles hback _ ih =>
    have hhead := eq_cons_of_mem_trail hback
    refine List.forall_mem_cons.2 ⟨chain_closing hchain hback, ih htrail hchain ?_ ?_⟩
    · exact fun head hh y hy => hnames head hh y (List.mem_cons_of_mem _ hy)
    · -- The edge back leaves a name that was visited before.
      intro x hx hnew y hy hzero
      have hlast : (closing trail next).last ≠ x := fun e =>
        hnew (e ▸ htrail (List.mem_of_mem_head? hhead))
      refine hkept x hx hnew y hy ?_
      rw [closedBy_closing hhead hback, if_neg fun hand => hlast hand.1, hzero]
  | seen _ _ _ ih =>
    exact ih htrail hchain (fun head hh y hy => hnames head hh y (List.mem_cons_of_mem _ hy)) hkept
  | @fresh trail visited names between visited' next cycles₁ cycles₂ hnot hnew h₁ h₂ ih ih' =>
    have htrail₁ := List.cons_subset_cons next htrail
    have htrail₂ := List.Subset.trans htrail h₁.subset_of_fresh
    have hnext : next ∈ between := h₁.subset List.mem_cons_self
    -- What is visited up to the end of the new name closes nothing after it.
    have hafter : ∀ x ∈ between, x ∉ visited → ∀ y, closedBy x y cycles₂ = 0 := fun x hx hx' y =>
      closedBy_of_not_mem_trail h₂ htrail₂ hx (fun hmem => hx' (htrail hmem)) y
    refine List.forall_mem_append.2 ⟨ih htrail₁ ?_ ?_ ?_, ih' htrail₂ hchain ?_ ?_⟩
    · exact List.isChain_cons.2
        ⟨fun head hh => hnames head hh next List.mem_cons_self hnot, hchain⟩
    · rintro head ⟨⟩ y hy hy'
      refine hkept next (h₂.subset hnext) hnew y hy ?_
      rw [closedBy_append, closedBy_of_mem h₁ htrail₁ List.mem_cons_self,
        if_neg fun hand => hy' hand.2, hafter next hnext hnew]
    · intro x hx hx' y hy hzero
      have hxv : x ∉ visited := fun hmem => hx' (List.mem_cons_of_mem _ hmem)
      refine hkept x (h₂.subset hx) hxv y hy ?_
      rw [closedBy_append, hzero, hafter x hx hxv]
    · exact fun head hh y hy => hnames head hh y (List.mem_cons_of_mem _ hy)
    · intro x hx hx' y hy hzero
      refine hkept x hx (fun hmem => hx' (h₁.subset_of_fresh hmem)) y hy ?_
      rw [closedBy_append, closedBy_of_not_mem h₁ htrail₁ hx', hzero]

/-! ### What is left -/

/-- What is kept are the edges that close none of the cycles found. -/
theorem mem_targets_breakCycles_iff {a b : String} :
    b ∈ r.breakCycles.1.targets a ↔
      b ∈ r.targets a ∧ (a, b) ∉ r.breakCycles.2.map Cycle.edge := by
  obtain ⟨visited', cycles, h, hbreak, -⟩ := r.exists_walk_breakCycles
  rw [hbreak, mem_edge_iff, not_not, ← List.count_pos_iff, ← List.count_pos_iff,
    count_targets_cutAll]
  dsimp only
  -- An edge closes as many cycles as it occurs, or none.
  rcases closedBy_eq_zero_or h (List.Subset.refl _) (x := a) List.not_mem_nil b with hzero | hcount
  · omega
  · omega

/-- An edge of which an occurrence was cut closes one of the cycles found. -/
theorem exists_cycle_of_count_lt {a b : String}
    (hless : (r.breakCycles.1.targets a).count b < (r.targets a).count b) :
    ∃ cycle ∈ r.breakCycles.2, cycle.edge = (a, b) := by
  obtain ⟨visited', cycles, -, hbreak, -⟩ := r.exists_walk_breakCycles
  rw [hbreak, count_targets_cutAll] at hless
  have hcloses : closedBy a b cycles ≠ 0 := by omega
  rw [hbreak]
  exact List.mem_map.1 (mem_edge_iff.2 hcloses)

/-- All edges of a cycle found are kept, up to the last one. -/
theorem chain_breakCycles {cycle : Cycle} (hcycle : cycle ∈ r.breakCycles.2) :
    (cycle.start :: cycle.rest).IsChain fun a b => b ∈ r.breakCycles.1.targets a := by
  obtain ⟨visited', cycles, h, hbreak, -⟩ := r.exists_walk_breakCycles
  have hcycles : r.breakCycles.2 = cycles := by rw [hbreak]
  refine chain_of_walk h (List.Subset.refl _) List.isChain_nil (fun _ hh => nomatch hh) ?_ cycle
    (hcycles ▸ hcycle)
  intro x _ _ y hy hzero
  exact mem_targets_breakCycles_iff.2 ⟨hy, fun hmem => mem_edge_iff.1 (hcycles ▸ hmem) hzero⟩

/-! ### Putting an edge back -/

/-- The relation with one more edge from a name that it has. -/
def restore (r : Relation) (source target : String) : Relation :=
  r.modify source fun targets => targets ++ [target]

theorem mem_targets_restore_iff {source target a b : String} :
    b ∈ (r.restore source target).targets a ↔
      b ∈ r.targets a ∨ a ∈ r.keys ∧ a = source ∧ b = target := by
  rw [targets, restore, Table.get?_modify, targets, ← Table.contains_iff, Table.contains]
  by_cases ha : a = source
  · rw [if_pos ha]
    cases r.get? a <;> simp [ha]
  · rw [if_neg ha]
    simp [ha]

/-- A cut edge that is put back closes the cycle for which it was cut. -/
theorem isCycle_restore {cycle : Cycle} (hcycle : cycle ∈ r.breakCycles.2) :
    (r.breakCycles.1.restore cycle.last cycle.start).IsCycle cycle := by
  obtain ⟨visited', cycles, h, hbreak, -⟩ := r.exists_walk_breakCycles
  have hcycles : r.breakCycles.2 = cycles := by rw [hbreak]
  have hkeys : r.breakCycles.1.keys = r.keys := by rw [hbreak, keys_cutAll]
  refine ⟨(isCycle_of_walk h cycle (hcycles ▸ hcycle)).distinct, Cycle.isChain_names_iff.2 ⟨?_, ?_⟩⟩
  · exact (chain_breakCycles hcycle).imp fun _ _ => mem_targets_restore_iff.2 ∘ .inl
  · have hlast : cycle.last ∈ r.breakCycles.1.keys := by
      rw [hkeys]
      exact mem_keys_of_mem_targets (start_mem_targets h (hcycles ▸ hcycle))
    exact mem_targets_restore_iff.2 (.inr ⟨hlast, rfl, rfl⟩)

end Deployment.Relation

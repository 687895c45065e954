import Deployment.Proofs.Relation.Walk
import Deployment.Proofs.Table

/-!
# The cycles that are broken

The cycles that `Relation.breakCycles` reports are those that one walk records, and the relation
without their last edges has no cycle.

* `walk_cut`: after the cut, the walk records the same cycles but the first;
* `closedBy_eq_zero_or`: an edge closes as many cycles as it occurs, or none;
* `acc_of_walk`: where nothing is recorded, there is no cycle;
* `breakCycles_spec`: what is reported, and what is left.
-/

namespace Deployment.Relation

variable {r r' : Relation} {trail visited names visited' : List String} {cycle : Cycle}
  {cycles : List Cycle}

/-! ### Cuts -/

theorem targets_cut (r : Relation) (source target x : String) :
    (r.cut source target).targets x =
      if x = source then (r.targets x).erase target else r.targets x := by
  rw [targets, cut, Table.get?_modify, targets]
  split
  · cases r.get? x <;> rfl
  · rfl

@[simp] theorem keys_cut (r : Relation) (source target : String) :
    (r.cut source target).keys = r.keys :=
  Table.keys_modify _ _ _

/-- The last edge of the cycle that a step closes leaves the name that the step leaves. -/
theorem last_closing (head next : String) (rest : List String) :
    (closing (head :: rest) next).last = head := by
  rw [closing, Cycle.last, List.getLast?_reverse]
  by_cases hne : head = next
  · simp [hne]
  · simp [hne]

theorem eq_cons_of_mem_trail {next : String} (h : next ∈ trail) :
    trail.head? = some (closing trail next).last := by
  obtain ⟨head, rest, rfl⟩ := List.exists_cons_of_ne_nil (List.ne_nil_of_mem h)
  rw [last_closing, List.head?_cons]

/-- The first cycle that a walk records is closed by a name of its list, or below a name that it
    comes to visit. In the first case the walk through the list without that name records the
    other cycles; in the second, so does the walk through the same list after the cut. -/
theorem walk_cut_aux (h : Walk r trail visited names visited' (cycle :: cycles)) :
    (∃ pre post, trail.head? = some cycle.last ∧ cycle.start ∈ trail ∧
        names = pre ++ cycle.start :: post ∧ cycle.start ∉ pre ∧
        Walk r trail visited (pre ++ post) visited' cycles) ∨
      (cycle.last ∉ visited ∧ cycle.last ∈ visited' ∧
        Walk (r.cut cycle.last cycle.start) trail visited names visited' cycles) := by
  generalize hall : cycle :: cycles = all at h
  induction h generalizing cycle cycles with
  | done => exact nomatch hall
  | @back trail visited names visited' next cycles' hback h _ =>
    obtain ⟨rfl, rfl⟩ := List.cons.inj hall
    exact .inl ⟨[], names, eq_cons_of_mem_trail hback, hback, rfl, List.not_mem_nil, h⟩
  | @seen trail visited names visited' next cycles' hnot hseen _ ih =>
    rcases ih hall with ⟨pre, post, hhead, hmem, rfl, hpre, hrest⟩ | ⟨hnew, hlast, hrest⟩
    · refine .inl ⟨next :: pre, post, hhead, hmem, rfl, ?_, .seen hnot hseen hrest⟩
      exact fun hstart => (List.mem_cons.1 hstart).elim (fun e => hnot (e ▸ hmem)) hpre
    · exact .inr ⟨hnew, hlast, .seen hnot hseen hrest⟩
  | @fresh trail visited names between visited' next cycles₁ cycles₂ hnot hnew h₁ h₂ ih ih' =>
    have hsub := h₁.subset_of_fresh
    have hnext : next ∈ between := h₁.subset List.mem_cons_self
    cases cycles₁ with
    | nil =>
      -- Nothing is closed below the new name, which is thus left alone by the cut.
      rcases ih' hall with ⟨pre, post, hhead, hmem, rfl, hpre, hrest⟩ | ⟨hlast, hlast', hrest⟩
      · refine .inl ⟨next :: pre, post, hhead, hmem, rfl, ?_, .fresh hnot hnew h₁ hrest⟩
        exact fun hstart => (List.mem_cons.1 hstart).elim (fun e => hnot (e ▸ hmem)) hpre
      · refine .inr ⟨fun hv => hlast (hsub hv), hlast', ?_⟩
        have hkeep : ∀ x ∈ between, (r.cut cycle.last cycle.start).targets x = r.targets x := by
          intro x hx
          rw [targets_cut, if_neg]
          rintro rfl
          exact hlast hx
        have hbelow := h₁.congr fun x hx _ => hkeep x hx
        rw [← hkeep next hnext] at hbelow
        exact .fresh hnot hnew hbelow hrest
    | cons first cycles₁ =>
      obtain ⟨rfl, rfl⟩ := List.cons.inj hall
      rcases ih rfl with ⟨pre, post, hhead, hmem, hnames, hpre, hrest⟩ | ⟨hlast, hlast', hrest⟩
      · -- The edge leaves the new name: its targets lose what closes the cycle.
        rw [List.head?_cons, Option.some.injEq] at hhead
        have htargets : (r.cut cycle.last cycle.start).targets next = pre ++ post := by
          rw [targets_cut, if_pos hhead, hnames, List.erase_append_right _ hpre,
            List.erase_cons_head]
        have hkeep : ∀ x, x ≠ next → (r.cut cycle.last cycle.start).targets x = r.targets x := by
          intro x hx
          rw [targets_cut, if_neg (hhead ▸ hx)]
        have hrest' := hrest.congr fun x _ hx => hkeep x fun e => hx (e ▸ List.mem_cons_self)
        rw [← htargets] at hrest'
        refine .inr ⟨hhead ▸ hnew, hhead ▸ h₂.subset hnext, .fresh hnot hnew hrest' ?_⟩
        exact h₂.congr fun x _ hx => hkeep x fun e => hx (e ▸ hnext)
      · -- The edge leaves a name below the new one.
        have hkeep : ∀ x, x ≠ cycle.last → (r.cut cycle.last cycle.start).targets x = r.targets x :=
          fun x hx => by rw [targets_cut, if_neg hx]
        have hne : next ≠ cycle.last := fun e => hlast (e ▸ List.mem_cons_self)
        rw [← hkeep next hne] at hrest
        refine .inr ⟨fun hv => hlast (List.mem_cons_of_mem _ hv), h₂.subset hlast',
          .fresh hnot hnew hrest ?_⟩
        exact h₂.congr fun x _ hx => hkeep x fun e => hx (e ▸ hlast')

/-- After the cut of the last edge of the first cycle, the walk records the others. -/
theorem walk_cut (h : Walk r [] [] r.keys visited' (cycle :: cycles)) :
    Walk (r.cut cycle.last cycle.start) [] [] (r.cut cycle.last cycle.start).keys visited'
      cycles := by
  rcases walk_cut_aux h with ⟨pre, post, hhead, -⟩ | ⟨-, -, hrest⟩
  · exact nomatch hhead
  · rw [keys_cut]
    exact hrest

/-! ### Edges -/

/-- How many cycles an edge closes. -/
def closedBy (x y : String) (cycles : List Cycle) : Nat := (cycles.map Cycle.edge).count (x, y)

theorem closedBy_append (x y : String) (cycles cycles' : List Cycle) :
    closedBy x y (cycles ++ cycles') = closedBy x y cycles + closedBy x y cycles' := by
  rw [closedBy, List.map_append, List.count_append]
  rfl

theorem closedBy_closing {head next : String} (hhead : trail.head? = some head)
    (hnext : next ∈ trail) (x y : String) :
    closedBy x y (closing trail next :: cycles) =
      closedBy x y cycles + if head = x ∧ next = y then 1 else 0 := by
  have hlast : (closing trail next).last = head := by
    rw [eq_cons_of_mem_trail hnext] at hhead
    exact Option.some.inj hhead
  have hedge : (closing trail next).edge = (head, next) := by
    rw [Cycle.edge, hlast]
    rfl
  rw [closedBy, List.map_cons, hedge, List.count_cons]
  simp [closedBy, Prod.ext_iff]

theorem ne_of_mem_of_not_mem_trail {y next : String} (hy : y ∈ trail) (hnext : next ∉ trail) :
    next ≠ y := fun e => hnext (e ▸ hy)

/-- Among the edges that leave names visited before, those close cycles that leave the end of the
    trail for a name of the list, if it is on the trail. -/
theorem closedBy_of_mem (h : Walk r trail visited names visited' cycles)
    (htrail : trail ⊆ visited) {x : String} (hx : x ∈ visited) (y : String) :
    closedBy x y cycles = if trail.head? = some x ∧ y ∈ trail then names.count y else 0 := by
  induction h with
  | done => simp [closedBy]
  | @back trail visited names visited' next cycles hback h ih =>
    have hhead := eq_cons_of_mem_trail hback
    rw [closedBy_closing hhead hback, ih htrail hx, hhead]
    by_cases hlast : (closing trail next).last = x
    · by_cases hy : y ∈ trail
      · simp [hlast, hy, List.count_cons]
      · have hne : next ≠ y := fun e => hy (e ▸ hback)
        simp [hy, hne]
    · simp [hlast]
  | @seen trail visited names visited' next cycles hnot _ h ih =>
    rw [ih htrail hx]
    by_cases hy : y ∈ trail
    · rw [List.count_cons_of_ne (ne_of_mem_of_not_mem_trail hy hnot)]
    · simp [hy]
  | @fresh trail visited names between visited' next cycles₁ cycles₂ hnot hnew h₁ h₂ ih ih' =>
    have hne : next ≠ x := fun e => hnew (e ▸ hx)
    have hsub := h₁.subset_of_fresh
    rw [closedBy_append, ih (List.cons_subset_cons _ htrail) (List.mem_cons_of_mem _ hx),
      ih' (List.Subset.trans htrail hsub) (hsub hx), List.head?_cons]
    by_cases hy : y ∈ trail
    · rw [List.count_cons_of_ne (ne_of_mem_of_not_mem_trail hy hnot)]
      simp [hne]
    · simp [hne, hy]

/-- No edge that leaves a name visited before closes a cycle, unless the name is on the trail. -/
theorem closedBy_of_not_mem_trail (h : Walk r trail visited names visited' cycles)
    (htrail : trail ⊆ visited) {x : String} (hx : x ∈ visited) (hnot : x ∉ trail) (y : String) :
    closedBy x y cycles = 0 := by
  rw [closedBy_of_mem h htrail hx, if_neg]
  exact fun hand => hnot (List.mem_of_mem_head? hand.1)

/-- No edge that leaves a name still to be visited closes a cycle. -/
theorem closedBy_of_not_mem (h : Walk r trail visited names visited' cycles)
    (htrail : trail ⊆ visited) {x : String} (hx : x ∉ visited') (y : String) :
    closedBy x y cycles = 0 := by
  induction h with
  | done => rfl
  | @back trail visited names visited' next cycles hback h ih =>
    have hhead := eq_cons_of_mem_trail hback
    have hlast : (closing trail next).last ≠ x := fun e =>
      hx (e ▸ h.subset (htrail (List.mem_of_mem_head? hhead)))
    rw [closedBy_closing hhead hback, ih htrail hx]
    simp [hlast]
  | seen _ _ _ ih => exact ih htrail hx
  | fresh _ _ h₁ h₂ ih ih' =>
    rw [closedBy_append, ih (List.cons_subset_cons _ htrail) fun hmem => hx (h₂.subset hmem),
      ih' (List.Subset.trans htrail h₁.subset_of_fresh) hx]

/-- An edge that leaves a name not visited before closes as many cycles as it occurs, or none: the
    name is visited once, if at all, and then all its targets are looked at. -/
theorem closedBy_eq_zero_or (h : Walk r trail visited names visited' cycles)
    (htrail : trail ⊆ visited) {x : String} (hx : x ∉ visited) (y : String) :
    closedBy x y cycles = 0 ∨ closedBy x y cycles = (r.targets x).count y := by
  induction h with
  | done => exact .inl rfl
  | @back trail visited names visited' next cycles hback h ih =>
    have hhead := eq_cons_of_mem_trail hback
    have hlast : (closing trail next).last ≠ x := fun e =>
      hx (e ▸ htrail (List.mem_of_mem_head? hhead))
    rw [closedBy_closing hhead hback, if_neg fun hand => hlast hand.1]
    exact ih htrail hx
  | seen _ _ _ ih => exact ih htrail hx
  | @fresh trail visited names between visited' next cycles₁ cycles₂ hnot hnew h₁ h₂ ih ih' =>
    have htrail₁ := List.cons_subset_cons next htrail
    have htrail₂ := List.Subset.trans htrail h₁.subset_of_fresh
    -- What is closed after the name is left does not leave a name visited by then.
    have hafter : x ∈ between → closedBy x y cycles₂ = 0 := fun hxb =>
      closedBy_of_not_mem_trail h₂ htrail₂ hxb (fun hmem => hx (htrail hmem)) y
    rw [closedBy_append]
    by_cases hnext : x = next
    · subst hnext
      rw [closedBy_of_mem h₁ htrail₁ List.mem_cons_self, hafter (h₁.subset List.mem_cons_self)]
      by_cases hy : y ∈ x :: trail
      · exact .inr (by rw [if_pos ⟨rfl, hy⟩, Nat.add_zero])
      · exact .inl (by rw [if_neg fun hand => hy hand.2])
    · by_cases hxb : x ∈ between
      · rw [hafter hxb, Nat.add_zero]
        exact ih htrail₁ fun hmem => (List.mem_cons.1 hmem).elim hnext hx
      · rw [closedBy_of_not_mem h₁ htrail₁ hxb, Nat.zero_add]
        exact ih' htrail₂ hxb

/-! ### Chains of edges -/

/-- A cycle is one of the relation: each name of the chain is a target of the one before. -/
def HasCycle (r : Relation) (cycle : Cycle) : Prop :=
  List.IsChain (fun a b => b ∈ r.targets a) cycle.names

/-- The names between the end of a trail and a name on it are those of the cycle that the step
    closes: the trail leads from its start to its last name. -/
theorem chain_closing {K : String → String → Prop} {next : String}
    (htrail : trail.IsChain fun b a => K a b) (hmem : next ∈ trail) :
    (next :: (closing trail next).rest).IsChain K := by
  obtain ⟨pre, post, rfl, hpre⟩ := List.eq_append_cons_of_mem hmem
  have htake : (pre ++ next :: post).takeWhile (· ≠ next) = pre := by
    rw [List.takeWhile_append_of_pos, List.takeWhile_cons_of_neg (by simp), List.append_nil]
    exact fun x hx => decide_eq_true fun e => hpre (e ▸ hx)
  have hrest : next :: (closing (pre ++ next :: post) next).rest = (pre ++ [next]).reverse := by
    rw [closing, htake, List.reverse_append]
    rfl
  rw [List.append_cons] at htrail
  rw [hrest, List.isChain_reverse]
  exact htrail.left_of_append

/-- The step from the end of a trail back to a name on it closes a cycle. -/
theorem hasCycle_closing {next : String} (htrail : trail.IsChain fun b a => b ∈ r.targets a)
    (hmem : next ∈ trail) (hhead : ∀ head ∈ trail.head?, next ∈ r.targets head) :
    r.HasCycle (closing trail next) :=
  Cycle.isChain_names_iff.2
    ⟨chain_closing htrail hmem, hhead _ (eq_cons_of_mem_trail hmem)⟩

/-- Every cycle that a walk records is one of the relation. -/
theorem hasCycle_of_walk (h : Walk r trail visited names visited' cycles)
    (htrail : trail.IsChain fun b a => b ∈ r.targets a)
    (hnames : ∀ head ∈ trail.head?, names ⊆ r.targets head) :
    ∀ cycle ∈ cycles, r.HasCycle cycle := by
  induction h with
  | done => exact fun _ h => nomatch h
  | back hback _ ih =>
    refine List.forall_mem_cons.2 ⟨hasCycle_closing htrail hback ?_, ih htrail ?_⟩
    · exact fun head hhead => hnames head hhead List.mem_cons_self
    · exact fun head hhead => (List.cons_subset.1 (hnames head hhead)).2
  | seen _ _ _ ih =>
    exact ih htrail fun head hhead => (List.cons_subset.1 (hnames head hhead)).2
  | @fresh trail visited names between visited' next cycles₁ cycles₂ _ _ _ _ ih ih' =>
    refine List.forall_mem_append.2 ⟨ih ?_ ?_, ih' htrail ?_⟩
    · refine List.isChain_cons.2 ⟨fun head hhead => ?_, htrail⟩
      exact hnames head hhead List.mem_cons_self
    · rintro head ⟨⟩
      exact List.Subset.refl _
    · exact fun head hhead => (List.cons_subset.1 (hnames head hhead)).2

/-! ### Walks without cycles -/

/-- If a walk records nothing, no chain of edges from the names that it visits goes on without
    end, unless they are on the trail. -/
theorem acc_of_walk (h : Walk r trail visited names visited' [])
    (hv : ∀ x ∈ visited, x ∈ trail ∨ Acc (fun b a => b ∈ r.targets a) x) :
    (∀ x ∈ visited', x ∈ trail ∨ Acc (fun b a => b ∈ r.targets a) x) ∧
      ∀ x ∈ names, Acc (fun b a => b ∈ r.targets a) x := by
  generalize hnil : ([] : List Cycle) = cycles at h
  induction h with
  | done => exact ⟨hv, fun _ h => nomatch h⟩
  | back => exact nomatch hnil
  | seen hnot hseen _ ih =>
    obtain ⟨hvisited, hnames⟩ := ih hv hnil
    exact ⟨hvisited, List.forall_mem_cons.2 ⟨(hv _ hseen).resolve_left hnot, hnames⟩⟩
  | @fresh trail visited names between visited' next cycles₁ cycles₂ hnot _ h₁ _ ih ih' =>
    obtain ⟨rfl, rfl⟩ := List.append_eq_nil_iff.1 hnil.symm
    have hbelow : ∀ x ∈ next :: visited, x ∈ next :: trail ∨
        Acc (fun b a => b ∈ r.targets a) x := by
      intro x hx
      rcases List.mem_cons.1 hx with rfl | hx
      · exact .inl List.mem_cons_self
      · exact (hv x hx).imp_left (List.mem_cons_of_mem _)
    obtain ⟨hbetween, htargets⟩ := ih hbelow rfl
    -- All targets of the new name are done, and so is the name.
    have hnext : Acc (fun b a => b ∈ r.targets a) next := Acc.intro next htargets
    have hafter : ∀ x ∈ between, x ∈ trail ∨ Acc (fun b a => b ∈ r.targets a) x := by
      intro x hx
      rcases hbetween x hx with hx | hx
      · rcases List.mem_cons.1 hx with rfl | hx
        · exact .inr hnext
        · exact .inl hx
      · exact .inr hx
    obtain ⟨hvisited, hnames⟩ := ih' hafter rfl
    exact ⟨hvisited, List.forall_mem_cons.2 ⟨hnext, hnames⟩⟩

/-- Only the names of a relation lead anywhere. -/
theorem mem_keys_of_mem_targets {x y : String} (h : y ∈ r.targets x) : x ∈ r.keys := by
  by_contra hx
  rw [targets, Table.get?_eq_none_iff.2 hx] at h
  exact List.not_mem_nil h

/-- A relation of which the walk records nothing has no cycle. -/
theorem acyclic_of_walk (h : Walk r [] [] r.keys visited' []) (x : String) :
    ¬Relation.TransGen (fun a b => b ∈ r.targets a) x x := by
  have hacc : Acc (fun b a => b ∈ r.targets a) x := by
    by_cases hx : x ∈ r.keys
    · exact (acc_of_walk h fun _ h => absurd h List.not_mem_nil).2 x hx
    · exact Acc.intro x fun y hy => absurd (mem_keys_of_mem_targets hy) hx
  have htrans := hacc.transGen
  clear hacc
  induction htrans with
  | intro x _ ih =>
    exact fun hcycle => ih x (Relation.transGen_swap.2 hcycle) hcycle

/-! ### The cuts all together -/

theorem mem_edge_iff {x y : String} :
    (x, y) ∈ cycles.map Cycle.edge ↔ closedBy x y cycles ≠ 0 := by
  rw [closedBy, ne_eq, List.count_eq_zero, not_not]

/-- The last edges of the recorded cycles are edges of the relation. -/
theorem start_mem_targets (h : Walk r [] [] r.keys visited' cycles) {cycle : Cycle}
    (hcycle : cycle ∈ cycles) : cycle.start ∈ r.targets cycle.last := by
  have hmem : (cycle.last, cycle.start) ∈ cycles.map Cycle.edge := List.mem_map_of_mem hcycle
  rcases closedBy_eq_zero_or h (List.Subset.refl _) List.not_mem_nil cycle.start with hzero | hcount
  · exact absurd hzero (mem_edge_iff.1 hmem)
  · rw [mem_edge_iff, hcount, ne_eq, List.count_eq_zero, not_not] at hmem
    exact hmem

theorem length_flatten_erase {xs : List (String × List String)} (hxs : (xs.map Prod.fst).Nodup)
    {source target : String} (htarget : target ∈ (Table.find? source xs).getD []) :
    (xs.map fun (k, ts) => if k = source then ts.erase target else ts).flatten.length + 1 =
      (xs.map Prod.snd).flatten.length := by
  induction xs with
  | nil => exact nomatch htarget
  | cons x xs ih =>
    obtain ⟨k, ts⟩ := x
    rw [List.map_cons, List.nodup_cons] at hxs
    simp only [List.map_cons, List.flatten_cons, List.length_append]
    by_cases hk : k = source
    · -- The other entries have other keys.
      subst hk
      have hrest : (xs.map fun (k', ts) => if k' = k then ts.erase target else ts) =
          xs.map Prod.snd := by
        refine List.map_congr_left fun e he => if_neg fun hkey => hxs.1 ?_
        rw [← hkey]
        exact List.mem_map.2 ⟨e, he, rfl⟩
      rw [Table.find?, if_pos rfl, Option.getD_some] at htarget
      have hlength := List.length_erase_of_mem htarget
      have hpos := List.length_pos_of_mem htarget
      rw [hrest, if_pos rfl]
      omega
    · rw [Table.find?, if_neg hk] at htarget
      have hrest := ih hxs.2 htarget
      rw [if_neg hk, Nat.add_assoc, hrest]

/-- A cut takes one edge away. -/
theorem edgeCount_cut {source target : String} (h : target ∈ r.targets source) :
    (r.cut source target).edgeCount + 1 = r.edgeCount := by
  have hlength := length_flatten_erase r.nodup h
  have hcut : (r.cut source target).values =
      r.entries.map fun (k, ts) => if k = source then ts.erase target else ts := by
    rw [Table.values, cut, Table.modify, Table.map, List.map_map]
    rfl
  rw [edgeCount, edgeCount, hcut]
  exact hlength

/-- The relation without the last edges of some cycles. -/
def cutAll (r : Relation) (cycles : List Cycle) : Relation :=
  cycles.foldl (fun r cycle => r.cut cycle.last cycle.start) r

/-- The cycles broken are those that the walk records, and no cycle is left. -/
theorem breakFrom_of_walk {fuel : Nat} (h : Walk r [] [] r.keys visited' cycles)
    (hfuel : r.edgeCount < fuel) :
    breakFrom fuel r = (r.cutAll cycles, cycles) ∧
      Walk (r.cutAll cycles) [] [] (r.cutAll cycles).keys visited' [] := by
  induction cycles generalizing r fuel with
  | nil =>
    obtain ⟨n, rfl⟩ : ∃ n, fuel = n + 1 := ⟨fuel - 1, by omega⟩
    rw [breakFrom, findCycle_of_walk h]
    exact ⟨rfl, h⟩
  | cons cycle cycles ih =>
    obtain ⟨n, rfl⟩ : ∃ n, fuel = n + 1 := ⟨fuel - 1, by omega⟩
    have hcount := edgeCount_cut (start_mem_targets h List.mem_cons_self)
    have hless : (r.cut cycle.last cycle.start).edgeCount < n := by omega
    obtain ⟨hbreak, hleft⟩ := ih (walk_cut h) hless
    rw [breakFrom, findCycle_of_walk h, List.head?_cons]
    refine ⟨?_, hleft⟩
    dsimp only
    rw [hbreak]
    rfl

/-- One walk tells which cycles are broken, and what is left. -/
theorem exists_walk_breakCycles (r : Relation) : ∃ visited' cycles,
    Walk r [] [] r.keys visited' cycles ∧ r.breakCycles = (r.cutAll cycles, cycles) ∧
      Walk (r.cutAll cycles) [] [] (r.cutAll cycles).keys visited' [] := by
  obtain ⟨visited', cycles, h⟩ := r.exists_walk
  exact ⟨visited', cycles, h, breakFrom_of_walk h (Nat.lt_succ_self _)⟩

theorem count_targets_cutAll (r : Relation) (cycles : List Cycle) (x y : String) :
    ((r.cutAll cycles).targets x).count y = (r.targets x).count y - closedBy x y cycles := by
  induction cycles generalizing r with
  | nil => rfl
  | cons cycle cycles ih =>
    change ((cutAll (r.cut cycle.last cycle.start) cycles).targets x).count y = _
    have hclosed : closedBy x y (cycle :: cycles) =
        closedBy x y cycles + if cycle.last = x ∧ cycle.start = y then 1 else 0 := by
      rw [closedBy, List.map_cons, List.count_cons]
      simp [closedBy, Cycle.edge, Prod.ext_iff]
    rw [ih, targets_cut, hclosed]
    by_cases hx : x = cycle.last
    · subst hx
      rw [if_pos rfl, List.count_erase]
      by_cases hy : cycle.start = y
      · simp [hy]
        omega
      · simp [hy]
    · rw [if_neg hx, if_neg fun hand => hx hand.1.symm, Nat.add_zero]

/-- What is cut of a relation: the last edges of the cycles reported, at each of their occurrences.
    Each reported cycle is one of the relation, and what is left has no cycle. -/
theorem breakCycles_spec (r : Relation) :
    (∀ x y, closedBy x y r.breakCycles.2 = 0 ∨
        closedBy x y r.breakCycles.2 = (r.targets x).count y) ∧
      (∀ cycle ∈ r.breakCycles.2, r.HasCycle cycle) ∧
      ∀ x, ¬Relation.TransGen
        (fun a b => b ∈ r.targets a ∧ (a, b) ∉ r.breakCycles.2.map Cycle.edge) x x := by
  obtain ⟨visited', cycles, h, hbreak, hleft⟩ := r.exists_walk_breakCycles
  have hcycles : r.breakCycles.2 = cycles := by rw [hbreak]
  have hclosed := fun x y =>
    closedBy_eq_zero_or h (List.Subset.refl _) (x := x) List.not_mem_nil y
  rw [hcycles]
  refine ⟨hclosed, hasCycle_of_walk h List.isChain_nil (fun _ h => nomatch h), fun x hcycle => ?_⟩
  -- An edge that closes no cycle occurs in what is left as often as before.
  have hmono := Relation.TransGen.mono (r := fun a b => b ∈ r.targets a ∧
    (a, b) ∉ cycles.map Cycle.edge) (p := fun a b => b ∈ (r.cutAll cycles).targets a) ?_
  · exact acyclic_of_walk hleft x (hmono x x hcycle)
  intro a b hab
  have hzero : closedBy a b cycles = 0 := by
    by_contra hne
    exact hab.2 (mem_edge_iff.2 hne)
  rw [← List.count_pos_iff, count_targets_cutAll, hzero]
  exact List.count_pos_iff.2 hab.1

end Deployment.Relation

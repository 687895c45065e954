import Deployment.Proofs.Forest.Layout
import Deployment.Proofs.Forest.Trees
import Mathlib.Logic.Relation

/-!
# The links of a forest

A forest keeps every link twice, in a child and in its parent. It is *tree-shaped* if the two agree
and every instance has one place at most (`TreeShaped`). The instances below the roots are then
those that can be told of from parent to child (`TreeShaped.induction`).

* `treeShaped_ofTrees`: the forest of some trees is tree-shaped;
* `get?_modifyInstance`, `parent?_modifyInstance`: a change to an instance leaves the links and the
  other instances alone.
-/

namespace Deployment.Forest

variable {f : Forest}

/-! ### Changes to an instance -/

theorem node?_modify (f : Forest) (id other : Nat) (change : Node → Node) :
    (f.modify id change).node? other =
      if id = other then (f.node? other).map change else f.node? other :=
  Array.getElem?_modify

theorem get?_modifyInstance (f : Forest) (id other : Nat) (change : Instance → Instance) :
    (f.modifyInstance id change).get? other =
      if id = other then (f.get? other).map change else f.get? other := by
  rw [get?, modifyInstance, node?_modify, get?]
  split
  · rw [Option.map_map, Option.map_map]
    rfl
  · rfl

theorem parent?_modifyInstance (f : Forest) (id other : Nat) (change : Instance → Instance) :
    (f.modifyInstance id change).parent? other = f.parent? other := by
  rw [parent?, modifyInstance, node?_modify, parent?]
  split
  · rw [Option.bind_map]
    rfl
  · rfl

/-! ### Forests that are tree-shaped -/

/-- Every instance has one place at most, at the roots or below another instance; parents and
    children know of each other; and nothing is above itself. -/
structure TreeShaped (f : Forest) : Prop where
  within : ∀ id ∈ f.roots, id < f.nodes.size
  once : (f.roots ++ (List.range f.nodes.size).flatMap f.children).Nodup
  parent_iff : ∀ child parent, f.parent? child = some parent ↔ child ∈ f.children parent
  acyclic : ∀ id, ¬Relation.TransGen (fun child parent => f.parent? child = some parent) id id

theorem lt_of_mem_children {child parent : Nat} (h : child ∈ f.children parent) :
    parent < f.nodes.size := by
  by_contra hge
  have hnone : f.node? parent = none := Array.getElem?_eq_none (Nat.le_of_not_lt hge)
  rw [children, hnone] at h
  exact List.not_mem_nil h

/-- A root has no parent. -/
theorem TreeShaped.parent?_of_mem_roots (h : f.TreeShaped) {id : Nat} (hid : id ∈ f.roots) :
    f.parent? id = none := by
  rw [Option.eq_none_iff_forall_ne_some]
  intro parent hparent
  have hchild := (h.parent_iff id parent).1 hparent
  refine (List.nodup_append.1 h.once).2.2 id hid id (List.mem_flatMap.2 ⟨parent, ?_, hchild⟩) rfl
  exact List.mem_range.2 (lt_of_mem_children hchild)

/-- What holds of an instance if it holds of its parent holds of all instances below the roots. -/
theorem TreeShaped.induction (h : f.TreeShaped) {P : Nat → Prop}
    (hstep : ∀ id ∈ f.all, (∀ parent, f.parent? id = some parent → P parent) → P id) :
    ∀ id ∈ f.all, P id := by
  have hlevels : ∀ (fuel : Nat) (level : List Nat), f.levelsFrom fuel level ⊆ f.all →
      (∀ id ∈ level, id ∈ f.all → P id) → ∀ id ∈ f.levelsFrom fuel level, P id := by
    intro fuel
    induction fuel with
    | zero => exact fun _ _ _ _ hid => absurd hid List.not_mem_nil
    | succ fuel ih =>
      intro level hall hlevel id hid
      have hbelow : f.levelsFrom fuel (level.flatMap f.children) ⊆ f.all := fun i hi =>
        hall (f.mem_levelsFrom_succ.2 (.inr hi))
      rcases f.mem_levelsFrom_succ.1 hid with hid' | hid'
      · exact hlevel id hid' (hall hid)
      · refine ih _ hbelow (fun child hchild hmem => ?_) id hid'
        obtain ⟨parent, hparent, hchild⟩ := List.mem_flatMap.1 hchild
        refine hstep child hmem fun parent' hparent' => ?_
        rw [(h.parent_iff child parent).2 hchild, Option.some.injEq] at hparent'
        exact hparent' ▸ hlevel parent hparent (hall (f.mem_levelsFrom_succ.2 (.inl hparent)))
  intro id hid
  refine hlevels _ f.roots (fun i hi => f.mem_all_iff.2 hi) (fun root hroot hmem => ?_) id
    (f.mem_all_iff.1 hid)
  refine hstep root hmem fun parent hparent => ?_
  rw [h.parent?_of_mem_roots hroot] at hparent
  exact nomatch hparent

/-! ### Forests made of trees -/

theorem links_of_laidAll {ts : List (Tree Instance)}
    (ih : ∀ t ∈ ts, ∀ parent n, Laid f parent n t →
      (n :: (List.range' n t.size).flatMap f.children).Perm (List.range' n t.size))
    {parent : Option Nat} {n : Nat} (h : LaidAll f parent n ts) :
    (indices n ts ++ (List.range' n (Tree.sizes ts)).flatMap f.children).Perm
      (List.range' n (Tree.sizes ts)) := by
  induction ts generalizing n with
  | nil => exact .refl _
  | cons t ts ihts =>
    have hfirst := ih t List.mem_cons_self parent n h.1
    have hrest := ihts (fun u hu => ih u (List.mem_cons_of_mem _ hu)) h.2
    rw [indices, Tree.sizes, ← List.range'_append_1, List.flatMap_append, List.cons_append]
    exact ((List.perm_append_comm_assoc ..).cons n).trans (hfirst.append hrest)

/-- The nodes of a tree are its root and the children of its nodes, in another order. -/
theorem links_of_laid (t : Tree Instance) (parent : Option Nat) (n : Nat) (h : Laid f parent n t) :
    (n :: (List.range' n t.size).flatMap f.children).Perm (List.range' n t.size) := by
  induction t using Tree.inductionOn generalizing parent n with
  | node body cs ih =>
    have hchildren : f.children n = indices (n + 1) cs := by
      rw [(children_of_laid h).1, indices_eq_map]
      rfl
    rw [Tree.size, List.range'_succ, List.flatMap_cons, hchildren]
    exact (links_of_laidAll ih h.2).cons n

/-- All nodes of a forest made of trees are its roots and the children of all, in another order. -/
theorem links_ofTrees (ts : List (Tree Instance)) :
    ((ofTrees ts).roots ++ (List.range (ofTrees ts).nodes.size).flatMap (ofTrees ts).children).Perm
      (List.range (ofTrees ts).nodes.size) := by
  rw [size_ofTrees, List.range_eq_range']
  exact links_of_laidAll (fun t _ => links_of_laid t) (laidAll_ofTrees ts)

theorem le_of_mem_placedFrom {n : Nat} {ts : List (Tree Instance)} {q : Nat × Tree Instance}
    (hq : q ∈ placedFrom n ts) : n ≤ q.1 := by
  induction ts generalizing n with
  | nil => exact absurd hq List.not_mem_nil
  | cons t ts ih =>
    rcases List.mem_cons.1 hq with rfl | hq
    · exact le_rfl
    · exact (Nat.le_add_right _ _).trans (ih hq)

/-- A parent comes before its children. -/
theorem lt_of_mem_children_ofTrees {ts : List (Tree Instance)} {child parent : Nat}
    (h : child ∈ (ofTrees ts).children parent) : parent < child := by
  have hparent := lt_of_mem_children h
  rw [size_ofTrees] at hparent
  obtain ⟨above, t, hlaid⟩ := exists_laid_of_lt_of
    (fun t _ parent n => exists_laid_of_lt t parent n) (laidAll_ofTrees ts) (Nat.zero_le parent)
    (by rwa [Nat.zero_add])
  rw [(children_of_laid hlaid).1] at h
  obtain ⟨q, hq, rfl⟩ := List.mem_map.1 h
  exact le_of_mem_placedFrom hq

theorem parent?_ofTrees_iff {ts : List (Tree Instance)} {child parent : Nat} :
    (ofTrees ts).parent? child = some parent ↔ child ∈ (ofTrees ts).children parent := by
  have hall : ∀ id, id < (ofTrees ts).nodes.size → id ∈ (ofTrees ts).all := by
    intro id hid
    rw [(all_ofTrees_perm ts).mem_iff, List.mem_range]
    rwa [size_ofTrees] at hid
  have hchild : ∀ p, child ∈ (ofTrees ts).children p → (ofTrees ts).parent? child = some p :=
    fun p hp => (parent?_of_mem_children (hall p (lt_of_mem_children hp)) hp).2
  refine ⟨fun h => ?_, hchild parent⟩
  -- The child is a root or a child of something, which must then be its parent.
  obtain ⟨node, hnode, -⟩ := Option.bind_eq_some_iff.1 h
  have hlt := (Array.getElem?_eq_some_iff.1 hnode).1
  rcases List.mem_append.1 ((links_ofTrees ts).mem_iff.2 (List.mem_range.2 hlt)) with hroot | hbelow
  · exact absurd ((parent?_of_mem_roots hroot).2.symm.trans h) (Option.some_ne_none parent).symm
  · obtain ⟨p, -, hp⟩ := List.mem_flatMap.1 hbelow
    obtain rfl := Option.some.inj ((hchild p hp).symm.trans h)
    exact hp

/-- The forest of some trees is tree-shaped. -/
theorem treeShaped_ofTrees (ts : List (Tree Instance)) : (ofTrees ts).TreeShaped where
  within id hid := List.mem_range.1 ((links_ofTrees ts).mem_iff.1 (List.mem_append_left _ hid))
  once := (links_ofTrees ts).nodup_iff.2 List.nodup_range
  parent_iff _ _ := parent?_ofTrees_iff
  acyclic id hid := by
    have hless : ∀ {a b}, Relation.TransGen
        (fun child parent => (ofTrees ts).parent? child = some parent) a b → b < a := by
      intro a b hab
      induction hab with
      | single h => exact lt_of_mem_children_ofTrees (parent?_ofTrees_iff.1 h)
      | tail _ h ih => exact (lt_of_mem_children_ofTrees (parent?_ofTrees_iff.1 h)).trans ih
    exact absurd (hless hid) (Nat.lt_irrefl id)

theorem treeShaped_empty : empty.TreeShaped := treeShaped_ofTrees []

end Deployment.Forest

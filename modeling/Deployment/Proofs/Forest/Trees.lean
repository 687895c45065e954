import Deployment.Forest
import Deployment.Proofs.Tree

/-!
# The trees of a forest

A forest is written, compared and copied by the trees below its roots. They hold the instances that
stand below the roots, and nothing else (`mem_preorders_toTrees`), so that what is known of these
instances, index by index, is known of the trees.

* `Forest.mapInstances`: every instance changed, the links left alone;
* `Forest.namesOf`: the names of some instances; where they differ among the roots and among the
  children of every instance, no two trees side by side have the same name
  (`distinctAll_toTrees`).
-/

namespace Deployment.Forest

open Deployment.Tree

variable (f : Forest)

/-- Every instance changed, the links left alone. -/
def mapInstances (change : Instance → Instance) : Forest :=
  { f with nodes := f.nodes.map fun n => { n with body := change n.body } }

/-- The names of some instances. -/
def namesOf (ids : List Nat) : List String := ids.filterMap fun id => (f.get? id).map (·.name)

/-! ### Nodes -/

theorem get?_of_node? {f : Forest} {id : Nat} {n : Node} (h : f.node? id = some n) :
    f.get? id = some n.body := by
  rw [get?, h]
  rfl

theorem children_of_node? {f : Forest} {id : Nat} {n : Node} (h : f.node? id = some n) :
    f.children id = n.children := by
  rw [children, h]
  rfl

/-! ### Levels -/

theorem levelsFrom_nil (fuel : Nat) : f.levelsFrom fuel [] = [] := by
  cases fuel with
  | zero => rfl
  | succ => rw [levelsFrom, if_pos rfl]

theorem mem_levelsFrom_succ {fuel id : Nat} {level : List Nat} :
    id ∈ f.levelsFrom (fuel + 1) level ↔
      id ∈ level ∨ id ∈ f.levelsFrom fuel (level.flatMap f.children) := by
  rw [levelsFrom]
  split
  · next hlevel =>
    rw [hlevel, List.flatMap_nil, levelsFrom_nil, or_self_iff]
  · exact List.mem_append

/-- A walk by levels meets what the walks from the single instances of the level meet. -/
theorem mem_levelsFrom_flatMap {α : Type} {g : α → List Nat} {fuel id : Nat} {xs : List α} :
    id ∈ f.levelsFrom fuel (xs.flatMap g) ↔ ∃ x ∈ xs, id ∈ f.levelsFrom fuel (g x) := by
  induction fuel generalizing α with
  | zero =>
    refine iff_of_false List.not_mem_nil ?_
    rintro ⟨_, -, h⟩
    exact List.not_mem_nil h
  | succ fuel ih =>
    simp only [mem_levelsFrom_succ, List.flatMap_assoc, ih, List.mem_flatMap, ← exists_or,
      ← and_or_left]

theorem mem_all_iff {id : Nat} : id ∈ f.all ↔ id ∈ f.levelsFrom f.nodes.size f.roots := by
  have hsingle : f.roots.flatMap (fun root => [root]) = f.roots := List.flatMap_singleton' f.roots
  rw [← hsingle, mem_levelsFrom_flatMap, all, List.mem_flatMap]
  rfl

/-! ### Trees and levels -/

/-- The trees below some instances hold what a walk by levels meets. -/
theorem mem_preorders_treesFrom {fuel : Nat} {ids : List Nat} {i : Instance} :
    i ∈ preorders (f.treesFrom fuel ids) ↔ ∃ id ∈ f.levelsFrom fuel ids, f.get? id = some i := by
  induction fuel generalizing ids with
  | zero =>
    refine iff_of_false List.not_mem_nil ?_
    rintro ⟨_, h, -⟩
    exact List.not_mem_nil h
  | succ fuel ih =>
    -- An index stands for the instance there and for those below it,
    have htree : ∀ {id : Nat} {n : Node}, f.node? id = some n →
        (i ∈ (Tree.node n.body (f.treesFrom fuel n.children)).preorder ↔
          f.get? id = some i ∨
            ∃ below ∈ f.levelsFrom fuel (f.children id), f.get? below = some i) := by
      intro id n hn
      rw [preorder, List.mem_cons, ih, get?_of_node? hn, children_of_node? hn, Option.some.injEq,
        eq_comm]
    -- or, where there is no node, for none at all.
    have hnone : ∀ {id : Nat}, f.node? id = none → f.get? id = none ∧
        ∀ below, below ∉ f.levelsFrom fuel (f.children id) := by
      intro id hn
      have hchildren : f.children id = [] := by rw [children, hn]; rfl
      rw [hchildren, levelsFrom_nil]
      exact ⟨by rw [get?, hn]; rfl, fun _ => List.not_mem_nil⟩
    simp only [mem_levelsFrom_succ, mem_levelsFrom_flatMap, treesFrom, preorders_eq_flatMap,
      List.mem_flatMap, List.mem_filterMap, Option.map_eq_some_iff]
    constructor
    · rintro ⟨_, ⟨id, hid, n, hn, rfl⟩, hi⟩
      rcases (htree hn).1 hi with hget | ⟨below, hbelow, hget⟩
      · exact ⟨id, .inl hid, hget⟩
      · exact ⟨below, .inr ⟨id, hid, hbelow⟩, hget⟩
    · rintro ⟨id, hid | ⟨above, habove, hbelow⟩, hget⟩
      · cases hn : f.node? id with
        | none => exact absurd ((hnone hn).1.symm.trans hget) (Option.some_ne_none _).symm
        | some n => exact ⟨_, ⟨id, hid, n, hn, rfl⟩, (htree hn).2 (.inl hget)⟩
      · cases hn : f.node? above with
        | none => exact absurd hbelow ((hnone hn).2 id)
        | some n => exact ⟨_, ⟨above, habove, n, hn, rfl⟩, (htree hn).2 (.inr ⟨id, hbelow, hget⟩)⟩

/-- The trees of a forest hold the instances that stand below its roots. -/
theorem mem_preorders_toTrees {i : Instance} :
    i ∈ preorders f.toTrees ↔ ∃ id ∈ f.all, f.get? id = some i := by
  rw [toTrees, mem_preorders_treesFrom]
  simp only [mem_all_iff]

/-- What holds of the instances below the roots, index by index, holds of those in the trees. -/
theorem forall_mem_preorders_toTrees {P : Instance → Prop} :
    (∀ i ∈ preorders f.toTrees, P i) ↔ ∀ id ∈ f.all, ∀ i, f.get? id = some i → P i := by
  simp only [mem_preorders_toTrees]
  exact ⟨fun h id hid i hi => h i ⟨id, hid, hi⟩, fun h i ⟨id, hid, hi⟩ => h id hid i hi⟩

/-! ### Changed instances -/

theorem node?_mapInstances (change : Instance → Instance) (id : Nat) :
    (f.mapInstances change).node? id =
      (f.node? id).map fun n => { n with body := change n.body } := by
  rw [node?, mapInstances, Array.getElem?_map]
  rfl

theorem treesFrom_mapInstances (change : Instance → Instance) (fuel : Nat) (ids : List Nat) :
    (f.mapInstances change).treesFrom fuel ids = (f.treesFrom fuel ids).map (Tree.map change) := by
  induction fuel generalizing ids with
  | zero => rfl
  | succ fuel ih =>
    rw [treesFrom, treesFrom, List.map_filterMap]
    refine List.filterMap_congr fun id _ => ?_
    rw [node?_mapInstances]
    cases f.node? id with
    | none => rfl
    | some n => simp only [Option.map_some, ih, map_node]

/-- Changing the instances changes the trees value by value. -/
theorem toTrees_mapInstances (change : Instance → Instance) :
    (f.mapInstances change).toTrees = mapAll change f.toTrees := by
  have hsize : (f.mapInstances change).nodes.size = f.nodes.size := Array.size_map ..
  rw [toTrees, hsize, treesFrom_mapInstances, mapAll_eq_map]
  rfl

/-! ### Names side by side -/

theorem map_name_treesFrom (fuel : Nat) (ids : List Nat) :
    ((f.treesFrom (fuel + 1) ids).map fun t => t.value.name) = f.namesOf ids := by
  rw [treesFrom, List.map_filterMap, namesOf]
  refine List.filterMap_congr fun id _ => ?_
  rw [get?]
  cases f.node? id <;> rfl

theorem distinctAll_treesFrom {fuel : Nat} {ids : List Nat} (hids : (f.namesOf ids).Nodup)
    (hbelow : ∀ id ∈ f.levelsFrom fuel ids, (f.namesOf (f.children id)).Nodup) :
    DistinctAll (·.name) (f.treesFrom fuel ids) := by
  induction fuel generalizing ids with
  | zero => exact ⟨List.nodup_nil, fun _ h => nomatch h⟩
  | succ fuel ih =>
    refine ⟨(f.map_name_treesFrom fuel ids).symm ▸ hids, fun t ht => ?_⟩
    obtain ⟨id, hid, heq⟩ := List.mem_filterMap.1 ht
    obtain ⟨n, hn, rfl⟩ := Option.map_eq_some_iff.1 heq
    have hchildren : f.children id = n.children := by rw [children, hn]; rfl
    refine distinct_iff.2 (ih ?_ fun below h => hbelow below ?_)
    · rw [← hchildren]
      exact hbelow id (f.mem_levelsFrom_succ.2 (.inl hid))
    · rw [← hchildren] at h
      exact f.mem_levelsFrom_succ.2 (.inr (f.mem_levelsFrom_flatMap.2 ⟨id, hid, h⟩))

/-- If the roots differ in name, and the children of every instance do, then no two trees side by
    side have the same name. -/
theorem distinctAll_toTrees (hroots : (f.namesOf f.roots).Nodup)
    (hchildren : ∀ id ∈ f.all, (f.namesOf (f.children id)).Nodup) :
    DistinctAll (·.name) f.toTrees :=
  f.distinctAll_treesFrom hroots fun id hid => hchildren id (f.mem_all_iff.2 hid)

end Deployment.Forest

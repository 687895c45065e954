import Deployment.Forest
import Deployment.Proofs.Tree
import Mathlib.Algebra.GroupWithZero.Nat
import Mathlib.Algebra.Order.BigOperators.Group.List
import Mathlib.Algebra.Order.Group.Nat
import Mathlib.Data.List.Range

/-!
# Forests laid out from trees

`Forest.ofTrees` writes trees down as nodes, a parent before what is below it, tree after tree.

* `laidAll_ofTrees`: the nodes of the forest are those of the trees (`Laid`);
* `all_ofTrees_perm`: what stands below the roots is every node, once;
* `parent?_of_mem_roots`, `parent?_of_mem_children`: parents and children are links to each other;
* `toTrees_ofTrees`: the trees can be read back.
-/

namespace Deployment.Forest

open Deployment.Tree

/-! ### Nodes of trees -/

theorem length_layOut (t : Tree Instance) (parent : Option Nat) (next : Nat) :
    (layOut parent next t).length = t.size := by
  induction t using Tree.inductionOn generalizing parent next with
  | node body cs ih =>
    have hall : ∀ parent next, (layOutAll parent next cs).length = sizes cs := by
      induction cs with
      | nil => exact fun _ _ => rfl
      | cons c cs ihcs =>
        intro parent next
        rw [layOutAll, sizes, List.length_append, ih c List.mem_cons_self,
          ihcs fun c' hc' => ih c' (List.mem_cons_of_mem _ hc')]
    rw [layOut, size, List.length_cons, hall]

theorem length_layOutAll (ts : List (Tree Instance)) (parent : Option Nat) (next : Nat) :
    (layOutAll parent next ts).length = sizes ts := by
  induction ts generalizing next with
  | nil => rfl
  | cons t ts ih => rw [layOutAll, sizes, List.length_append, length_layOut, ih]

@[simp] theorem size_ofTrees (ts : List (Tree Instance)) : (ofTrees ts).nodes.size = sizes ts :=
  length_layOutAll ts none 0

theorem size_pos (t : Tree Instance) : 0 < t.size := by
  cases t
  exact Nat.succ_pos _

mutual

/-- The nodes of `f` from the index `n` on are those of a tree below `parent`. -/
def Laid (f : Forest) (parent : Option Nat) (n : Nat) : Tree Instance → Prop
  | .node body children => f.node? n = some ⟨body, parent, indices (n + 1) children⟩ ∧
      LaidAll f (some n) (n + 1) children

/-- The nodes of `f` from the index `n` on are those of some trees below `parent`. -/
def LaidAll (f : Forest) (parent : Option Nat) (n : Nat) : List (Tree Instance) → Prop
  | [] => True
  | t :: ts => Laid f parent n t ∧ LaidAll f parent (n + t.size) ts

end

variable {f : Forest}

theorem laidAll_of_drop {ts : List (Tree Instance)}
    (ih : ∀ t ∈ ts, ∀ parent n rest, f.nodes.toList.drop n = layOut parent n t ++ rest →
      Laid f parent n t) (parent : Option Nat) (n : Nat) (rest : List Node)
    (h : f.nodes.toList.drop n = layOutAll parent n ts ++ rest) : LaidAll f parent n ts := by
  induction ts generalizing n with
  | nil => trivial
  | cons t ts ihts =>
    rw [layOutAll, List.append_assoc] at h
    refine ⟨ih t List.mem_cons_self parent n _ h,
      ihts (fun u hu => ih u (List.mem_cons_of_mem _ hu)) (n + t.size) ?_⟩
    rw [← List.drop_drop, h, List.drop_left' (length_layOut t parent n)]

theorem laid_of_drop (t : Tree Instance) (parent : Option Nat) (n : Nat) (rest : List Node)
    (h : f.nodes.toList.drop n = layOut parent n t ++ rest) : Laid f parent n t := by
  induction t using Tree.inductionOn generalizing parent n rest with
  | node body cs ih =>
    rw [layOut, List.cons_append] at h
    constructor
    · have := congrArg (·[0]?) h
      simpa [node?] using this
    · refine laidAll_of_drop (fun c hc parent n rest => ih c hc parent n rest) (some n) (n + 1)
        rest ?_
      rw [← List.drop_drop, h]
      rfl

/-- The nodes of the forest of some trees are those of the trees. -/
theorem laidAll_ofTrees (ts : List (Tree Instance)) : LaidAll (ofTrees ts) none 0 ts :=
  laidAll_of_drop (fun t _ => laid_of_drop t) none 0 [] (by simp [ofTrees])

/-! ### Everything below the roots -/

/-- Trees with the indices of their roots, when they are laid out from `n` on. -/
def placedFrom (n : Nat) : List (Tree Instance) → List (Nat × Tree Instance)
  | [] => []
  | t :: ts => (n, t) :: placedFrom (n + t.size) ts

theorem indices_eq_map (ts : List (Tree Instance)) (n : Nat) :
    indices n ts = (placedFrom n ts).map Prod.fst := by
  induction ts generalizing n with
  | nil => rfl
  | cons t ts ih => rw [indices, placedFrom, List.map_cons, ih]

theorem sizes_eq_sum (ts : List (Tree Instance)) (n : Nat) :
    sizes ts = ((placedFrom n ts).map (·.2.size)).sum := by
  induction ts generalizing n with
  | nil => rfl
  | cons t ts ih => rw [sizes, placedFrom, List.map_cons, List.sum_cons, ih]

theorem laid_of_mem_placedFrom {parent : Option Nat} {ts : List (Tree Instance)} {n : Nat}
    (h : LaidAll f parent n ts) {q : Nat × Tree Instance} (hq : q ∈ placedFrom n ts) :
    Laid f parent q.1 q.2 := by
  induction ts generalizing n with
  | nil => cases hq
  | cons t ts ih =>
    rcases List.mem_cons.1 hq with rfl | hq
    · exact h.1
    · exact ih h.2 hq

theorem flatMap_range'_placedFrom (ts : List (Tree Instance)) (n : Nat) :
    ((placedFrom n ts).flatMap fun q => List.range' q.1 q.2.size) = List.range' n (sizes ts) := by
  induction ts generalizing n with
  | nil => rfl
  | cons t ts ih => rw [placedFrom, List.flatMap_cons, ih, sizes, List.range'_append_1]

/-- The children of a placed tree, placed. -/
def placedChildren (q : Nat × Tree Instance) : List (Nat × Tree Instance) :=
  placedFrom (q.1 + 1) q.2.children

theorem children_of_laid {parent : Option Nat} {n : Nat} {t : Tree Instance}
    (h : Laid f parent n t) :
    f.children n = (placedChildren (n, t)).map Prod.fst ∧
      LaidAll f (some n) (n + 1) t.children := by
  cases t with
  | node body cs =>
    obtain ⟨hn, hcs⟩ := h
    exact ⟨by simp [children, hn, placedChildren, indices_eq_map, Tree.children], hcs⟩

theorem range'_placed (q : Nat × Tree Instance) :
    List.range' q.1 q.2.size =
      q.1 :: (placedChildren q).flatMap fun q => List.range' q.1 q.2.size := by
  obtain ⟨n, body, cs⟩ := q
  rw [placedChildren, flatMap_range'_placedFrom]
  rfl

theorem sum_size_placedChildren (qs : List (Nat × Tree Instance)) :
    ((qs.flatMap placedChildren).map (·.2.size)).sum + qs.length = (qs.map (·.2.size)).sum := by
  induction qs with
  | nil => rfl
  | cons q qs ih =>
    obtain ⟨n, body, cs⟩ := q
    rw [List.flatMap_cons, List.map_append, List.sum_append, List.map_cons, List.sum_cons,
      List.length_cons, ← ih, placedChildren, ← sizes_eq_sum]
    change sizes cs + _ + _ = sizes cs + 1 + _
    omega

theorem flatMap_cons_perm {α β : Type} (g : α → β) (h : α → List β) (qs : List α) :
    (qs.flatMap fun q => g q :: h q).Perm (qs.map g ++ qs.flatMap h) := by
  induction qs with
  | nil => exact .refl _
  | cons q qs ih =>
    rw [List.flatMap_cons, List.flatMap_cons, List.map_cons, List.cons_append, List.cons_append]
    refine List.Perm.cons _ ((ih.append_left _).trans ?_)
    rw [← List.append_assoc, ← List.append_assoc]
    exact List.perm_append_comm.append_right _

/-- A walk by levels meets every node of the trees it starts from, given enough fuel. -/
theorem levelsFrom_perm (fuel : Nat) (qs : List (Nat × Tree Instance))
    (hlaid : ∀ q ∈ qs, ∃ parent, Laid f parent q.1 q.2)
    (hfuel : (qs.map (·.2.size)).sum ≤ fuel) :
    (f.levelsFrom fuel (qs.map Prod.fst)).Perm
      (qs.flatMap fun q => List.range' q.1 q.2.size) := by
  induction fuel generalizing qs with
  | zero =>
    cases qs with
    | nil => exact .refl _
    | cons q qs =>
      have := size_pos q.2
      simp at hfuel
      omega
  | succ fuel ih =>
    by_cases hqs : qs = []
    · subst hqs
      exact .refl _
    -- The next level starts from the placed children, which have fewer nodes in all.
    have hnext : (qs.map Prod.fst).flatMap f.children =
        (qs.flatMap placedChildren).map Prod.fst := by
      rw [List.flatMap_map, List.map_flatMap]
      refine List.flatMap_congr fun q hq => ?_
      obtain ⟨parent, hq⟩ := hlaid q hq
      exact (children_of_laid hq).1
    have hbelow : ∀ c ∈ qs.flatMap placedChildren, ∃ parent, Laid f parent c.1 c.2 := by
      intro c hc
      obtain ⟨q, hq, hc⟩ := List.mem_flatMap.1 hc
      obtain ⟨parent, hq⟩ := hlaid q hq
      exact ⟨_, laid_of_mem_placedFrom (children_of_laid hq).2 hc⟩
    have hless : ((qs.flatMap placedChildren).map (·.2.size)).sum ≤ fuel := by
      have := sum_size_placedChildren qs
      have := List.length_pos_of_ne_nil hqs
      omega
    have hsplit : (qs.flatMap fun q => List.range' q.1 q.2.size) =
        qs.flatMap fun q => q.1 :: (placedChildren q).flatMap fun c => List.range' c.1 c.2.size :=
      List.flatMap_congr fun q _ => range'_placed q
    -- The walk takes this level first; the trees take each node before what is below it.
    rw [levelsFrom, if_neg (by simpa using hqs), hnext, hsplit]
    refine ((ih _ hbelow hless).append_left _).trans ?_
    rw [List.flatMap_assoc]
    exact (flatMap_cons_perm Prod.fst _ qs).symm

/-- What stands below the roots is every node of the trees, once. -/
theorem all_ofTrees_perm (ts : List (Tree Instance)) :
    (ofTrees ts).all.Perm (List.range (sizes ts)) := by
  have hlaid := laidAll_ofTrees ts
  have hroots : (ofTrees ts).roots = (placedFrom 0 ts).map Prod.fst := indices_eq_map ts 0
  rw [List.range_eq_range', ← flatMap_range'_placedFrom, all, hroots, List.flatMap_map]
  refine List.Perm.flatMap_left _ fun q hq => ?_
  have hle : q.2.size ≤ sizes ts := by
    rw [sizes_eq_sum ts 0]
    exact List.le_sum_of_mem (List.mem_map_of_mem hq)
  have := levelsFrom_perm (f := ofTrees ts) (sizes ts) [q]
    (by simpa using ⟨none, laid_of_mem_placedFrom hlaid hq⟩) (by simpa using hle)
  simpa [hierarchy] using this

/-! ### Roots and children -/

theorem get?_of_laid {parent : Option Nat} {n : Nat} {t : Tree Instance} (h : Laid f parent n t) :
    f.get? n = some t.value ∧ f.parent? n = parent := by
  obtain ⟨body, cs⟩ := t
  rw [get?, parent?, h.1]
  exact ⟨rfl, rfl⟩

/-- What stands below the roots is what has an instance. -/
theorem mem_all_iff_get? {ts : List (Tree Instance)} {id : Nat} :
    id ∈ (ofTrees ts).all ↔ ((ofTrees ts).get? id).isSome := by
  rw [(all_ofTrees_perm ts).mem_iff, List.mem_range, get?, Option.isSome_map, node?,
    isSome_getElem?, size_ofTrees]

theorem exists_laid_of_lt_of {ts : List (Tree Instance)} {n : Nat} {parent : Option Nat}
    (ih : ∀ t ∈ ts, ∀ parent n, Laid f parent n t → ∀ id, n ≤ id → id < n + t.size →
      ∃ parent t, Laid f parent id t)
    (h : LaidAll f parent n ts) {id : Nat} (hle : n ≤ id) (hlt : id < n + sizes ts) :
    ∃ parent t, Laid f parent id t := by
  induction ts generalizing n with
  | nil => exact absurd hlt (by rw [sizes]; omega)
  | cons t ts ihts =>
    rw [sizes] at hlt
    by_cases hid : id < n + t.size
    · exact ih t List.mem_cons_self _ _ h.1 id hle hid
    · exact ihts (fun u hu => ih u (List.mem_cons_of_mem _ hu)) h.2 (by omega) (by omega)

/-- At every index of a tree stands a tree. -/
theorem exists_laid_of_lt (t : Tree Instance) (parent : Option Nat) (n : Nat)
    (h : Laid f parent n t) (id : Nat) (hle : n ≤ id) (hlt : id < n + t.size) :
    ∃ parent t, Laid f parent id t := by
  induction t using Tree.inductionOn generalizing parent n id with
  | node body cs ih =>
    rcases hle.eq_or_lt with rfl | hbelow
    · exact ⟨_, _, h⟩
    · rw [size] at hlt
      exact exists_laid_of_lt_of (fun t ht parent n h id => ih t ht parent n h id) h.2 hbelow
        (by omega)

variable {ts : List (Tree Instance)} {id parent : Nat}

/-- The roots have no parent. -/
theorem parent?_of_mem_roots (h : id ∈ (ofTrees ts).roots) :
    id ∈ (ofTrees ts).all ∧ (ofTrees ts).parent? id = none := by
  change id ∈ indices 0 ts at h
  rw [indices_eq_map] at h
  obtain ⟨q, hq, rfl⟩ := List.mem_map.1 h
  obtain ⟨hget, hparent⟩ := get?_of_laid (laid_of_mem_placedFrom (laidAll_ofTrees ts) hq)
  exact ⟨mem_all_iff_get?.2 (by rw [hget]; rfl), hparent⟩

/-- The children of an instance have it as their parent. -/
theorem parent?_of_mem_children (hparent : parent ∈ (ofTrees ts).all)
    (h : id ∈ (ofTrees ts).children parent) :
    id ∈ (ofTrees ts).all ∧ (ofTrees ts).parent? id = some parent := by
  rw [(all_ofTrees_perm ts).mem_iff, List.mem_range] at hparent
  obtain ⟨above, t, hlaid⟩ := exists_laid_of_lt_of
    (fun t _ parent n => exists_laid_of_lt t parent n) (laidAll_ofTrees ts) (Nat.zero_le parent)
    (by rwa [Nat.zero_add])
  obtain ⟨hchildren, hbelow⟩ := children_of_laid hlaid
  rw [hchildren] at h
  obtain ⟨q, hq, rfl⟩ := List.mem_map.1 h
  obtain ⟨hget, hid⟩ := get?_of_laid (laid_of_mem_placedFrom hbelow hq)
  exact ⟨mem_all_iff_get?.2 (by rw [hget]; rfl), hid⟩

/-! ### Reading the trees back -/

theorem treesFrom_of_laidAll (fuel : Nat) {parent : Option Nat} {n : Nat}
    {ts : List (Tree Instance)} (h : LaidAll f parent n ts) (hfuel : sizes ts ≤ fuel) :
    f.treesFrom fuel (indices n ts) = ts := by
  induction fuel generalizing parent n ts with
  | zero =>
    cases ts with
    | nil => rfl
    | cons t ts =>
      have := size_pos t
      rw [sizes] at hfuel
      omega
  | succ fuel ih =>
    -- Fuel is spent on levels, not on siblings.
    induction ts generalizing n with
    | nil => rfl
    | cons t ts ihts =>
      obtain ⟨body, cs⟩ := t
      obtain ⟨⟨hnode, hcs⟩, hts⟩ := h
      rw [sizes, size] at hfuel
      have hrest := ihts hts (by omega)
      rw [treesFrom] at hrest ⊢
      rw [indices, List.filterMap_cons, hnode, Option.map_some, ih hcs (by omega)]
      exact congrArg _ hrest

/-- The trees of a forest made of trees are these trees. -/
theorem toTrees_ofTrees (ts : List (Tree Instance)) : (ofTrees ts).toTrees = ts := by
  rw [toTrees, size_ofTrees]
  exact treesFrom_of_laidAll _ (laidAll_ofTrees ts) le_rfl

end Deployment.Forest

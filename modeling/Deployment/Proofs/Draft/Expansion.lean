import Deployment.Draft
import Deployment.Proofs.Tree

/-!
# Copies of drafts

What some drafts stand for can be said in one go, without a forest: a draft stands for as many trees
as copies are asked for, each with what is drafted below it, copies included (`expand`). Names get
numbers where there are several copies, and the copies are arranged as they come into being: the
first ones in the places of the drafts, and the further ones behind them.

In such a tree the place of every draft is taken by one of its copies. Which one is recorded by a
*pick*: the position of the draft among those beside it, and the number of the copy.

* `expandAll`, `expandRoots`: the trees that some drafts stand for;
* `arrange_perm`, `arrangeRoots_perm`: copies are arranged, none lost and none twice;
* `pickedAll`: the trees that drafts stand for, each draft with its pick (`map_snd_pickedAll`);
* `mem_lineagesAll_pickedAll`: a lineage picks one copy after the other, each below the one
  before;
* `distinctAll_pickedAll`: no two nodes have the same picks above them and their own.
-/

namespace Deployment.Draft

open Deployment.Tree

/-- The number of copies. -/
def count (d : Draft) : Nat := (d.countText.map countOf).getD 1

/-- The draft for one copy only. -/
def single (d : Draft) : Draft := { d with countText := none }

/-- The names of the copies, in order. -/
def names (d : Draft) : List String :=
  if d.count ≤ 1 then [d.body.name]
  else (List.range d.count).map fun i =>
    d.body.name ++ Text.padded (Text.width d.count) (i + 1)

/-- The name of the first copy. -/
def firstName (d : Draft) : String :=
  if d.count ≤ 1 then d.body.name else d.body.name ++ Text.padded (Text.width d.count) 1

/-- The draft under a name. -/
def rename (d : Draft) (name : String) : Draft := { d with body := { d.body with name } }

/-- Copies below an instance: the first ones in order, then the further ones from the last
    draft to the first. -/
def arrange {α : Type} (copies : List (List α)) : List α :=
  copies.filterMap List.head? ++ copies.reverse.flatMap List.tail

/-- Copies at the roots: the first ones in order, then the further ones in order. -/
def arrangeRoots {α : Type} (copies : List (List α)) : List α :=
  copies.filterMap List.head? ++ copies.flatMap List.tail

mutual

/-- The trees that a draft stands for, one for each copy. -/
def expand : Tree Draft → List (Tree Draft)
  | .node d children =>
    let below := arrange (expandAll children)
    d.names.map fun name => .node (d.rename name) below

/-- The trees that each of some drafts stands for. -/
def expandAll : List (Tree Draft) → List (List (Tree Draft))
  | [] => []
  | t :: ts => expand t :: expandAll ts

end

/-- The trees that some drafts at the roots stand for. -/
def expandRoots (drafts : List (Tree Draft)) : List (Tree Draft) := arrangeRoots (expandAll drafts)

/-! ### Arranging copies -/

theorem toList_head?_append_tail {α : Type} (l : List α) : l.head?.toList ++ l.tail = l := by
  cases l <;> rfl

/-- Copies at the roots are all the copies, in another order. -/
theorem arrangeRoots_perm {α : Type} (copies : List (List α)) :
    (arrangeRoots copies).Perm copies.flatten := by
  induction copies with
  | nil => exact .refl _
  | cons l ls ih =>
    have hheads : (l :: ls).filterMap List.head? = l.head?.toList ++ ls.filterMap List.head? := by
      cases l <;> rfl
    have hl : (l :: ls).flatten = l.head?.toList ++ (l.tail ++ ls.flatten) := by
      rw [List.flatten_cons, ← List.append_assoc, toList_head?_append_tail]
    rw [arrangeRoots, hheads, List.flatMap_cons, hl, List.append_assoc]
    refine List.Perm.append_left _ (List.Perm.trans ?_ (ih.append_left _))
    rw [arrangeRoots, ← List.append_assoc, ← List.append_assoc]
    exact List.perm_append_comm.append_right _

/-- Copies below an instance are all the copies, in another order. -/
theorem arrange_perm {α : Type} (copies : List (List α)) :
    (arrange copies).Perm copies.flatten :=
  ((copies.reverse_perm.flatMap_right List.tail).append_left _).trans (arrangeRoots_perm copies)

theorem arrange_map {α β : Type} (f : α → β) (copies : List (List α)) :
    arrange (copies.map (List.map f)) = (arrange copies).map f := by
  have hheads : (copies.map (List.map f)).filterMap List.head? =
      (copies.filterMap List.head?).map f := by
    rw [List.filterMap_map, List.map_filterMap]
    exact List.filterMap_congr fun l _ => List.head?_map
  have htails : (copies.map (List.map f)).reverse.flatMap List.tail =
      (copies.reverse.flatMap List.tail).map f := by
    rw [← List.map_reverse, List.flatMap_map, List.map_flatMap]
    exact List.flatMap_congr fun l _ => List.map_tail.symm
  rw [arrange, arrange, hheads, htails, List.map_append]

theorem arrangeRoots_map {α β : Type} (f : α → β) (copies : List (List α)) :
    arrangeRoots (copies.map (List.map f)) = (arrangeRoots copies).map f := by
  have hheads : (copies.map (List.map f)).filterMap List.head? =
      (copies.filterMap List.head?).map f := by
    rw [List.filterMap_map, List.map_filterMap]
    exact List.filterMap_congr fun l _ => List.head?_map
  have htails : (copies.map (List.map f)).flatMap List.tail =
      (copies.flatMap List.tail).map f := by
    rw [List.flatMap_map, List.map_flatMap]
    exact List.flatMap_congr fun l _ => List.map_tail.symm
  rw [arrangeRoots, arrangeRoots, hheads, htails, List.map_append]

theorem arrangeRoots_singletons {α : Type} (l : List α) : arrangeRoots (l.map ([·])) = l := by
  have hheads : (l.map ([·])).filterMap List.head? = l := by
    rw [List.filterMap_map]
    exact List.filterMap_some
  have htails : (l.map ([·])).flatMap List.tail = [] := by
    rw [List.flatMap_map]
    exact List.flatMap_eq_nil_iff.2 fun _ _ => rfl
  rw [arrangeRoots, hheads, htails, List.append_nil]

theorem arrange_singletons {α : Type} (l : List α) : arrange (l.map ([·])) = l := by
  have hheads : (l.map ([·])).filterMap List.head? = l := by
    rw [List.filterMap_map]
    exact List.filterMap_some
  have htails : (l.map ([·])).reverse.flatMap List.tail = [] := by
    rw [← List.map_reverse, List.flatMap_map]
    exact List.flatMap_eq_nil_iff.2 fun _ _ => rfl
  rw [arrange, hheads, htails, List.append_nil]

/-- Things that belong to the first copies, in order, and those that belong to the further copies of
    each, belong to the copies below an instance as they are arranged. -/
theorem forall₂_arrange {α β γ : Type} {S : β → γ → Prop} {first : α → β} {further : α → List β}
    {xs : List α} {copies : List (List γ)}
    (h : List.Forall₂ (fun x l => List.Forall₂ S (first x :: further x) l) xs copies) :
    List.Forall₂ S (xs.map first ++ xs.reverse.flatMap further) (arrange copies) := by
  refine List.rel_append ?_ ?_
  · induction h with
    | nil => exact .nil
    | cons hl _ ih =>
      cases hl with
      | cons hfirst _ => exact .cons hfirst ih
  · refine List.rel_flatMap (List.rel_reverse h) fun x l hl => ?_
    cases hl with
    | cons _ hfurther => exact hfurther

/-- So they do to the copies at the roots. -/
theorem forall₂_arrangeRoots {α β γ : Type} {S : β → γ → Prop} {first : α → β}
    {further : α → List β} {xs : List α} {copies : List (List γ)}
    (h : List.Forall₂ (fun x l => List.Forall₂ S (first x :: further x) l) xs copies) :
    List.Forall₂ S (xs.map first ++ xs.flatMap further) (arrangeRoots copies) := by
  refine List.rel_append ?_ ?_
  · induction h with
    | nil => exact .nil
    | cons hl _ ih =>
      cases hl with
      | cons hfirst _ => exact .cons hfirst ih
  · refine List.rel_flatMap h fun x l hl => ?_
    cases hl with
    | cons _ hfurther => exact hfurther

theorem expandAll_eq_map (ts : List (Tree Draft)) : expandAll ts = ts.map expand := by
  induction ts with
  | nil => rfl
  | cons t ts ih => rw [expandAll, ih, List.map_cons]

/-! ### Names of copies -/

/-- The name of a copy, counted from 1. -/
def nameOf (d : Draft) (copy : Nat) : String :=
  if d.count ≤ 1 then d.body.name else d.body.name ++ Text.padded (Text.width d.count) copy

theorem length_names (d : Draft) : d.names.length = max 1 d.count := by
  rw [names]
  split
  · next h => rw [List.length_singleton, Nat.max_eq_left h]
  · next h => rw [List.length_map, List.length_range, Nat.max_eq_right (by omega)]

theorem getElem?_names (d : Draft) {i : Nat} (h : i < max 1 d.count) :
    d.names[i]? = some (d.nameOf (i + 1)) := by
  rw [names, nameOf]
  split
  · next hone =>
    rw [Nat.max_eq_left hone, Nat.lt_one_iff] at h
    rw [h]
    rfl
  · next hone =>
    rw [Nat.max_eq_right (by omega)] at h
    rw [List.getElem?_map, List.getElem?_range h]
    rfl

theorem getElem?_names_eq_some_iff {d : Draft} {i : Nat} {name : String} :
    d.names[i]? = some name ↔ i < max 1 d.count ∧ name = d.nameOf (i + 1) := by
  constructor
  · intro h
    have hi : i < max 1 d.count := d.length_names ▸ (List.getElem?_eq_some_iff.1 h).1
    rw [getElem?_names d hi] at h
    exact ⟨hi, (Option.some.inj h).symm⟩
  · rintro ⟨hi, rfl⟩
    exact getElem?_names d hi

/-- The first name is that of the first copy. -/
theorem names_eq_cons (d : Draft) : d.names = d.firstName :: d.names.tail := by
  rw [names, firstName]
  split
  · rfl
  · next h =>
    obtain ⟨n, hn⟩ : ∃ n, d.count = n + 1 := ⟨d.count - 1, by omega⟩
    rw [hn, List.range_succ_eq_map]
    rfl

theorem names_of_le (d : Draft) (h : d.count ≤ 1) : d.names = [d.body.name] := if_pos h

/-- Several copies are numbered from 1 on. -/
theorem names_of_lt (d : Draft) (h : 1 < d.count) :
    d.names = d.nameOf 1 :: (List.range' 2 (d.count - 1)).map d.nameOf := by
  obtain ⟨n, hn⟩ : ∃ n, d.count = n + 1 := ⟨d.count - 1, by omega⟩
  have hname : ∀ copy, d.nameOf copy = d.body.name ++ Text.padded (Text.width d.count) copy :=
    fun copy => if_neg (by omega)
  rw [names, if_neg (by omega), funext hname, hn, Nat.add_sub_cancel, List.range_succ_eq_map,
    List.map_cons, List.map_map, List.range_eq_range', List.range'_eq_map_range,
    List.range'_eq_map_range, List.map_map, List.map_map]
  refine congrArg (_ :: ·) (List.map_congr_left fun i _ => ?_)
  simp only [Function.comp_apply, Nat.zero_add, Nat.succ_eq_add_one]
  rw [Nat.add_comm 2 i]

/-! ### Picks -/

/-- A copy of one of the drafts that stand side by side. -/
structure Pick where
  /-- The position of the draft among those beside it, counted from 0. -/
  position : Nat
  /-- The number of the copy, counted from 1. -/
  copy : Nat
deriving DecidableEq

mutual

/-- The trees that the draft at a position stands for, every draft with its pick. -/
def picked (position : Nat) : Tree Draft → List (Tree (Pick × Draft))
  | .node d children =>
    let below := arrange (pickedAll 0 children)
    d.names.mapIdx fun i name => .node (⟨position, i + 1⟩, d.rename name) below

/-- The trees that each of some drafts stands for, the first draft at a position. -/
def pickedAll (position : Nat) : List (Tree Draft) → List (List (Tree (Pick × Draft)))
  | [] => []
  | t :: ts => picked position t :: pickedAll (position + 1) ts

end

theorem map_snd_pickedAll_of {ts : List (Tree Draft)}
    (h : ∀ t ∈ ts, ∀ p, (picked p t).map (Tree.map Prod.snd) = expand t) (p : Nat) :
    (pickedAll p ts).map (List.map (Tree.map Prod.snd)) = expandAll ts := by
  induction ts generalizing p with
  | nil => rfl
  | cons t ts ih =>
    rw [pickedAll, expandAll, List.map_cons, h t List.mem_cons_self,
      ih fun u hu => h u (List.mem_cons_of_mem _ hu)]

theorem map_snd_picked (t : Tree Draft) (p : Nat) :
    (picked p t).map (Tree.map Prod.snd) = expand t := by
  induction t using Tree.inductionOn generalizing p with
  | node d children ih =>
    have hbelow := map_snd_pickedAll_of ih 0
    rw [picked, expand, ← hbelow, arrange_map]
    refine List.ext_getElem? fun i => ?_
    rw [List.getElem?_map, List.getElem?_mapIdx, List.getElem?_map, Option.map_map]
    refine congrArg (Option.map · _) (funext fun name => ?_)
    exact map_node ..

/-- Without their picks, these are the trees that the drafts stand for. -/
theorem map_snd_pickedAll (ts : List (Tree Draft)) (p : Nat) :
    (pickedAll p ts).map (List.map (Tree.map Prod.snd)) = expandAll ts :=
  map_snd_pickedAll_of (fun t _ => map_snd_picked t) p

theorem getElem?_pickedAll (ts : List (Tree Draft)) (p q : Nat) :
    (pickedAll p ts)[q]? = (ts[q]?).map (picked (p + q)) := by
  induction ts generalizing p q with
  | nil => rfl
  | cons t ts ih =>
    cases q with
    | zero => rfl
    | succ q =>
      rw [pickedAll, List.getElem?_cons_succ, List.getElem?_cons_succ, ih,
        Nat.add_right_comm, Nat.add_assoc]

/-- A tree among those that drafts stand for: a copy of one of the drafts, with what is drafted
    below it. -/
theorem mem_flatten_pickedAll {ts : List (Tree Draft)} {u : Tree (Pick × Draft)} :
    u ∈ (pickedAll 0 ts).flatten ↔ ∃ p t i, ts[p]? = some t ∧ i < max 1 t.value.count ∧
      u = .node (⟨p, i + 1⟩, t.value.rename (t.value.nameOf (i + 1)))
        (arrange (pickedAll 0 t.children)) := by
  constructor
  · intro hu
    obtain ⟨us, hus, hu⟩ := List.mem_flatten.1 hu
    obtain ⟨p, hp⟩ := List.mem_iff_getElem?.1 hus
    rw [getElem?_pickedAll, Nat.zero_add, Option.map_eq_some_iff] at hp
    obtain ⟨⟨d, children⟩, ht, rfl⟩ := hp
    rw [picked, List.mem_mapIdx] at hu
    obtain ⟨i, hi, rfl⟩ := hu
    have hname := getElem?_names_eq_some_iff.1 (List.getElem?_eq_getElem hi)
    exact ⟨p, _, i, ht, hname.1, by rw [hname.2]; rfl⟩
  · rintro ⟨p, ⟨d, children⟩, i, ht, hi, rfl⟩
    refine List.mem_flatten.2 ⟨picked p (.node d children), ?_, ?_⟩
    · refine List.mem_of_getElem? (i := p) ?_
      rw [getElem?_pickedAll, ht, Nat.zero_add]
      rfl
    · rw [picked, List.mem_mapIdx]
      have hname := getElem?_names d hi
      obtain ⟨hlt, hget⟩ := List.getElem?_eq_some_iff.1 hname
      exact ⟨i, hlt, by rw [hget]; rfl⟩

/-- A lineage picks a copy of one of the drafts and goes on among the drafts below it. -/
theorem mem_lineagesAll_pickedAll {ts : List (Tree Draft)} {l : List (Pick × Draft)} :
    l ∈ lineagesAll (pickedAll 0 ts).flatten ↔
      ∃ p t i, ts[p]? = some t ∧ i < max 1 t.value.count ∧
        ∃ l', (l' = [] ∨ l' ∈ lineagesAll (pickedAll 0 t.children).flatten) ∧
          l = (⟨p, i + 1⟩, t.value.rename (t.value.nameOf (i + 1))) :: l' := by
  -- How copies are arranged does not show in the set of lineages.
  have hbelow : ∀ (t : Tree Draft) (l' : List (Pick × Draft)),
      l' ∈ lineagesAll (arrange (pickedAll 0 t.children)) ↔
        l' ∈ lineagesAll (pickedAll 0 t.children).flatten := fun t l' =>
    (lineagesAll_perm (arrange_perm _)).mem_iff
  rw [mem_lineagesAll_iff]
  constructor
  · rintro ⟨u, hu, hl⟩
    obtain ⟨p, t, i, ht, hi, rfl⟩ := mem_flatten_pickedAll.1 hu
    refine ⟨p, t, i, ht, hi, ?_⟩
    rcases hl with rfl | ⟨l', hl', rfl⟩
    · exact ⟨[], .inl rfl, rfl⟩
    · exact ⟨l', .inr ((hbelow t l').1 hl'), rfl⟩
  · rintro ⟨p, t, i, ht, hi, l', hl', rfl⟩
    refine ⟨_, mem_flatten_pickedAll.2 ⟨p, t, i, ht, hi, rfl⟩, ?_⟩
    rcases hl' with rfl | hl'
    · exact .inl rfl
    · exact .inr ⟨l', (hbelow t l').2 hl', rfl⟩

theorem nodup_picks (ts : List (Tree Draft)) (p : Nat) :
    ((pickedAll p ts).flatten.map fun u => u.value.1).Nodup ∧
      ∀ u ∈ (pickedAll p ts).flatten, p ≤ u.value.1.position := by
  induction ts generalizing p with
  | nil => exact ⟨List.nodup_nil, fun _ h => nomatch h⟩
  | cons t ts ih =>
    obtain ⟨d, children⟩ := t
    obtain ⟨hnodup, hle⟩ := ih (p + 1)
    have hfirst : (picked p (.node d children)).map (fun u => u.value.1) =
        (List.range d.names.length).map fun i => (⟨p, i + 1⟩ : Pick) := by
      rw [picked]
      refine List.ext_getElem? fun i => ?_
      rw [List.getElem?_map, List.getElem?_mapIdx, List.getElem?_map]
      by_cases hi : i < d.names.length
      · rw [List.getElem?_range hi, List.getElem?_eq_getElem hi]
        rfl
      · rw [List.getElem?_eq_none (Nat.le_of_not_lt hi), List.getElem?_eq_none (by simpa using hi)]
        rfl
    have hposition : ∀ u ∈ picked p (.node d children), u.value.1.position = p := by
      intro u hu
      have hmem := List.mem_map_of_mem (f := fun u => u.value.1) hu
      rw [hfirst, List.mem_map] at hmem
      obtain ⟨i, -, hpick⟩ := hmem
      rw [← hpick]
    rw [pickedAll, List.flatten_cons]
    refine ⟨?_, ?_⟩
    · rw [List.map_append, List.nodup_append']
      refine ⟨?_, hnodup, ?_⟩
      · rw [hfirst]
        refine List.nodup_range.map fun i j hij => ?_
        have := congrArg Pick.copy hij
        exact Nat.succ.inj this
      · -- The later drafts stand at later positions.
        intro pick hpick hlater
        obtain ⟨u, hu, rfl⟩ := List.mem_map.1 hpick
        obtain ⟨u', hu', heq⟩ := List.mem_map.1 hlater
        have := hle u' hu'
        rw [heq, hposition u hu] at this
        omega
    · intro u hu
      rcases List.mem_append.1 hu with hu | hu
      · exact Nat.le_of_eq (hposition u hu).symm
      · exact Nat.le_trans (Nat.le_succ p) (hle u hu)

/-- No two nodes side by side have the same pick. -/
theorem distinctAll_pickedAll (ts : List (Tree Draft)) :
    DistinctAll Prod.fst (pickedAll 0 ts).flatten := by
  induction ts using Tree.forestInduction with
  | step ts ih =>
    refine ⟨(nodup_picks ts 0).1, fun u hu => ?_⟩
    obtain ⟨p, t, i, ht, -, rfl⟩ := mem_flatten_pickedAll.1 hu
    exact distinct_iff.2 ((distinctAll_perm (arrange_perm _)).2 (ih t (List.mem_of_getElem? ht)))

/-! ### Drafts for one copy -/

theorem expandAll_of_single {ts : List (Tree Draft)}
    (h : ∀ t ∈ ts, expand t = [t]) : expandAll ts = ts.map ([·]) := by
  induction ts with
  | nil => rfl
  | cons t ts ih =>
    rw [expandAll, h t List.mem_cons_self, ih fun u hu => h u (List.mem_cons_of_mem _ hu)]
    rfl

/-- A draft for one copy stands for itself, if so do the drafts below it. -/
theorem expand_map_single (t : Tree Draft) : expand (t.map single) = [t.map single] := by
  induction t using Tree.inductionOn with
  | node d children ih =>
    have hall : expandAll (children.map (Tree.map single)) =
        (children.map (Tree.map single)).map ([·]) := by
      refine expandAll_of_single fun t ht => ?_
      obtain ⟨c, hc, rfl⟩ := List.mem_map.1 ht
      exact ih c hc
    rw [map_node, expand, hall, arrange_singletons]
    rfl

/-- Drafts for one copy each stand for themselves. -/
theorem expandRoots_map_single (ts : List (Tree Draft)) :
    expandRoots (mapAll single ts) = mapAll single ts := by
  rw [expandRoots, mapAll_eq_map, expandAll_of_single,
    arrangeRoots_singletons]
  intro t ht
  obtain ⟨c, -, rfl⟩ := List.mem_map.1 ht
  exact expand_map_single c

end Deployment.Draft

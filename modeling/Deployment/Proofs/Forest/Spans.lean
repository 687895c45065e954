import Deployment.Proofs.Forest.Paths

/-!
# Forests and the trees in them

From an instance on down, a forest *spans* a tree if the links have the shape of the tree and what
stands at an index is related to the value there (`Forest.Spans`). What values are, and how they are
related to indices, is left open: they may be instances, or anything else that is known of an index.

Spanning is kept by every change that keeps, or copies, what is below the instance
(`Spans.carry`). In a tree-shaped forest it tells everything:

* `TreeShaped.toTrees_of_spans`, `TreeShaped.spans_toTrees`: the trees of instances are spanned, and
  no others;
* `TreeShaped.forall₂_hierarchy`, `TreeShaped.forall₂_all`: the walks down list the values
  breadth-first;
* `exists_labelled`: every value can be written at its index; a lineage then has the parent and the
  path of the instance that it ends at (`TreeShaped.parent?_of_lineage`,
  `TreeShaped.path_of_lineage`).
-/

namespace Deployment

open Deployment.Tree

universe u v

section Lists

variable {α : Type u} {β : Type v} {γ : Type*}

/-- Two lists that are related to a third one, element by element. -/
theorem forall₂_of_common {Q : α → β → Prop} {P : α → γ → Prop} {S : β → γ → Prop} {as : List α}
    {bs : List β} {cs : List γ} (hQ : List.Forall₂ Q as bs) (hP : List.Forall₂ P as cs)
    (h : ∀ a b, ∀ c ∈ cs, Q a b → P a c → S b c) : List.Forall₂ S bs cs := by
  induction hQ generalizing cs with
  | nil =>
    cases hP
    exact .nil
  | cons hab _ ih =>
    cases hP with
    | cons hac hP =>
      exact .cons (h _ _ _ List.mem_cons_self hab hac)
        (ih hP fun a b c hc => h a b c (List.mem_cons_of_mem _ hc))

/-- What holds of the elements of the second list holds beside the relation. -/
theorem forall₂_and_right {Q : α → β → Prop} {p : β → Prop} {as : List α} {bs : List β}
    (h : List.Forall₂ Q as bs) (hp : ∀ b ∈ bs, p b) :
    List.Forall₂ (fun a b => Q a b ∧ p b) as bs := by
  induction h with
  | nil => exact .nil
  | cons hab _ ih =>
    obtain ⟨hb, hp⟩ := List.forall_mem_cons.1 hp
    exact .cons ⟨hab, hb⟩ (ih hp)

/-- What stands in a list has a counterpart in a list that is related to it. -/
theorem exists_of_forall₂_of_mem {Q : α → β → Prop} {as : List α} {bs : List β}
    (h : List.Forall₂ Q as bs) {b : β} (hb : b ∈ bs) : ∃ a ∈ as, Q a b := by
  induction h with
  | nil => exact nomatch hb
  | cons hab _ ih =>
    rcases List.mem_cons.1 hb with rfl | hb
    · exact ⟨_, List.mem_cons_self, hab⟩
    · obtain ⟨a, ha, hab⟩ := ih hb
      exact ⟨a, List.mem_cons_of_mem _ ha, hab⟩

end Lists

namespace Forest

variable {α : Type u} {β : Type v}

mutual

/-- From an instance on down, a forest has the shape of a tree, and what stands at an index is
    related to the value there. -/
def Spans (f : Forest) (R : Nat → α → Prop) : Nat → Tree α → Prop
  | id, .node a ts => R id a ∧ SpansAll f R (f.children id) ts

/-- From some instances on down, a forest has the shape of some trees. -/
def SpansAll (f : Forest) (R : Nat → α → Prop) : List Nat → List (Tree α) → Prop
  | [], [] => True
  | id :: ids, t :: ts => Spans f R id t ∧ SpansAll f R ids ts
  | _, _ => False

end

variable {f g : Forest} {R : Nat → α → Prop} {S : Nat → α → Prop} {id : Nat} {ids : List Nat}
  {t : Tree α} {ts : List (Tree α)}

theorem spansAll_iff : f.SpansAll R ids ts ↔ List.Forall₂ (f.Spans R) ids ts := by
  induction ids generalizing ts with
  | nil =>
    cases ts with
    | nil => exact iff_of_true trivial .nil
    | cons t ts => exact iff_of_false id fun h => nomatch h
  | cons id ids ih =>
    cases ts with
    | nil => exact iff_of_false (fun h => h) fun h => nomatch h
    | cons t ts => rw [SpansAll, List.forall₂_cons, ih]

theorem spans_iff :
    f.Spans R id t ↔ R id t.value ∧ List.Forall₂ (f.Spans R) (f.children id) t.children := by
  cases t with
  | node a ts => rw [Spans, spansAll_iff]; rfl

/-- What is below an instance and is found again below another one, with the values changed along,
    spans the changed tree. -/
theorem Spans.carry_map {Q : Nat → Nat → Prop} {S : Nat → β → Prop} {change : α → β}
    (hQ : ∀ i j a, Q i j → R i a →
      S j (change a) ∧ List.Forall₂ Q (f.children i) (g.children j))
    {i j : Nat} (hij : Q i j) (h : f.Spans R i t) : g.Spans S j (t.map change) := by
  induction t using Tree.inductionOn generalizing i j with
  | node a ts ih =>
    rw [spans_iff] at h ⊢
    obtain ⟨hvalue, hchildren⟩ := hQ i j a hij h.1
    rw [map_node]
    refine ⟨hvalue, ?_⟩
    exact List.forall₂_map_right_iff.2 <|
      forall₂_of_common hchildren h.2 fun _ _ c hc hkept hspans => ih c hc hkept hspans

/-- What is below an instance and is found again below another one spans the same tree. -/
theorem Spans.carry {Q : Nat → Nat → Prop}
    (hQ : ∀ i j a, Q i j → R i a → S j a ∧ List.Forall₂ Q (f.children i) (g.children j))
    {i j : Nat} (hij : Q i j) (h : f.Spans R i t) : g.Spans S j t := by
  have hmap : g.Spans S j (t.map fun a => a) := h.carry_map hQ hij
  have hsame : (t.map fun a => a) = t := Tree.map_id t
  rwa [hsame] at hmap

/-- Links that do not change below an instance span the same tree. -/
theorem Spans.mono (h : f.Spans R id t)
    (hkept : ∀ i a, R i a → S i a ∧ g.children i = f.children i) : g.Spans S id t := by
  refine h.carry (Q := Eq) ?_ rfl
  rintro i _ a rfl hvalue
  obtain ⟨hvalue, hchildren⟩ := hkept i a hvalue
  rw [hchildren, List.forall₂_eq_eq_eq]
  exact ⟨hvalue, rfl⟩

/-- Trees of what is made of some values are spanned by what is known of these values. -/
theorem Spans.of_map {S : Nat → β → Prop} {change : β → α} {u : Tree β}
    (h : f.Spans R id (u.map change)) (hS : ∀ i b, R i (change b) → S i b) : f.Spans S id u := by
  induction u using Tree.inductionOn generalizing id with
  | node b us ih =>
    rw [map_node] at h
    obtain ⟨hvalue, hchildren⟩ := spans_iff.1 h
    refine spans_iff.2 ⟨hS id b hvalue, ?_⟩
    exact (forall₂_and_right (List.forall₂_map_right_iff.1 hchildren) fun _ hu => hu).imp
      fun _ u hspans => ih u hspans.2 hspans.1

/-- If an index has one value only, an instance spans one tree only. -/
theorem Spans.unique {t' : Tree α} (hR : ∀ i a a', R i a → R i a' → a = a') (h : f.Spans R id t)
    (h' : f.Spans R id t') : t = t' := by
  induction t using Tree.inductionOn generalizing id t' with
  | node a ts ih =>
    obtain ⟨a', ts'⟩ := t'
    obtain ⟨hvalue, hchildren⟩ := spans_iff.1 h
    obtain ⟨hvalue', hchildren'⟩ := spans_iff.1 h'
    have hsame : List.Forall₂ (fun t' t => t = t') ts' ts :=
      forall₂_of_common hchildren' hchildren fun _ _ t ht hspans' hspans => ih t ht hspans hspans'
    obtain rfl : a = a' := hR id a a' hvalue hvalue'
    obtain rfl : ts = ts' := List.forall₂_eq_eq_eq ▸ hsame.flip
    rfl

/-! ### Levels -/

theorem levelAt_append (f : Forest) (depth : Nat) (ids ids' : List Nat) :
    f.levelAt depth (ids ++ ids') = f.levelAt depth ids ++ f.levelAt depth ids' := by
  induction depth generalizing ids ids' with
  | zero => rfl
  | succ depth ih => rw [levelAt, levelAt, levelAt, List.flatMap_append, ih]

/-- The children of instances that span trees span what is below these. -/
theorem forall₂_flatMap_children (h : List.Forall₂ (f.Spans R) ids ts) :
    List.Forall₂ (f.Spans R) (ids.flatMap f.children) (ts.flatMap Tree.children) := by
  induction h with
  | nil => exact .nil
  | cons hspans _ ih =>
    rw [List.flatMap_cons, List.flatMap_cons]
    exact List.rel_append (spans_iff.1 hspans).2 ih

/-- The trees below instances are those that they span, if there is fuel for all levels. -/
theorem treesFrom_of_spans {body : α → Instance} (hbody : ∀ i a, R i a → f.get? i = some (body a))
    {fuel : Nat} (h : List.Forall₂ (f.Spans R) ids ts) (hnone : f.levelAt fuel ids = []) :
    f.treesFrom fuel ids = ts.map (Tree.map body) := by
  induction fuel generalizing ids ts with
  | zero =>
    obtain rfl : ids = [] := hnone
    cases h
    rfl
  | succ fuel ih =>
    rw [treesFrom]
    induction h with
    | nil => rfl
    | @cons id t ids ts hspans _ ihrest =>
      rw [levelAt, List.flatMap_cons, levelAt_append, List.append_eq_nil_iff] at hnone
      obtain ⟨hvalue, hchildren⟩ := spans_iff.1 hspans
      obtain ⟨n, hn, hbodyn⟩ := Option.map_eq_some_iff.1 (hbody _ _ hvalue)
      have hbelow := ih hchildren hnone.1
      rw [children_of_node? hn] at hbelow
      rw [List.filterMap_cons, hn, Option.map_some, ihrest hnone.2, hbelow, hbodyn]
      cases t
      rw [List.map_cons, map_node]
      rfl

/-- A walk by levels lists the values of the trees by levels, if there is fuel for all of them. -/
theorem forall₂_levelsFrom {fuel : Nat} (h : List.Forall₂ (f.Spans R) ids ts)
    (hnone : f.levelAt fuel ids = []) :
    List.Forall₂ R (f.levelsFrom fuel ids) (levelsAll ts).flatten := by
  induction fuel generalizing ids ts with
  | zero =>
    obtain rfl : ids = [] := hnone
    cases h
    exact .nil
  | succ fuel ih =>
    rw [levelsFrom]
    split
    · next hids =>
      subst hids
      cases h
      exact .nil
    · next hids =>
      have hts : ts ≠ [] := fun hts => by
        subst hts
        cases h
        exact hids rfl
      rw [levelsAll_eq_cons hts, List.flatten_cons]
      refine List.rel_append ?_ (ih (forall₂_flatMap_children h) hnone)
      exact List.forall₂_map_right_iff.2 (h.imp fun _ _ hspans => (spans_iff.1 hspans).1)

/-! ### Values with their indices -/

/-- A value at its index. -/
def Labelled (R : Nat → α → Prop) (i : Nat) (q : Nat × α) : Prop := q.1 = i ∧ R i q.2

theorem exists_labelled_of (h : List.Forall₂ (f.Spans R) ids ts)
    (ih : ∀ t ∈ ts, ∀ id, f.Spans R id t →
      ∃ u : Tree (Nat × α), u.map Prod.snd = t ∧ f.Spans (Labelled R) id u) :
    ∃ us : List (Tree (Nat × α)), us.map (Tree.map Prod.snd) = ts ∧
      List.Forall₂ (f.Spans (Labelled R)) ids us := by
  induction h with
  | nil => exact ⟨[], rfl, .nil⟩
  | @cons id t ids ts hspans _ ihrest =>
    obtain ⟨u, rfl, hu⟩ := ih t List.mem_cons_self id hspans
    obtain ⟨us, rfl, hus⟩ := ihrest fun t ht => ih t (List.mem_cons_of_mem _ ht)
    exact ⟨u :: us, rfl, .cons hu hus⟩

/-- The values of a tree can be written at their indices. -/
theorem exists_labelled_tree (t : Tree α) (id : Nat) (h : f.Spans R id t) :
    ∃ u : Tree (Nat × α), u.map Prod.snd = t ∧ f.Spans (Labelled R) id u := by
  induction t using Tree.inductionOn generalizing id with
  | node a ts ih =>
    obtain ⟨hvalue, hchildren⟩ := spans_iff.1 h
    obtain ⟨us, hus, hspans⟩ := exists_labelled_of hchildren ih
    exact ⟨.node (id, a) us, by rw [map_node, hus]; rfl, spans_iff.2 ⟨⟨rfl, hvalue⟩, hspans⟩⟩

theorem exists_labelled (h : List.Forall₂ (f.Spans R) ids ts) :
    ∃ us : List (Tree (Nat × α)), us.map (Tree.map Prod.snd) = ts ∧
      List.Forall₂ (f.Spans (Labelled R)) ids us :=
  exists_labelled_of h fun t _ id => exists_labelled_tree t id

/-- A lineage goes down from one of the instances, from child to child, and ends at a value that is
    related to its index. -/
theorem links_of_lineage {us : List (Tree (Nat × α))}
    (h : List.Forall₂ (f.Spans (Labelled R)) ids us) {l : List (Nat × α)} {q : Nat × α}
    (hl : l ++ [q] ∈ lineagesAll us) :
    R q.1 q.2 ∧ (l = [] → q.1 ∈ ids) ∧ ∀ p ∈ l.getLast?, q.1 ∈ f.children p.1 := by
  induction l generalizing ids us with
  | nil =>
    obtain ⟨u, hu, heq⟩ := mem_lineagesAll_iff.1 hl
    obtain ⟨id, hid, hspans⟩ := exists_of_forall₂_of_mem h hu
    obtain ⟨⟨hlabel, hvalue⟩, -⟩ := spans_iff.1 hspans
    rcases heq with heq | ⟨l', hl', heq⟩
    · obtain rfl := (List.cons.inj heq).1
      exact ⟨hlabel ▸ hvalue, fun _ => hlabel ▸ hid, fun p hp => nomatch hp⟩
    · exact absurd (List.cons.inj heq).2.symm (ne_nil_of_mem_lineagesAll hl')
  | cons p l ih =>
    obtain ⟨u, hu, heq⟩ := mem_lineagesAll_iff.1 hl
    obtain ⟨id, hid, hspans⟩ := exists_of_forall₂_of_mem h hu
    obtain ⟨⟨hlabel, -⟩, hchildren⟩ := spans_iff.1 hspans
    rcases heq with heq | ⟨l', hl', heq⟩
    · exact absurd (List.cons.inj heq).2
        (List.append_ne_nil_of_right_ne_nil l (List.cons_ne_nil _ _))
    · obtain ⟨rfl, rfl⟩ := List.cons.inj heq
      obtain ⟨hvalue, hfirst, hrest⟩ := ih hchildren hl'
      refine ⟨hvalue, fun hnil => absurd hnil (List.cons_ne_nil _ _), ?_⟩
      rcases l.eq_nil_or_concat' with rfl | ⟨m, r, rfl⟩
      · rintro _ ⟨⟩
        exact hlabel ▸ hfirst rfl
      · rw [← List.cons_append, List.getLast?_concat]
        rintro _ ⟨⟩
        exact hrest r (by rw [List.getLast?_concat]; rfl)

/-! ### Tree-shaped forests -/

namespace TreeShaped

variable (h : f.TreeShaped)

include h

theorem forall₂_hierarchy (hid : id < f.nodes.size) (hspans : f.Spans R id t) :
    List.Forall₂ R (f.hierarchy id) t.breadthFirst := by
  have hlevel : ∀ i ∈ [id], i < f.nodes.size := fun i hi => List.mem_singleton.1 hi ▸ hid
  have hwalk := forall₂_levelsFrom (.cons hspans .nil) (h.levelAt_size hlevel)
  rwa [levelsAll, levelsAll, mergeLevels_nil] at hwalk

/-- What stands below the roots, root by root, are the values of the trees, tree by tree. -/
theorem forall₂_all (hspans : List.Forall₂ (f.Spans R) f.roots ts) :
    List.Forall₂ R f.all (ts.flatMap Tree.breadthFirst) :=
  List.rel_flatMap ((List.forall₂_and_left _ _).2 ⟨h.within, hspans⟩)
    fun _ _ hroot => h.forall₂_hierarchy hroot.1 hroot.2

/-- Whatever stands below the roots spans a tree if the roots do. -/
theorem exists_spans (hspans : List.Forall₂ (f.Spans R) f.roots ts) :
    ∀ id ∈ f.all, ∃ t, f.Spans R id t := by
  refine h.induction fun id hid ih => ?_
  cases hparent : f.parent? id with
  | none =>
    have hroot := (h.mem_all_iff_of_top hparent).1 hid
    obtain ⟨t, -, ht⟩ := exists_of_forall₂_of_mem hspans.flip hroot
    exact ⟨t, ht⟩
  | some parent =>
    obtain ⟨t, ht⟩ := ih parent hparent
    obtain ⟨c, -, hc⟩ :=
      exists_of_forall₂_of_mem (spans_iff.1 ht).2.flip (h.hasParent_iff.1 hparent)
    exact ⟨c, hc⟩

/-- The trees below the roots are those that the roots span. -/
theorem toTrees_of_spans {body : α → Instance} (hbody : ∀ i a, R i a → f.get? i = some (body a))
    (hspans : List.Forall₂ (f.Spans R) f.roots ts) : f.toTrees = ts.map (Tree.map body) :=
  treesFrom_of_spans hbody hspans (h.levelAt_size h.within)

/-- Instances span the trees below them, if there is fuel for all levels. -/
theorem spans_treesFrom {fuel : Nat} (hids : ∀ id ∈ ids, id < f.nodes.size)
    (hnone : f.levelAt fuel ids = []) :
    List.Forall₂ (f.Spans fun i a => f.get? i = some a) ids (f.treesFrom fuel ids) := by
  induction fuel generalizing ids with
  | zero =>
    obtain rfl : ids = [] := hnone
    exact .nil
  | succ fuel ih =>
    rw [treesFrom]
    induction ids with
    | nil => exact .nil
    | cons id ids ihids =>
      rw [levelAt, List.flatMap_cons, levelAt_append, List.append_eq_nil_iff] at hnone
      obtain ⟨hid, hids⟩ := List.forall_mem_cons.1 hids
      obtain ⟨n, hn⟩ := exists_node?_of_lt hid
      have hbelow := ih (fun _ => h.child_lt_of_mem_children) hnone.1
      rw [children_of_node? hn] at hbelow
      rw [List.filterMap_cons, hn]
      refine .cons (spans_iff.2 ⟨get?_of_node? hn, ?_⟩) (ihids hids hnone.2)
      rwa [children_of_node? hn]

theorem spans_toTrees :
    List.Forall₂ (f.Spans fun i a => f.get? i = some a) f.roots f.toTrees :=
  h.spans_treesFrom h.within (h.levelAt_size h.within)

section Lineages

variable {us : List (Tree (Nat × α))} (hus : List.Forall₂ (f.Spans (Labelled R)) f.roots us)
  {l : List (Nat × α)} {q : Nat × α}

include hus

/-- The indices in the trees are those of the instances below the roots, in another order. -/
theorem map_fst_preorders_perm : ((preorders us).map Prod.fst).Perm f.all := by
  have hall : f.all = (us.flatMap Tree.breadthFirst).map Prod.fst := by
    rw [← List.forall₂_eq_eq_eq, List.forall₂_map_right_iff]
    exact (h.forall₂_all hus).imp fun _ _ hlabel => hlabel.1.symm
  rw [hall]
  exact ((flatMap_breadthFirst_perm us).map _).symm

theorem mem_all_of_lineage (hl : l ++ [q] ∈ lineagesAll us) : q.1 ∈ f.all := by
  rw [← (h.map_fst_preorders_perm hus).mem_iff]
  exact List.mem_map_of_mem <|
    mem_preorders_of_mem_lineagesAll hl (List.mem_append_right l List.mem_cons_self)

/-- Every instance is at the end of a lineage. -/
theorem exists_lineage (hid : id ∈ f.all) : ∃ l q, l ++ [q] ∈ lineagesAll us ∧ q.1 = id := by
  rw [← (h.map_fst_preorders_perm hus).mem_iff, List.mem_map] at hid
  obtain ⟨q, hq, rfl⟩ := hid
  have hend : some q ∈ (lineagesAll us).map List.getLast? := by
    rw [map_getLast?_lineagesAll]
    exact List.mem_map_of_mem hq
  obtain ⟨m, hm, hlast⟩ := List.mem_map.1 hend
  obtain ⟨l, rfl⟩ := List.getLast?_eq_some_iff.1 hlast
  exact ⟨l, q, hm, rfl⟩

/-- There is one lineage to every index. -/
theorem lineage_unique {l' : List (Nat × α)} {q' : Nat × α} (hl : l ++ [q] ∈ lineagesAll us)
    (hl' : l' ++ [q'] ∈ lineagesAll us) (heq : q.1 = q'.1) : l ++ [q] = l' ++ [q'] := by
  have hnodup : ((lineagesAll us).map fun m => m.getLast?.map Prod.fst).Nodup := by
    have hends := congrArg (List.map (Option.map Prod.fst)) (map_getLast?_lineagesAll us)
    have hindices := (h.map_fst_preorders_perm hus).nodup_iff.2 h.nodup_all
    have hsome := hindices.map (f := some) fun _ _ => Option.some.inj
    rw [List.map_map, List.map_map] at hends
    rw [List.map_map] at hsome
    exact (congrArg List.Nodup hends).mpr hsome
  refine List.inj_on_of_nodup_map hnodup hl hl' ?_
  rw [List.getLast?_concat, List.getLast?_concat, Option.map_some, Option.map_some, heq]

/-- The parent of the instance at the end of a lineage is that before it. -/
theorem parent?_of_lineage (hl : l ++ [q] ∈ lineagesAll us) :
    f.parent? q.1 = l.getLast?.map Prod.fst := by
  obtain ⟨-, hfirst, hrest⟩ := links_of_lineage hus hl
  cases hlast : l.getLast? with
  | none => exact h.parent?_of_mem_roots (hfirst (List.getLast?_eq_none_iff.1 hlast))
  | some p => exact h.hasParent_iff.2 (hrest p hlast)

variable {body : α → Instance} (hbody : ∀ i a, R i a → f.get? i = some (body a))

include hbody

/-- The way up from the end of a lineage goes through the names on it. -/
theorem climbs_of_lineage (hl : l ∈ lineagesAll us) :
    f.Climbs (l.getLast?.map Prod.fst) (l.map fun q => (body q.2).name) := by
  induction l using List.reverseRecOn with
  | nil => exact .done
  | append_singleton l q ih =>
    obtain ⟨hvalue, -⟩ := links_of_lineage hus hl
    obtain ⟨n, hn, hbodyn⟩ := Option.map_eq_some_iff.1 (hbody _ _ hvalue)
    have hparent := (parent?_of_node? hn).symm.trans (h.parent?_of_lineage hus hl)
    rw [List.getLast?_concat, List.map_append]
    refine climbs_concat_iff.2 ⟨n, hn, congrArg Instance.name hbodyn, ?_⟩
    rw [hparent]
    rcases eq_or_ne l [] with rfl | hne
    · exact .done
    · exact ih (mem_lineagesAll_of_append hl hne)

/-- The path of the instance at the end of a lineage consists of the names on it. -/
theorem path_of_lineage (hl : l ++ [q] ∈ lineagesAll us) :
    f.path q.1 = pathOf ((l ++ [q]).map fun q => (body q.2).name) := by
  have hclimbs := h.climbs_of_lineage hus hbody hl
  rw [List.getLast?_concat] at hclimbs
  obtain ⟨n, hn, -⟩ := Option.map_eq_some_iff.1 (hbody _ _ (links_of_lineage hus hl).1)
  obtain ⟨names, hnames, hpath⟩ := h.climbs_path (lt_of_node? hn)
  rw [hpath, hnames.unique hclimbs]

end Lineages

/-- The paths of all instances are those of the lineages, in another order. -/
theorem map_path_perm {body : α → Instance} (hbody : ∀ i a, R i a → f.get? i = some (body a))
    (hspans : List.Forall₂ (f.Spans R) f.roots ts) :
    (f.all.map f.path).Perm
      ((lineagesAll ts).map fun l => pathOf (l.map fun v => (body v).name)) := by
  obtain ⟨us, rfl, hus⟩ := exists_labelled hspans
  refine ((h.map_fst_preorders_perm hus).symm.map _).trans (.of_eq ?_)
  -- The last values of the lineages are the values in preorder.
  have hends := congrArg (List.map fun q => (q.map fun q : Nat × α => f.path q.1).getD "")
    (map_getLast?_lineagesAll us)
  rw [List.map_map, List.map_map] at hends
  rw [lineagesAll_map, List.map_map, List.map_map]
  refine hends.symm.trans (List.map_congr_left fun l hl => ?_)
  obtain ⟨m, q, rfl⟩ := l.eq_nil_or_concat'.resolve_left (ne_nil_of_mem_lineagesAll hl)
  rw [Function.comp_apply, List.getLast?_concat, Function.comp_apply, List.map_map]
  exact h.path_of_lineage hus hbody hl

/-- Two instances have the same path exactly if one path stands twice in the list of all paths. -/
theorem exists_path_eq_iff :
    (∃ i ∈ f.all, ∃ j ∈ f.all, i ≠ j ∧ f.path i = f.path j) ↔ ¬(f.all.map f.path).Nodup := by
  rw [List.nodup_map_iff_inj_on h.nodup_all]
  push Not
  exact exists_congr fun i => and_congr_right fun _ => exists_congr fun j =>
    and_congr_right fun _ => and_comm

end TreeShaped

end Forest

end Deployment

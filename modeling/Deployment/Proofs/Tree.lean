import Deployment.Tree
import Mathlib.Data.List.Nodup
import Mathlib.Data.List.Perm.Basic

/-!
# Lineages

The *lineage* of a node is the list of the values from the root of its tree down to it. A
list of trees is read here as the list of the lineages of its nodes, a node before what is
below it.

* `inductionOn`, `forestInduction`: induction on a tree, and on a list of trees, when what
  stands below satisfies the property already;
* `mem_lineagesAll_iff`: a lineage begins at a root and goes on among its children;
* `nodup_lineagesAll_iff`: no two nodes have the same lineage, up to a key of the values,
  exactly if no two nodes side by side have the same key;
* `breadthFirst_perm`: the values by levels are the values in preorder, in another order.
-/

universe u v w

namespace Deployment.Tree

variable {α : Type u} {β : Type v}

/-- A property that passes from the children of every node to the node holds of every tree. -/
@[elab_as_elim]
theorem inductionOn {P : Tree α → Prop} (t : Tree α)
    (node : ∀ v children, (∀ c ∈ children, P c) → P (.node v children)) : P t :=
  Tree.rec (motive_1 := P) (motive_2 := fun ts => ∀ t ∈ ts, P t)
    (fun v children ih => node v children ih)
    (fun _ h => absurd h List.not_mem_nil)
    (fun _ _ ht hts _ h => (List.mem_cons.1 h).elim (fun e => e ▸ ht) (hts _)) t

/-- A property that passes from what stands below each of some trees to the trees holds of every
    list of trees. -/
theorem forestInduction {P : List (Tree α) → Prop}
    (step : ∀ ts, (∀ t ∈ ts, P t.children) → P ts) (ts : List (Tree α)) : P ts :=
  step ts fun t _ => inductionOn t fun _ children ih => step children ih

theorem preorders_eq_flatMap (ts : List (Tree α)) : preorders ts = ts.flatMap preorder := by
  induction ts with
  | nil => rfl
  | cons t ts ih => rw [preorders, ih, List.flatMap_cons]

theorem mapAll_eq_map (f : α → β) (ts : List (Tree α)) : mapAll f ts = ts.map (map f) := by
  induction ts with
  | nil => rfl
  | cons t ts ih => rw [mapAll, ih, List.map_cons]

@[simp] theorem value_map (f : α → β) (t : Tree α) : (t.map f).value = f t.value := by
  cases t
  rfl

@[simp] theorem children_map (f : α → β) (t : Tree α) :
    (t.map f).children = t.children.map (map f) := by
  cases t with
  | node v children => exact mapAll_eq_map f children

theorem map_node (f : α → β) (v : α) (children : List (Tree α)) :
    (Tree.node v children).map f = .node (f v) (children.map (map f)) := by
  rw [map, mapAll_eq_map]

theorem map_map {γ : Type w} (f : α → β) (g : β → γ) (t : Tree α) :
    (t.map f).map g = t.map (g ∘ f) := by
  induction t using inductionOn with
  | node v children ih =>
    rw [map_node, map_node, map_node, List.map_map]
    exact congrArg _ (List.map_congr_left ih)

theorem map_id (t : Tree α) : t.map id = t := by
  induction t using inductionOn with
  | node v children ih =>
    rw [map_node]
    have hchildren : children.map (map id) = children :=
      (List.map_congr_left ih).trans (List.map_id' children)
    rw [hchildren]
    rfl

theorem preorders_map_of {f : α → β} {ts : List (Tree α)}
    (h : ∀ t ∈ ts, (t.map f).preorder = t.preorder.map f) :
    preorders (ts.map (map f)) = (preorders ts).map f := by
  induction ts with
  | nil => rfl
  | cons t ts ih =>
    rw [List.map_cons, preorders, preorders, h t List.mem_cons_self,
      ih fun u hu => h u (List.mem_cons_of_mem _ hu), List.map_append]

theorem preorder_map (f : α → β) (t : Tree α) : (t.map f).preorder = t.preorder.map f := by
  induction t using inductionOn with
  | node v children ih => rw [map_node, preorder, preorder, preorders_map_of ih, List.map_cons]

theorem preorders_mapAll (f : α → β) (ts : List (Tree α)) :
    preorders (mapAll f ts) = (preorders ts).map f := by
  rw [mapAll_eq_map]
  exact preorders_map_of fun t _ => preorder_map f t

theorem mem_preorders_of_mem {ts : List (Tree α)} {t : Tree α} (ht : t ∈ ts) {v : α}
    (hv : v ∈ t.preorder) : v ∈ preorders ts := by
  rw [preorders_eq_flatMap]
  exact List.mem_flatMap.2 ⟨t, ht, hv⟩

theorem map_congr {f g : α → β} {t : Tree α} (h : ∀ v ∈ t.preorder, f v = g v) :
    t.map f = t.map g := by
  induction t using inductionOn with
  | node v children ih =>
    have hchildren : children.map (map f) = children.map (map g) :=
      List.map_congr_left fun c hc => ih c hc fun w hw =>
        h w (List.mem_cons_of_mem _ (mem_preorders_of_mem hc hw))
    rw [map_node, map_node, h v List.mem_cons_self, hchildren]

theorem mapAll_congr {f g : α → β} {ts : List (Tree α)} (h : ∀ v ∈ preorders ts, f v = g v) :
    mapAll f ts = mapAll g ts := by
  rw [mapAll_eq_map, mapAll_eq_map]
  exact List.map_congr_left fun t ht => map_congr fun v hv => h v (mem_preorders_of_mem ht hv)

theorem mapAll_id (ts : List (Tree α)) : mapAll id ts = ts := by
  rw [mapAll_eq_map]
  exact (List.map_congr_left fun t _ => map_id t).trans (List.map_id' ts)

/-! ### Trees of the same shape -/

theorem sameAll_map_iff_of {eq : α → α → Bool} {f : α → α} {ts : List (Tree α)}
    (h : ∀ t ∈ ts, t.same eq (t.map f) = true ↔ ∀ v ∈ t.preorder, eq v (f v) = true) :
    sameAll eq ts (ts.map (map f)) = true ↔ ∀ v ∈ preorders ts, eq v (f v) = true := by
  induction ts with
  | nil => exact ⟨fun _ _ hv => (nomatch hv), fun _ => rfl⟩
  | cons t ts ih =>
    rw [List.map_cons, sameAll, Bool.and_eq_true, h t List.mem_cons_self,
      ih fun u hu => h u (List.mem_cons_of_mem _ hu), preorders, List.forall_mem_append]

theorem same_map_iff {eq : α → α → Bool} {f : α → α} {t : Tree α} :
    t.same eq (t.map f) = true ↔ ∀ v ∈ t.preorder, eq v (f v) = true := by
  induction t using inductionOn with
  | node v children ih =>
    rw [map_node, same, Bool.and_eq_true, sameAll_map_iff_of ih, preorder, List.forall_mem_cons]

/-- Trees are the same as changed ones exactly if every value is related to the changed one. -/
theorem sameAll_mapAll_iff {eq : α → α → Bool} {f : α → α} {ts : List (Tree α)} :
    sameAll eq ts (mapAll f ts) = true ↔ ∀ v ∈ preorders ts, eq v (f v) = true := by
  rw [mapAll_eq_map]
  exact sameAll_map_iff_of fun _ _ => same_map_iff

/-! ### Lineages -/

mutual

/-- The lineages of the nodes of a tree, a node before what is below it. -/
def lineages : Tree α → List (List α)
  | .node v children => [v] :: (lineagesAll children).map (v :: ·)

/-- The lineages of the nodes of some trees, tree after tree. -/
def lineagesAll : List (Tree α) → List (List α)
  | [] => []
  | t :: ts => lineages t ++ lineagesAll ts

end

theorem lineagesAll_eq_flatMap (ts : List (Tree α)) : lineagesAll ts = ts.flatMap lineages := by
  induction ts with
  | nil => rfl
  | cons t ts ih => rw [lineagesAll, ih, List.flatMap_cons]

theorem lineages_eq (t : Tree α) :
    t.lineages = [t.value] :: (lineagesAll t.children).map (t.value :: ·) := by
  cases t
  rfl

/-- Trees in another order have their lineages in another order. -/
theorem lineagesAll_perm {ts us : List (Tree α)} (h : ts.Perm us) :
    (lineagesAll ts).Perm (lineagesAll us) := by
  rw [lineagesAll_eq_flatMap, lineagesAll_eq_flatMap]
  exact h.flatMap_right _

/-- Changing the values changes the lineages value by value. -/
theorem lineages_map (f : α → β) (t : Tree α) :
    (t.map f).lineages = t.lineages.map (List.map f) := by
  induction t using inductionOn with
  | node v children ih =>
    have hall : lineagesAll (children.map (map f)) = (lineagesAll children).map (List.map f) := by
      rw [lineagesAll_eq_flatMap, lineagesAll_eq_flatMap, List.flatMap_map, List.map_flatMap]
      exact List.flatMap_congr ih
    rw [map_node, lineages, lineages, hall]
    simp [Function.comp_def]

theorem lineagesAll_map (f : α → β) (ts : List (Tree α)) :
    lineagesAll (ts.map (map f)) = (lineagesAll ts).map (List.map f) := by
  rw [lineagesAll_eq_flatMap, lineagesAll_eq_flatMap, List.flatMap_map, List.map_flatMap]
  exact List.flatMap_congr fun t _ => lineages_map f t

/-- A lineage is that of a root, or goes on among the children of one. -/
theorem mem_lineagesAll_iff {ts : List (Tree α)} {l : List α} :
    l ∈ lineagesAll ts ↔
      ∃ t ∈ ts, l = [t.value] ∨ ∃ l' ∈ lineagesAll t.children, l = t.value :: l' := by
  rw [lineagesAll_eq_flatMap, List.mem_flatMap]
  refine exists_congr fun t => and_congr_right fun _ => ?_
  rw [lineages_eq, List.mem_cons, List.mem_map]
  exact or_congr_right (exists_congr fun l' => and_congr_right fun _ => eq_comm)

theorem ne_nil_of_mem_lineagesAll {ts : List (Tree α)} {l : List α} (h : l ∈ lineagesAll ts) :
    l ≠ [] := by
  rcases mem_lineagesAll_iff.1 h with ⟨t, -, rfl | ⟨l', -, rfl⟩⟩
  · exact List.cons_ne_nil _ _
  · exact List.cons_ne_nil _ _

/-- What stands before the end of a lineage is a lineage. -/
theorem mem_lineagesAll_of_append {ts : List (Tree α)} {l : List α} {v : α}
    (h : l ++ [v] ∈ lineagesAll ts) (hl : l ≠ []) : l ∈ lineagesAll ts := by
  induction l generalizing ts with
  | nil => exact absurd rfl hl
  | cons w l ih =>
    obtain ⟨t, ht, heq⟩ := mem_lineagesAll_iff.1 h
    refine mem_lineagesAll_iff.2 ⟨t, ht, ?_⟩
    rcases heq with heq | ⟨l', hl', heq⟩
    · exact absurd (List.cons.inj heq).2
        (List.append_ne_nil_of_right_ne_nil l (List.cons_ne_nil _ _))
    · obtain ⟨rfl, rfl⟩ := List.cons.inj heq
      rcases eq_or_ne l [] with rfl | hne
      · exact .inl rfl
      · exact .inr ⟨l, ih hl' hne, rfl⟩

theorem mem_preorders_of_mem_lineagesAll {ts : List (Tree α)} {l : List α}
    (hl : l ∈ lineagesAll ts) {v : α} (hv : v ∈ l) : v ∈ preorders ts := by
  induction l generalizing ts with
  | nil => exact nomatch hv
  | cons w l ih =>
    obtain ⟨⟨u, children⟩, ht, hl⟩ := mem_lineagesAll_iff.1 hl
    refine mem_preorders_of_mem ht (List.mem_cons.2 ?_)
    rcases hl with hl | ⟨l', hl', hl⟩
    · cases hl
      exact .inl (List.mem_singleton.1 hv)
    · cases hl
      exact (List.mem_cons.1 hv).imp_right (ih hl')

theorem map_getLast?_lineagesAll_of {ts : List (Tree α)}
    (h : ∀ t ∈ ts, t.lineages.map List.getLast? = t.preorder.map some) :
    (lineagesAll ts).map List.getLast? = (preorders ts).map some := by
  induction ts with
  | nil => rfl
  | cons t ts ih =>
    rw [lineagesAll, preorders, List.map_append, List.map_append, h t List.mem_cons_self,
      ih fun u hu => h u (List.mem_cons_of_mem _ hu)]

theorem map_getLast?_lineages (t : Tree α) :
    t.lineages.map List.getLast? = t.preorder.map some := by
  induction t using inductionOn with
  | node v children ih =>
    have hbelow : (lineagesAll children).map (List.getLast? ∘ (v :: ·)) =
        (lineagesAll children).map List.getLast? := by
      refine List.map_congr_left fun l hl => ?_
      obtain ⟨w, m, rfl⟩ := List.exists_cons_of_ne_nil (ne_nil_of_mem_lineagesAll hl)
      exact List.getLast?_cons_cons
    rw [lineages, preorder, List.map_cons, List.map_map, hbelow, map_getLast?_lineagesAll_of ih]
    rfl

/-- The values in preorder are those at the ends of the lineages. -/
theorem map_getLast?_lineagesAll (ts : List (Tree α)) :
    (lineagesAll ts).map List.getLast? = (preorders ts).map some :=
  map_getLast?_lineagesAll_of fun t _ => map_getLast?_lineages t

/-- A lineage begins with the value of a root. -/
theorem head_of_mem_lineages {t : Tree α} {l : List α} (h : l ∈ t.lineages) :
    l.head? = some t.value := by
  rw [lineages_eq, List.mem_cons, List.mem_map] at h
  rcases h with rfl | ⟨l', -, rfl⟩
  · rfl
  · rfl

/-! ### Nodes with the same lineage -/

mutual

/-- No two nodes side by side below a node of the tree have the same key. -/
def Distinct (key : α → β) : Tree α → Prop
  | .node _ children => (children.map fun c => key c.value).Nodup ∧ DistinctBelow key children

/-- No two nodes side by side below a node of one of the trees have the same key. -/
def DistinctBelow (key : α → β) : List (Tree α) → Prop
  | [] => True
  | t :: ts => Distinct key t ∧ DistinctBelow key ts

end

theorem distinctBelow_iff {key : α → β} {ts : List (Tree α)} :
    DistinctBelow key ts ↔ ∀ t ∈ ts, Distinct key t := by
  induction ts with
  | nil => simp [DistinctBelow]
  | cons t ts ih => simp [DistinctBelow, ih]

/-- No two nodes side by side have the same key. -/
def DistinctAll (key : α → β) (ts : List (Tree α)) : Prop :=
  (ts.map fun t => key t.value).Nodup ∧ ∀ t ∈ ts, Distinct key t

theorem distinctAll_perm {key : α → β} {ts us : List (Tree α)} (h : ts.Perm us) :
    DistinctAll key ts ↔ DistinctAll key us :=
  and_congr ((h.map _).nodup_iff) (forall_congr' fun _ => imp_congr_left h.mem_iff)

theorem distinct_iff {key : α → β} {t : Tree α} : Distinct key t ↔ DistinctAll key t.children := by
  cases t with
  | node v children => rw [Distinct, distinctBelow_iff]; rfl

/-- Lineages of trees with different keys at their roots are different. -/
theorem disjoint_lineages {key : α → β} {t u : Tree α} (h : key t.value ≠ key u.value) :
    List.Disjoint (t.lineages.map (List.map key)) (u.lineages.map (List.map key)) := by
  intro l ht hu
  obtain ⟨l₁, h₁, rfl⟩ := List.mem_map.1 ht
  obtain ⟨l₂, h₂, heq⟩ := List.mem_map.1 hu
  have hhead := congrArg List.head? heq
  rw [List.head?_map, List.head?_map, head_of_mem_lineages h₁, head_of_mem_lineages h₂] at hhead
  exact h (Option.some.inj hhead).symm

theorem nodup_lineagesAll_iff_of_children {key : α → β} {ts : List (Tree α)}
    (h : ∀ t ∈ ts, (t.lineages.map (List.map key)).Nodup ↔ Distinct key t) :
    ((lineagesAll ts).map (List.map key)).Nodup ↔ DistinctAll key ts := by
  induction ts with
  | nil => simp [lineagesAll, DistinctAll]
  | cons t ts ih =>
    have ih := ih fun u hu => h u (List.mem_cons_of_mem _ hu)
    rw [lineagesAll, List.map_append, List.nodup_append', h t List.mem_cons_self, ih]
    constructor
    · rintro ⟨ht, ⟨hvalues, hts⟩, hdisj⟩
      refine ⟨List.nodup_cons.2 ⟨fun hmem => ?_, hvalues⟩, List.forall_mem_cons.2 ⟨ht, hts⟩⟩
      -- A later tree with the key of the first one has the same lineage at its root.
      obtain ⟨u, hu, hkey⟩ := List.mem_map.1 hmem
      refine hdisj (a := [key t.value]) ?_ ?_
      · rw [lineages_eq]
        exact List.mem_cons_self
      · refine List.mem_map.2 ⟨[u.value], ?_, by simpa using hkey⟩
        exact mem_lineagesAll_iff.2 ⟨u, hu, .inl rfl⟩
    · rintro ⟨hvalues, hall⟩
      rw [List.map_cons, List.nodup_cons] at hvalues
      refine ⟨hall t List.mem_cons_self,
        ⟨hvalues.2, fun u hu => hall u (List.mem_cons_of_mem _ hu)⟩, ?_⟩
      intro l ht hts
      obtain ⟨l', hl', rfl⟩ := List.mem_map.1 hts
      rw [lineagesAll_eq_flatMap, List.mem_flatMap] at hl'
      obtain ⟨u, hu, hl'⟩ := hl'
      have hne : key t.value ≠ key u.value := fun e =>
        hvalues.1 (e ▸ List.mem_map_of_mem (f := fun u => key u.value) hu)
      exact disjoint_lineages hne ht (List.mem_map_of_mem hl')

theorem nodup_lineages_iff {key : α → β} (t : Tree α) :
    (t.lineages.map (List.map key)).Nodup ↔ Distinct key t := by
  induction t using inductionOn with
  | node v cs ih =>
    have hbelow := nodup_lineagesAll_iff_of_children ih
    have hinj : Function.Injective (key v :: · : List β → List β) := List.cons_injective
    rw [distinct_iff, children, ← hbelow, lineages, List.map_cons, List.map_map, List.nodup_cons,
      ← List.nodup_map_iff hinj (l := (lineagesAll cs).map (List.map key)), List.map_map]
    refine and_iff_right fun hmem => ?_
    obtain ⟨l, hl, heq⟩ := List.mem_map.1 hmem
    exact ne_nil_of_mem_lineagesAll hl (by simpa using heq)

/-- No two nodes have the same lineage, up to a key of the values, exactly if no two nodes
    side by side have the same key. -/
theorem nodup_lineagesAll_iff {key : α → β} {ts : List (Tree α)} :
    ((lineagesAll ts).map (List.map key)).Nodup ↔ DistinctAll key ts :=
  nodup_lineagesAll_iff_of_children fun t _ => nodup_lineages_iff t

/-! ### Levels -/

theorem mergeLevels_nil (ls : List (List α)) : mergeLevels ls [] = ls := by
  cases ls <;> rfl

theorem mergeLevels_assoc (ls ms ns : List (List α)) :
    mergeLevels (mergeLevels ls ms) ns = mergeLevels ls (mergeLevels ms ns) := by
  induction ls generalizing ms ns with
  | nil => rw [mergeLevels, mergeLevels]
  | cons l ls ih =>
    cases ms with
    | nil => rfl
    | cons m ms =>
      cases ns with
      | nil => rfl
      | cons n ns => simp only [mergeLevels, ih, List.append_assoc]

theorem levelsAll_append (ts us : List (Tree α)) :
    levelsAll (ts ++ us) = mergeLevels (levelsAll ts) (levelsAll us) := by
  induction ts with
  | nil => rfl
  | cons t ts ih => rw [List.cons_append, levelsAll, levelsAll, ih, mergeLevels_assoc]

/-- The first level of some trees are the values at their roots, and the levels below it are those
    of what is below the roots. -/
theorem levelsAll_eq_cons {ts : List (Tree α)} (h : ts ≠ []) :
    levelsAll ts = ts.map value :: levelsAll (ts.flatMap children) := by
  induction ts with
  | nil => exact absurd rfl h
  | cons t ts ih =>
    obtain ⟨v, cs⟩ := t
    rw [levelsAll, levels, List.flatMap_cons, levelsAll_append]
    cases ts with
    | nil => rw [levelsAll, mergeLevels_nil, List.flatMap_nil, levelsAll, mergeLevels_nil]; rfl
    | cons u us => rw [ih (List.cons_ne_nil u us), mergeLevels]; rfl

theorem mergeLevels_flatten_perm (ls ms : List (List α)) :
    (mergeLevels ls ms).flatten.Perm (ls.flatten ++ ms.flatten) := by
  induction ls generalizing ms with
  | nil => rw [mergeLevels]; exact .refl _
  | cons l ls ih =>
    cases ms with
    | nil => rw [mergeLevels, List.flatten_nil, List.append_nil]; exact fun h => nomatch h
    | cons m ms =>
      rw [mergeLevels, List.flatten_cons, List.flatten_cons, List.flatten_cons]
      refine ((ih ms).append_left _).trans ?_
      rw [List.append_assoc, List.append_assoc]
      refine List.Perm.append_left l ?_
      rw [← List.append_assoc, ← List.append_assoc]
      exact List.perm_append_comm.append_right _

/-- The values by levels are the values in preorder, in another order. -/
theorem breadthFirst_perm (t : Tree α) : t.breadthFirst.Perm t.preorder := by
  induction t using inductionOn with
  | node v children ih =>
    rw [breadthFirst, levels, preorder, List.flatten_cons, List.singleton_append]
    refine List.Perm.cons v ?_
    induction children with
    | nil => exact .refl _
    | cons c cs ihcs =>
      rw [levelsAll, preorders]
      refine (mergeLevels_flatten_perm _ _).trans (List.Perm.append (ih c List.mem_cons_self) ?_)
      exact ihcs fun c' hc' => ih c' (List.mem_cons_of_mem _ hc')

theorem flatMap_breadthFirst_perm (ts : List (Tree α)) :
    (ts.flatMap breadthFirst).Perm (preorders ts) := by
  induction ts with
  | nil => exact .refl _
  | cons t ts ih => exact (breadthFirst_perm t).append ih

end Deployment.Tree

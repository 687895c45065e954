import Deployment.InstanceBuilder
import Deployment.Proofs.Draft.Expansion

/-!
# Places of drafts

What can be said against the instances of some drafts can be said before any copy is made. The paths
of all first copies are known from the drafts around them (`Placed`), and so are the names of all
that will stand beside them.

* `unknownComponents`: drafts of instances of no known component;
* `clashes`: further copies with a name that another instance beside them has;
* `repetitions`: drafts whose first copies have the same path;
* `distinctAll_expandAll_iff`: copies side by side have different names exactly if the first
  copies do and no further copy has a name of those beside it.
-/

namespace Deployment.InstanceCompilation

open Deployment.Tree Draft

/-! ### What is found about drafts -/

/-- What is found about the component of a draft. -/
def unknownComponent (g : TypeGraph) (d : Draft) : List Diagnostic :=
  if g.components.contains d.body.component then []
  else [.found d.site .inexistingComponent [⟨.component, d.body.component⟩]]

/-- The drafts of instances whose component is not in the graph. -/
def unknownComponents (g : TypeGraph) (drafts : List (Tree Draft)) : List Diagnostic :=
  (drafts.flatMap Tree.breadthFirst).flatMap (unknownComponent g)

/-- A draft in its place: below the first copies of the drafts around it. -/
structure Placed where
  /-- The draft. -/
  draft : Draft
  /-- The names above it. -/
  above : List String
  /-- The names of all copies of the drafts beside it, its own included. -/
  beside : List String

namespace Placed

/-- The path of a copy of a given name. -/
def pathOf (p : Placed) (name : String) : String := Forest.pathOf (p.above ++ [name])

/-- The path of the first copy. -/
def path (p : Placed) : String := p.pathOf p.draft.firstName

/-- The paths of the further copies whose name occurs twice beside them. -/
def clashing (p : Placed) : List String :=
  (p.draft.names.tail.filter fun name => 1 < p.beside.count name).map p.pathOf

end Placed

/-- The names of all copies of some drafts. -/
def allNames (drafts : List (Tree Draft)) : List String := drafts.flatMap fun t => t.value.names

mutual

/-- A draft in its place, and the drafts below it in theirs. -/
def place (above beside : List String) : Tree Draft → Tree Placed
  | .node d children =>
    .node ⟨d, above, beside⟩ (placeAll (above ++ [d.firstName]) (allNames children) children)

/-- Some drafts in their places. -/
def placeAll (above beside : List String) : List (Tree Draft) → List (Tree Placed)
  | [] => []
  | t :: ts => place above beside t :: placeAll above beside ts

end

/-- Drafts at the roots in their places. -/
def placed (drafts : List (Tree Draft)) : List (Tree Placed) :=
  placeAll [] (allNames drafts) drafts

/-- The further copies whose name another instance beside them has, each path once. Copies
    are looked at from the deepest draft to the root, tree by tree. -/
def clashes (drafts : List (Tree Draft)) : List Diagnostic :=
  let paths := (placed drafts).flatMap fun t => t.breadthFirst.reverse.flatMap Placed.clashing
  (NameSet.ofList paths).toList.map fun path =>
    ⟨.conflictingInferredInstance, [⟨.instancePath, path⟩]⟩

/-- The paths that declarations come to, with the places of the declarations. -/
def declaredPaths (drafts : List (Tree Draft)) : List (String × Site) :=
  ((placed drafts).flatMap Tree.breadthFirst).map fun p => (p.path, p.draft.site)

/-- The declarations whose first copies have the same path, path by path. -/
def repetitions (drafts : List (Tree Draft)) : List Diagnostic :=
  InstanceBuilder.repetitions (declaredPaths drafts)

/-! ### Names side by side -/

/-- The names of all copies differ exactly if those of the first copies do and the name of no
    further copy occurs twice. -/
theorem nodup_allNames_iff (ts : List (Tree Draft)) :
    (allNames ts).Nodup ↔ (ts.map fun t => t.value.firstName).Nodup ∧
      ∀ t ∈ ts, ∀ name ∈ t.value.names.tail, (allNames ts).count name ≤ 1 := by
  have hfirst : (ts.map fun t => t.value.names).filterMap List.head? =
      ts.map fun t => t.value.firstName := by
    rw [List.filterMap_map, ← List.filterMap_eq_map]
    refine List.filterMap_congr fun t _ => ?_
    rw [Function.comp_apply, names_eq_cons]
    rfl
  have hperm : (allNames ts).Perm
      ((ts.map fun t => t.value.firstName) ++ ts.flatMap fun t => t.value.names.tail) := by
    have := (arrangeRoots_perm (ts.map fun t => t.value.names)).symm
    rw [← List.flatMap_def, arrangeRoots, hfirst, List.flatMap_map] at this
    exact this
  constructor
  · intro h
    refine ⟨(List.nodup_append'.1 (hperm.nodup_iff.1 h)).1, fun t _ name _ => ?_⟩
    exact List.nodup_iff_count_le_one.1 h name
  · rintro ⟨hnodup, hcount⟩
    refine List.nodup_iff_count_le_one.2 fun name => ?_
    by_cases hmem : name ∈ ts.flatMap fun t => t.value.names.tail
    · obtain ⟨t, ht, hname⟩ := List.mem_flatMap.1 hmem
      exact hcount t ht name hname
    · -- Only first copies have the name.
      rw [hperm.count_eq, List.count_append, List.count_eq_zero.2 hmem]
      exact List.nodup_iff_count_le_one.1 hnodup name

theorem expand_eq (t : Tree Draft) :
    expand t = t.value.names.map fun name =>
      .node (t.value.rename name) (arrange (expandAll t.children)) := by
  cases t
  rfl

theorem mem_flatten_expandAll {ts : List (Tree Draft)} {u : Tree Draft} :
    u ∈ (expandAll ts).flatten ↔ ∃ t ∈ ts, ∃ name ∈ t.value.names,
      u = .node (t.value.rename name) (arrange (expandAll t.children)) := by
  induction ts with
  | nil => simp [expandAll]
  | cons t ts ih =>
    rw [expandAll, List.flatten_cons, List.mem_append, ih, expand_eq]
    simp [eq_comm]

theorem map_name_expandAll (ts : List (Tree Draft)) :
    ((expandAll ts).flatten.map fun u => u.value.body.name) = allNames ts := by
  induction ts with
  | nil => rfl
  | cons t ts ih =>
    rw [expandAll, List.flatten_cons, List.map_append, ih, expand_eq, List.map_map]
    exact congrArg (· ++ allNames ts) (List.map_id _)

/-- Copies have different names side by side exactly if the names of all copies beside each
    other differ, at the roots and below every draft. -/
theorem distinctAll_expandAll (ts : List (Tree Draft)) :
    DistinctAll (fun d => d.body.name) (expandAll ts).flatten ↔ (allNames ts).Nodup ∧
      ∀ t ∈ ts, DistinctAll (fun d => d.body.name) (expandAll t.children).flatten := by
  refine and_congr (by rw [map_name_expandAll]) ?_
  have hbelow : ∀ (d : Draft) (name : String) (children : List (Tree Draft)),
      Distinct (fun d => d.body.name) (.node (d.rename name) (arrange (expandAll children))) ↔
        DistinctAll (fun d => d.body.name) (expandAll children).flatten := fun d name children =>
    distinct_iff.trans (distinctAll_perm (arrange_perm _))
  constructor
  · intro h t ht
    have hname : t.value.firstName ∈ t.value.names := by
      rw [names_eq_cons]
      exact List.mem_cons_self
    exact (hbelow ..).1 (h _ (mem_flatten_expandAll.2 ⟨t, ht, _, hname, rfl⟩))
  · intro h u hu
    obtain ⟨t, ht, name, -, rfl⟩ := mem_flatten_expandAll.1 hu
    exact (hbelow ..).2 (h t ht)

/-! ### Drafts in their places -/

theorem clashing_eq_nil_iff {p : Placed} :
    p.clashing = [] ↔ ∀ name ∈ p.draft.names.tail, p.beside.count name ≤ 1 := by
  simp [Placed.clashing]

/-- A draft in its place is one of the drafts at hand, or stands below one. -/
theorem mem_preorders_placeAll {above beside : List String} {ts : List (Tree Draft)} {p : Placed} :
    p ∈ preorders (placeAll above beside ts) ↔ ∃ t ∈ ts, p = ⟨t.value, above, beside⟩ ∨
      p ∈ preorders (placeAll (above ++ [t.value.firstName]) (allNames t.children) t.children) := by
  induction ts with
  | nil => simp [placeAll, preorders]
  | cons t ts ih =>
    obtain ⟨d, children⟩ := t
    rw [placeAll, preorders, List.mem_append, ih, place, preorder, List.mem_cons]
    simp [Tree.value, Tree.children]

/-- The names down to the first copies of the drafts are those on the lineages. -/
theorem map_preorders_placeAll_of {ts : List (Tree Draft)}
    (h : ∀ t ∈ ts, ∀ above beside, ((place above beside t).preorder.map fun p =>
      p.above ++ [p.draft.firstName]) = t.lineages.map fun l => above ++ l.map firstName)
    (above beside : List String) :
    ((preorders (placeAll above beside ts)).map fun p => p.above ++ [p.draft.firstName]) =
      (lineagesAll ts).map fun l => above ++ l.map firstName := by
  induction ts with
  | nil => rfl
  | cons t ts ih =>
    rw [placeAll, preorders, lineagesAll, List.map_append, List.map_append,
      h t List.mem_cons_self, ih fun u hu => h u (List.mem_cons_of_mem _ hu)]

theorem map_preorder_place (t : Tree Draft) (above beside : List String) :
    ((place above beside t).preorder.map fun p => p.above ++ [p.draft.firstName]) =
      t.lineages.map fun l => above ++ l.map firstName := by
  induction t using Tree.inductionOn generalizing above beside with
  | node d children ih =>
    rw [place, preorder, lineages, List.map_cons, List.map_cons, List.map_map,
      map_preorders_placeAll_of ih]
    simp

/-- The paths of the first copies of the drafts are those of their lineages. -/
theorem map_path_placed (ts : List (Tree Draft)) :
    (preorders (placed ts)).map Placed.path =
      (lineagesAll ts).map fun l => Forest.pathOf (l.map firstName) := by
  have hnames := map_preorders_placeAll_of (fun t (_ : t ∈ ts) => map_preorder_place t) []
    (allNames ts)
  have hpaths := congrArg (List.map Forest.pathOf) hnames
  rw [List.map_map, List.map_map] at hpaths
  exact hpaths

/-- Copies have different names side by side exactly if the first copies do and no further copy
    has the name of another beside it. -/
theorem distinctAll_expandAll_iff (ts : List (Tree Draft)) (above : List String) :
    DistinctAll (fun d => d.body.name) (expandAll ts).flatten ↔
      (∀ p ∈ preorders (placeAll above (allNames ts) ts), p.clashing = []) ∧
        DistinctAll firstName ts := by
  induction ts using Tree.forestInduction generalizing above with
  | step ts ih =>
    -- Clashes are at the roots, or below one of them.
    have hplaced : (∀ p ∈ preorders (placeAll above (allNames ts) ts), p.clashing = []) ↔
        (∀ t ∈ ts, ∀ name ∈ t.value.names.tail, (allNames ts).count name ≤ 1) ∧
          ∀ t ∈ ts, ∀ p ∈ preorders (placeAll (above ++ [t.value.firstName])
            (allNames t.children) t.children), p.clashing = [] := by
      constructor
      · intro h
        refine ⟨fun t ht => ?_, fun t ht p hp => ?_⟩
        · exact clashing_eq_nil_iff.1 (h _ (mem_preorders_placeAll.2 ⟨t, ht, .inl rfl⟩))
        · exact h p (mem_preorders_placeAll.2 ⟨t, ht, .inr hp⟩)
      · rintro ⟨hroots, hbelow⟩ p hp
        rcases mem_preorders_placeAll.1 hp with ⟨t, ht, rfl | hp⟩
        · exact clashing_eq_nil_iff.2 (hroots t ht)
        · exact hbelow t ht p hp
    have hchildren : (∀ t ∈ ts, DistinctAll (fun d => d.body.name)
        (expandAll t.children).flatten) ↔
        (∀ t ∈ ts, ∀ p ∈ preorders (placeAll (above ++ [t.value.firstName])
          (allNames t.children) t.children), p.clashing = []) ∧
          ∀ t ∈ ts, Distinct firstName t := by
      rw [← forall₂_and]
      exact forall₂_congr fun t ht => (ih t ht _).trans (and_congr_right' distinct_iff.symm)
    rw [distinctAll_expandAll, nodup_allNames_iff, hplaced, hchildren]
    exact ⟨fun ⟨⟨hf, hr⟩, hc, hd⟩ => ⟨⟨hr, hc⟩, hf, hd⟩,
      fun ⟨⟨hr, hc⟩, hf, hd⟩ => ⟨⟨hf, hr⟩, hc, hd⟩⟩

/-! ### When nothing is found -/

theorem toList_ofList_eq_nil_iff {names : List String} :
    (NameSet.ofList names).toList = [] ↔ names = [] := by
  simp only [List.eq_nil_iff_forall_not_mem, NameSet.mem_ofList]

/-- A clash is reported exactly if a further copy has the name of another beside it. -/
theorem clashes_eq_nil_iff (ts : List (Tree Draft)) :
    clashes ts = [] ↔ ∀ p ∈ preorders (placed ts), p.clashing = [] := by
  have hmem : ∀ p, p ∈ preorders (placed ts) ↔ ∃ t ∈ placed ts, p ∈ t.breadthFirst := by
    intro p
    rw [← (flatMap_breadthFirst_perm _).mem_iff, List.mem_flatMap]
  rw [clashes, List.map_eq_nil_iff, toList_ofList_eq_nil_iff, List.flatMap_eq_nil_iff]
  constructor
  · intro h p hp
    obtain ⟨t, ht, hp⟩ := (hmem p).1 hp
    exact List.flatMap_eq_nil_iff.1 (h t ht) p (List.mem_reverse.2 hp)
  · intro h t ht
    refine List.flatMap_eq_nil_iff.2 fun p hp => ?_
    exact h p ((hmem p).2 ⟨t, ht, List.mem_reverse.1 hp⟩)

/-- Nothing is said about paths exactly if none stands twice. -/
theorem repetitions_of_paths_eq_nil_iff (declared : List (String × Site)) :
    InstanceBuilder.repetitions declared = [] ↔ (declared.map Prod.fst).Nodup := by
  have hlength : ∀ path : String, (declared.filter fun p => p.1 == path).length =
      (declared.map Prod.fst).count path := by
    intro path
    rw [List.count, List.countP_map, List.countP_eq_length_filter]
    rfl
  rw [List.nodup_iff_count_le_one, InstanceBuilder.repetitions, List.flatMap_eq_nil_iff]
  constructor
  · intro h path
    by_contra hcount
    have hmem : path ∈ declared.map Prod.fst := by
      by_contra hnot
      rw [List.count_eq_zero.2 hnot] at hcount
      omega
    have hnil := h path (NameSet.mem_ofList.2 hmem)
    rw [← hlength] at hcount
    rw [if_neg (by omega), List.map_eq_nil_iff] at hnil
    rw [hnil] at hcount
    exact hcount (Nat.zero_le _)
  · intro h path _
    have hcount := h path
    rw [← hlength] at hcount
    exact if_pos (by omega)

/-- A repetition is reported exactly if two first copies have the same path. -/
theorem repetitions_eq_nil_iff (ts : List (Tree Draft)) :
    repetitions ts = [] ↔
      ((lineagesAll ts).map fun l => Forest.pathOf (l.map firstName)).Nodup := by
  have hperm : ((declaredPaths ts).map Prod.fst).Perm
      ((lineagesAll ts).map fun l => Forest.pathOf (l.map firstName)) := by
    rw [← map_path_placed, declaredPaths, List.map_map]
    exact (flatMap_breadthFirst_perm _).map _
  rw [repetitions, repetitions_of_paths_eq_nil_iff, hperm.nodup_iff]

theorem code_of_mem_clashes {ts : List (Tree Draft)} {d : Diagnostic} (h : d ∈ clashes ts) :
    d.code = .conflictingInferredInstance := by
  obtain ⟨path, -, rfl⟩ := List.mem_map.1 h
  rfl

theorem code_of_mem_repetitions {ts : List (Tree Draft)} {d : Diagnostic}
    (h : d ∈ repetitions ts) : d.code = .alreadyDefinedInstance := by
  obtain ⟨path, -, h⟩ := List.mem_flatMap.1 h
  dsimp only at h
  split_ifs at h
  · exact nomatch h
  · obtain ⟨p, -, rfl⟩ := List.mem_map.1 h
    rfl

theorem code_of_mem_unknownComponents {g : TypeGraph} {ts : List (Tree Draft)} {d : Diagnostic}
    (h : d ∈ unknownComponents g ts) : d.code = .inexistingComponent := by
  obtain ⟨draft, -, h⟩ := List.mem_flatMap.1 h
  rw [unknownComponent] at h
  split_ifs at h
  · cases h
  · rw [List.mem_singleton.1 h]
    rfl

/-- Drafts for one copy have no further copies. -/
theorem tail_names_of_single (ts : List (Tree Draft)) (above beside : List String) :
    ∀ p ∈ preorders (placeAll above beside (ts.map (Tree.map single))),
      p.draft.names.tail = [] := by
  induction ts using Tree.forestInduction generalizing above beside with
  | step ts ih =>
    intro p hp
    obtain ⟨t, ht, hp⟩ := mem_preorders_placeAll.1 hp
    obtain ⟨c, hc, rfl⟩ := List.mem_map.1 ht
    rcases hp with rfl | hp
    · rw [value_map]
      rfl
    · rw [children_map] at hp
      exact ih c hc _ _ p hp

end Deployment.InstanceCompilation

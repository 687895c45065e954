import Deployment.Proofs.InstanceBuilder.Replicate

/-!
# Names and paths of copies

The checks come when all copies have been made, and look at the forest alone: at the names of
instances beside each other, and at paths. What they find is known from the drafts in their places
before any copy is made. An instance created for a declaration stands where its draft does, with the
name of the first copy; its copies stand beside it, under the other names of the draft, and so do
all copies of the drafts beside it (`Shows`).

* `Expanded.spans_placed`: the forest of the declarations spans the drafts in their places;
* `Shows.path_eq`, `Shows.map_filter_isTaken`: paths of copies, and those that clash;
* `Expanded.declaredPaths_eq`, `Expanded.map_filter_isTaken`: what the checks find, as the drafts
  say.
-/

namespace Deployment

open Deployment.Tree Draft InstanceCompilation

/-- Elements that are found by a filter on one side and on the other, with what they make. -/
theorem map_filter_eq_of_forall₂ {α β γ : Type} {p : α → Bool} {q : β → Bool} {f : α → γ}
    {g : β → γ} {as : List α} {bs : List β}
    (h : List.Forall₂ (fun a b => p a = q b ∧ f a = g b) as bs) :
    (as.filter p).map f = (bs.filter q).map g := by
  induction h with
  | nil => rfl
  | @cons a b as bs hab _ ih =>
    rw [List.filter_cons, List.filter_cons, ← hab.1]
    split
    · rw [List.map_cons, List.map_cons, hab.2, ih]
    · exact ih

theorem flatMap_eq_of_forall₂ {α β γ : Type} {f : α → List γ} {g : β → List γ} {as : List α}
    {bs : List β} (h : List.Forall₂ (fun a b => f a = g b) as bs) :
    as.flatMap f = bs.flatMap g := by
  induction h with
  | nil => rfl
  | cons hab _ ih => rw [List.flatMap_cons, List.flatMap_cons, hab, ih]

/-- An element of a list without repetition is not the only one with a property exactly if more than
    one has it. -/
theorem one_lt_countP_iff {α : Type} [DecidableEq α] {l : List α} {p : α → Bool} {a : α}
    (hnodup : l.Nodup) (ha : a ∈ l) (hp : p a = true) :
    1 < l.countP p ↔ ∃ b ∈ l, b ≠ a ∧ p b = true := by
  rw [(List.perm_cons_erase ha).countP_eq, List.countP_cons_of_pos hp, Nat.lt_add_left_iff_pos,
    List.countP_pos_iff]
  simp only [hnodup.mem_erase_iff, and_assoc, and_comm]

namespace InstanceBuilder

/-- The instances beside an instance, itself included. -/
def siblings (f : Forest) (id : Nat) : List Nat :=
  match f.parent? id with
  | some parent => f.children parent
  | none => f.roots

/-- The name of an instance. -/
def nameAt (f : Forest) (id : Nat) : Option String := (f.get? id).map (·.name)

/-- An instance below some names, and with some names beside it. -/
structure Standing (f : Forest) (id : Nat) (above beside : List String) : Prop where
  above : f.Climbs (f.parent? id) above
  beside : ((siblings f id).map (nameAt f)).Perm (beside.map some)

/-- A draft in its place, as a forest with copies shows it. -/
structure Shows (s : InstanceBuilder) (copies : Nat → List Nat) (id : Nat) (p : Placed) : Prop where
  names : List.Forall₂ (fun c name => s.Holds c (p.draft.rename name)) (id :: copies id)
    p.draft.names
  standing : ∀ c ∈ id :: copies id, c ∈ siblings s.forest c ∧ Standing s.forest c p.above p.beside

variable {s₀ s : InstanceBuilder} {change : Draft → Draft} {copies : Nat → List Nat} {id c : Nat}
  {ts : List (Tree Draft)} {p : Placed}

theorem placeAll_eq_map (above beside : List String) (ts : List (Tree Draft)) :
    placeAll above beside ts = ts.map (place above beside) := by
  induction ts with
  | nil => rfl
  | cons t ts ih => rw [placeAll, ih, List.map_cons]

/-- The names of instances that span trees are those at the tops of the trees. -/
theorem map_nameAt_of_spans {ids : List Nat} {us : List (Tree Draft)}
    (h : List.Forall₂ (s.forest.Spans s.Holds) ids us) :
    ids.map (nameAt s.forest) = us.map fun u => some u.value.body.name := by
  rw [← List.forall₂_eq_eq_eq, List.forall₂_map_left_iff, List.forall₂_map_right_iff]
  refine h.imp fun i u hspans => ?_
  rw [nameAt, (Forest.spans_iff.1 hspans).1.body]
  rfl

/-- Copies side by side have the names that their drafts say. -/
theorem nameAt_perm_allNames {ids : List Nat} {us : List (Tree Draft)}
    (h : List.Forall₂ (s.forest.Spans s.Holds) ids us) (hus : us.Perm (expandAll ts).flatten) :
    (ids.map (nameAt s.forest)).Perm ((allNames ts).map some) := by
  have hnames := (hus.map fun u => u.value.body.name).map some
  rw [map_name_expandAll, List.map_map] at hnames
  rw [map_nameAt_of_spans h]
  exact hnames

theorem Standing.congr {f : Forest} {above beside : List String}
    (h : Standing f id above beside) (hparent : f.parent? c = f.parent? id) :
    Standing f c above beside := by
  have hsiblings : siblings f c = siblings f id := by rw [siblings, hparent, siblings]
  exact ⟨hparent ▸ h.above, hsiblings ▸ h.beside⟩

theorem nodup_siblings {f : Forest} (h : f.TreeShaped) (id : Nat) : (siblings f id).Nodup := by
  rw [siblings]
  split
  · exact h.nodup_children _
  · exact h.nodup_roots

/-! ### Drafts in their places -/

theorem spans_placed_of {ids : List Nat} {above beside : List String}
    (hspans : List.Forall₂ (s₀.forest.Spans s₀.Reads) ids ts)
    (hids : ∀ id ∈ ids, id ∈ s₀.forest.all ∧ Standing s.forest id above beside)
    (ih : ∀ t ∈ ts, ∀ id above beside, s₀.forest.Spans s₀.Reads id t → id ∈ s₀.forest.all →
      Standing s.forest id above beside →
      s₀.forest.Spans (s.Shows copies) id (place above beside (t.map change))) :
    List.Forall₂ (s₀.forest.Spans (s.Shows copies)) ids
      (placeAll above beside (ts.map (Tree.map change))) := by
  rw [placeAll_eq_map, List.map_map]
  refine List.forall₂_map_right_iff.2 ?_
  exact (forall₂_and_right ((List.forall₂_and_left _ _).2 ⟨hids, hspans⟩) fun _ ht => ht).imp
    fun id t ⟨⟨hid, hspans⟩, ht⟩ => ih t ht id above beside hspans hid.1 hid.2

section Expanded

variable (h : Expanded change s₀ s copies) (h₀ : s₀.forest.TreeShaped)

include h h₀

theorem Expanded.mem_siblings (hid : id ∈ s₀.forest.all) (hc : c ∈ id :: copies id) :
    c ∈ siblings s.forest c := by
  have hparent := h.parents id hid c hc
  rw [siblings, hparent]
  cases htop : s₀.forest.parent? id with
  | some parent => exact h.treeShaped.hasParent_iff.1 (hparent.trans htop)
  | none =>
    have hroot := (h₀.mem_all_iff_of_top htop).1 hid
    rw [h.roots]
    rcases List.mem_cons.1 hc with rfl | hc
    · exact List.mem_append_left _ hroot
    · exact List.mem_append_right _ (List.mem_flatMap.2 ⟨id, hroot, hc⟩)

/-- The children of an instance stand below its name, beside all their copies. -/
theorem Expanded.standing_of_mem_children {d : Draft} {above beside : List String} {child : Nat}
    (hid : id ∈ s₀.forest.all) (hspans : s₀.forest.Spans s₀.Reads id (.node d ts))
    (hstanding : Standing s.forest id above beside) (hchild : child ∈ s₀.forest.children id) :
    child ∈ s₀.forest.all ∧ Standing s.forest child (above ++ [(change d).firstName])
      (allNames (ts.map (Tree.map change))) := by
  have hparent := h₀.hasParent_iff.2 hchild
  have hall := (h₀.mem_all_iff_of_parent hparent).2 hid
  have hparent' : s.forest.parent? child = some id :=
    (h.parents child hall child List.mem_cons_self).trans hparent
  have hcopies := h.spans id hid _ hspans
  rw [map_node, expand, names_eq_cons, List.map_cons] at hcopies
  cases hcopies with
  | cons hfirst _ =>
    obtain ⟨hholds, hbelow⟩ := Forest.spans_iff.1 hfirst
    obtain ⟨n, hn, hbody⟩ := Option.map_eq_some_iff.1 hholds.body
    refine ⟨hall, ⟨?_, ?_⟩⟩
    · rw [hparent', Forest.climbs_concat_iff]
      exact ⟨n, hn, congrArg Instance.name hbody, Forest.parent?_of_node? hn ▸ hstanding.above⟩
    · rw [siblings, hparent']
      exact nameAt_perm_allNames hbelow (arrange_perm _)

/-- From an instance on down, the forest of the declarations spans the drafts in their places. -/
theorem Expanded.spans_place (t : Tree Draft) (id : Nat) (above beside : List String)
    (hspans : s₀.forest.Spans s₀.Reads id t) (hid : id ∈ s₀.forest.all)
    (hstanding : Standing s.forest id above beside) :
    s₀.forest.Spans (s.Shows copies) id (place above beside (t.map change)) := by
  induction t using Tree.inductionOn generalizing id above beside with
  | node d ts ih =>
    obtain ⟨-, hchildren⟩ := Forest.spans_iff.1 hspans
    rw [map_node, place]
    refine Forest.spans_iff.2 ⟨⟨?_, fun c hc => ?_⟩, ?_⟩
    · have hcopies := h.spans id hid _ hspans
      rw [map_node, expand, List.forall₂_map_right_iff] at hcopies
      exact hcopies.imp fun _ _ hspans => (Forest.spans_iff.1 hspans).1
    · have hparent : s.forest.parent? c = s.forest.parent? id :=
        (h.parents id hid c hc).trans (h.parents id hid id List.mem_cons_self).symm
      exact ⟨h.mem_siblings h₀ hid hc, hstanding.congr hparent⟩
    · refine spans_placed_of hchildren (fun child hchild => ?_) ih
      exact h.standing_of_mem_children h₀ hid hspans hstanding hchild

/-- The forest of the declarations spans the drafts in their places. -/
theorem Expanded.spans_placed
    (hspans : List.Forall₂ (s₀.forest.Spans s₀.Reads) s₀.forest.roots ts) :
    List.Forall₂ (s₀.forest.Spans (s.Shows copies)) s₀.forest.roots
      (placed (ts.map (Tree.map change))) := by
  refine spans_placed_of hspans (fun root hroot => ?_) fun t _ => h.spans_place h₀ t
  have hall := h₀.mem_all_of_mem_roots hroot
  have htop : s.forest.parent? root = none :=
    (h.parents root hall root List.mem_cons_self).trans (h₀.parent?_of_mem_roots hroot)
  refine ⟨hall, htop ▸ .done, ?_⟩
  rw [siblings, htop]
  exact nameAt_perm_allNames (h.spans_roots h₀ hspans) (arrangeRoots_perm _)

end Expanded

/-! ### What the checks see -/

section Shows

variable (hshape : s.forest.TreeShaped) (h : s.Shows copies id p)

include hshape h

/-- The path of a copy consists of the names above the draft and its own. -/
theorem Shows.path_eq {name : String} (hc : c ∈ id :: copies id)
    (hholds : s.Holds c (p.draft.rename name)) : s.forest.path c = p.pathOf name := by
  obtain ⟨n, hn, hbody⟩ := Option.map_eq_some_iff.1 hholds.body
  obtain ⟨names, hnames, hpath⟩ := hshape.climbs_path (Forest.lt_of_node? hn)
  have habove := (h.standing c hc).2.above
  rw [Forest.parent?_of_node? hn] at habove
  have hclimbs : s.forest.Climbs (some c) (p.above ++ [name]) :=
    Forest.climbs_concat_iff.2 ⟨n, hn, congrArg Instance.name hbody, habove⟩
  rw [hpath, hnames.unique hclimbs, Placed.pathOf]

/-- The name of a copy is taken if it occurs twice among those beside it. -/
theorem Shows.isTaken_eq {name : String} (hc : c ∈ id :: copies id)
    (hholds : s.Holds c (p.draft.rename name)) :
    isTaken s.forest c = decide (1 < p.beside.count name) := by
  obtain ⟨hmem, hstanding⟩ := h.standing c hc
  have hname : nameAt s.forest c = some name := by
    rw [nameAt, hholds.body]
    rfl
  have hcount : p.beside.count name =
      (siblings s.forest c).countP fun i => nameAt s.forest i == nameAt s.forest c := by
    have hperm := hstanding.beside.countP_eq (· == some name)
    rw [List.countP_map, List.countP_map] at hperm
    rw [hname]
    exact hperm.symm
  rw [hcount, Bool.eq_iff_iff, decide_eq_true_iff,
    one_lt_countP_iff (p := fun i => nameAt s.forest i == nameAt s.forest c)
      (nodup_siblings hshape c) hmem (beq_self_eq_true _)]
  change (siblings s.forest c).any (fun i => i != c && nameAt s.forest i == nameAt s.forest c) =
    true ↔ _
  simp only [List.any_eq_true, Bool.and_eq_true, bne_iff_ne]

/-- The further copies of an instance that are reported are those whose name is taken. -/
theorem Shows.map_filter_isTaken :
    ((copies id).filter (isTaken s.forest)).map s.forest.path = p.clashing := by
  have hnames := h.names
  rw [names_eq_cons] at hnames
  cases hnames with
  | cons _ hfurther =>
    refine map_filter_eq_of_forall₂ ?_
    refine ((List.forall₂_and_left _ _).2 ⟨fun _ => List.mem_cons_of_mem id, hfurther⟩).imp ?_
    exact fun c name hc => ⟨h.isTaken_eq hshape hc.1 hc.2, h.path_eq hshape hc.1 hc.2⟩

end Shows

section Expanded

variable (h : Expanded change s₀ s copies) (h₀ : s₀.forest.TreeShaped)
  (hspans : List.Forall₂ (s₀.forest.Spans s₀.Reads) s₀.forest.roots ts)

include h h₀ hspans

/-- The paths that declarations come to are those of the drafts in their places. -/
theorem Expanded.declaredPaths_eq (hdeclared : s₀.declared = s₀.forest.all) :
    s.declaredPaths = InstanceCompilation.declaredPaths (ts.map (Tree.map change)) := by
  have hplaced := h₀.forall₂_all (h.spans_placed h₀ hspans)
  rw [InstanceBuilder.declaredPaths, h.declared, hdeclared, InstanceCompilation.declaredPaths]
  generalize s₀.forest.all = ids at hplaced
  generalize (placed (ts.map (Tree.map change))).flatMap Tree.breadthFirst = ps at hplaced
  induction hplaced with
  | nil => rfl
  | @cons id p ids ps hshows _ ih =>
    have hnames := hshows.names
    rw [names_eq_cons] at hnames
    cases hnames with
    | cons hfirst _ =>
      rw [List.filterMap_cons, hfirst.site, Option.map_some, ih, List.map_cons,
        hshows.path_eq h.treeShaped List.mem_cons_self hfirst]
      rfl

/-- The copies that are reported are those that clash with others beside them. -/
theorem Expanded.map_filter_isTaken :
    ((s₀.forest.upwards.flatMap copies).filter (isTaken s.forest)).map s.forest.path =
      (placed (ts.map (Tree.map change))).flatMap fun t =>
        t.breadthFirst.reverse.flatMap Placed.clashing := by
  have hplaced := (List.forall₂_and_left _ _).2 ⟨h₀.within, h.spans_placed h₀ hspans⟩
  rw [List.filter_flatMap, List.map_flatMap, Forest.upwards, List.flatMap_assoc]
  refine flatMap_eq_of_forall₂ (hplaced.imp fun root t hroot => flatMap_eq_of_forall₂ ?_)
  refine (List.rel_reverse (h₀.forall₂_hierarchy hroot.1 hroot.2)).imp fun id p hshows => ?_
  exact hshows.map_filter_isTaken h.treeShaped

end Expanded

end InstanceBuilder

end Deployment

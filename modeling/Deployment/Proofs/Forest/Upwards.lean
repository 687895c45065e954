import Deployment.Proofs.Forest.Walks

/-!
# Walks from the deepest instance to the root

A walk down lists an instance before its children, so that a walk the other way has gone through all
children of an instance, from the last to the first, when it comes to the instance itself, and has
met nothing above it.

* `upwards`: what stands below the roots, root by root, from the deepest instance to the root;
* `TreeShaped.turn_of_upwards`: what has been gone through when the turn of an instance comes.
-/

namespace Deployment

/-- Elements that stand in a list without repetition in the same order are found by a filter. -/
theorem filter_mem_of_sublist {α : Type} [DecidableEq α] {l l' : List α} (hnodup : l.Nodup)
    (hsub : l'.Sublist l) : l.filter (· ∈ l') = l' := by
  have hkept : l'.filter (· ∈ l') = l' :=
    List.filter_eq_self.2 fun _ ha => decide_eq_true ha
  have hfiltered : l'.Sublist (l.filter (· ∈ l')) := by
    have hfilter := hsub.filter (· ∈ l')
    rwa [hkept] at hfilter
  refine (hfiltered.eq_of_length_le ?_).symm
  refine (List.subperm_of_subset (hnodup.filter _) fun a ha => ?_).length_le
  exact of_decide_eq_true (List.mem_filter.1 ha).2

namespace Forest

/-- What stands at or below the roots, root by root, from the deepest instance to the root. -/
def upwards (f : Forest) : List Nat := f.roots.flatMap fun root => (f.hierarchy root).reverse

/-- The turn of an instance when some others have been gone through: they are no instances above
    it, and among them are all its children, from the last to the first. -/
structure Turn (f : Forest) (done : List Nat) (id : Nat) : Prop where
  notMem : id ∉ done
  above : ∀ above ∈ done, id ∉ f.children above
  children : done.filter (· ∈ f.children id) = (f.children id).reverse

variable {f : Forest} {root id : Nat} {queue rest done later : List Nat}

theorem upwards_perm (f : Forest) : f.upwards.Perm f.all :=
  List.Perm.flatMap_left _ fun _ _ => List.reverse_perm _

/-- A walk down that lists nothing twice lists no instance after one of its children. -/
theorem Visits.pairwise (h : f.Visits queue rest) (hnodup : rest.Nodup) :
    rest.Pairwise fun earlier later => earlier ∉ f.children later := by
  induction h with
  | done => exact .nil
  | @next id n queue rest hn hrest ih =>
    rw [List.nodup_cons] at hnodup
    refine List.pairwise_cons.2 ⟨fun later hlater hchild => hnodup.1 ?_, ih hnodup.2⟩
    rw [hrest.eq_append]
    exact List.mem_append_right _ (List.mem_flatMap.2 ⟨later, hlater, hchild⟩)

namespace TreeShaped

variable (h : f.TreeShaped)

include h

theorem hierarchy_eq_cons (hroot : root < f.nodes.size) :
    f.hierarchy root = root :: (f.hierarchy root).flatMap f.children :=
  (h.visits_hierarchy hroot).eq_append

/-- The children of an instance are met in order. -/
theorem filter_children_hierarchy (hroot : root < f.nodes.size) (hid : id ∈ f.hierarchy root) :
    (f.hierarchy root).filter (· ∈ f.children id) = f.children id := by
  refine filter_mem_of_sublist (h.nodup_hierarchy root) ?_
  rw [h.hierarchy_eq_cons hroot]
  exact (List.sublist_flatten_of_mem (List.mem_map_of_mem hid)).trans (List.sublist_cons_self ..)

/-- What stands below different roots is different. -/
theorem disjoint_hierarchies :
    f.roots.Pairwise fun root root' => (f.hierarchy root).Disjoint (f.hierarchy root') :=
  (List.nodup_flatMap.1 h.nodup_all).2

theorem nodup_upwards : f.upwards.Nodup := f.upwards_perm.nodup_iff.2 h.nodup_all

/-- No instance is gone through before one of its children. -/
theorem pairwise_upwards :
    f.upwards.Pairwise fun earlier later => later ∉ f.children earlier := by
  refine List.pairwise_flatMap.2 ⟨fun root hroot => ?_, ?_⟩
  · rw [List.pairwise_reverse]
    exact (h.visits_hierarchy (h.within root hroot)).pairwise (h.nodup_hierarchy root)
  · refine h.disjoint_hierarchies.imp_of_mem fun {root root'} hroot _ hapart => ?_
    intro earlier hearlier later hlater hchild
    rw [List.mem_reverse] at hearlier hlater
    refine hapart ?_ hlater
    rw [h.hierarchy_eq_cons (h.within root hroot)]
    exact List.mem_cons_of_mem _ (List.mem_flatMap.2 ⟨earlier, hearlier, hchild⟩)

/-- Among all that is gone through, the children of an instance are met from the last to the
    first. -/
theorem filter_children_upwards (hid : id ∈ f.all) :
    f.upwards.filter (· ∈ f.children id) = (f.children id).reverse := by
  obtain ⟨root, hroot, hid⟩ := List.mem_flatMap.1 hid
  have hlt := h.within root hroot
  have hchildren : ∀ child ∈ f.children id, child ∈ f.hierarchy root := by
    intro child hchild
    rw [h.hierarchy_eq_cons hlt]
    exact List.mem_cons_of_mem _ (List.mem_flatMap.2 ⟨id, hid, hchild⟩)
  obtain ⟨before, behind, heq⟩ := List.append_of_mem hroot
  have hapart := h.disjoint_hierarchies
  rw [heq, List.pairwise_append, List.pairwise_cons] at hapart
  obtain ⟨-, ⟨hbehind, -⟩, hbefore⟩ := hapart
  -- No child stands below another root.
  have hnone : ∀ roots : List Nat,
      (∀ other ∈ roots, (f.hierarchy root).Disjoint (f.hierarchy other)) →
      (roots.flatMap fun other => (f.hierarchy other).reverse).filter
        (· ∈ f.children id) = [] := by
    intro roots hroots
    rw [List.filter_eq_nil_iff]
    intro child hmem hchild
    obtain ⟨other, hother, hmem⟩ := List.mem_flatMap.1 hmem
    exact hroots other hother (hchildren child (of_decide_eq_true hchild)) (List.mem_reverse.1 hmem)
  rw [upwards, heq, List.flatMap_append, List.flatMap_cons, List.filter_append, List.filter_append,
    hnone behind hbehind, hnone before fun other hother id hid hmem =>
      hbefore other hother root List.mem_cons_self hmem hid, List.nil_append, List.append_nil,
    List.filter_reverse, h.filter_children_hierarchy hlt hid]

/-- Among all that is gone through, the roots are met in order. -/
theorem filter_roots_upwards : f.upwards.filter (· ∈ f.roots) = f.roots := by
  have hroot : ∀ root ∈ f.roots, ((f.hierarchy root).reverse.filter (· ∈ f.roots)) = [root] := by
    intro root hroot
    have hnone : ((f.hierarchy root).flatMap f.children).filter (· ∈ f.roots) = [] := by
      rw [List.filter_eq_nil_iff]
      intro child hmem hchild
      obtain ⟨parent, -, hparent⟩ := List.mem_flatMap.1 hmem
      have htop := h.parent?_of_mem_roots (of_decide_eq_true hchild)
      exact nomatch htop.symm.trans (h.hasParent_iff.2 hparent)
    rw [List.filter_reverse, h.hierarchy_eq_cons (h.within root hroot), List.filter_cons, hnone,
      if_pos (decide_eq_true hroot)]
    rfl
  rw [upwards, List.filter_flatMap]
  exact (List.flatMap_congr hroot).trans (List.flatMap_singleton' f.roots)

/-- Going through all instances, every one comes when it is its turn. -/
theorem turn_of_upwards (heq : f.upwards = done ++ id :: later) : f.Turn done id := by
  have hnodup := h.nodup_upwards
  have hpairwise := h.pairwise_upwards
  have hmem : id ∈ f.all := by
    rw [← f.upwards_perm.mem_iff, heq]
    exact List.mem_append_right _ List.mem_cons_self
  have hchildren := h.filter_children_upwards hmem
  rw [heq] at hnodup hpairwise hchildren
  obtain ⟨-, hcons, hapart⟩ := List.pairwise_append.1 hpairwise
  constructor
  case notMem => exact fun hdone => (List.nodup_append'.1 hnodup).2.2 hdone List.mem_cons_self
  case above => exact fun above habove => hapart above habove id List.mem_cons_self
  case children =>
    have hself : id ∉ f.children id := fun hchild =>
      h.acyclic id (.single (h.hasParent_iff.2 hchild))
    have hnone : (id :: later).filter (· ∈ f.children id) = [] := by
      rw [List.filter_eq_nil_iff]
      intro child hmem hchild
      rcases List.mem_cons.1 hmem with rfl | hmem
      · exact hself (of_decide_eq_true hchild)
      · exact (List.pairwise_cons.1 hcons).1 child hmem (of_decide_eq_true hchild)
    rwa [List.filter_append, hnone, List.append_nil] at hchildren

end TreeShaped

end Forest

end Deployment

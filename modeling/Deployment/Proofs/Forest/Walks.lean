import Deployment.Proofs.Forest.Links

/-!
# Walks through a forest

The walks up and down a forest run on as much fuel as it has nodes. Here they are told step by step
and without fuel: down through a queue whose first instance is listed and sends its children to the
end (`Visits`), and up from an instance to its parent (`Climbs`). A walk that is told in this way
comes to an end.

In a tree-shaped forest every such walk comes to an end, and the fuel does not show: a chain of
children goes through different instances, so that it has no more of them than the forest has nodes
(`TreeShaped.length_lt_of_isChain`).

* `visits_hierarchy`, `climbs_path`: the walks and their results;
* `nodup_hierarchy`, `mem_hierarchy_iff`: an instance with all below it, each once;
* `nodup_all`, `mem_all_iff_exists`: what stands below the roots, each once.
-/

namespace Deployment.Forest

/-! ### Walks step by step -/

/-- Whether an instance is the parent of another one. -/
def HasParent (f : Forest) (child parent : Nat) : Prop := f.parent? child = some parent

/-- What a walk down lists from a queue of instances: the first one, whose children join at the
    end, and what follows. -/
inductive Visits (f : Forest) : List Nat → List Nat → Prop
  | done : Visits f [] []
  | next {id : Nat} {n : Node} {queue rest : List Nat} :
      f.node? id = some n → Visits f (queue ++ n.children) rest →
      Visits f (id :: queue) (id :: rest)

/-- The names that a walk up from an instance goes through, the last one first: those from its
    parent on, and its own. -/
inductive Climbs (f : Forest) : Option Nat → List String → Prop
  | done : Climbs f none []
  | next {id : Nat} {n : Node} {names : List String} :
      f.node? id = some n → Climbs f n.parent names → Climbs f (some id) (names ++ [n.body.name])

/-- The instances some levels below a level. -/
def levelAt (f : Forest) : Nat → List Nat → List Nat
  | 0, level => level
  | depth + 1, level => levelAt f depth (level.flatMap f.children)

variable {f : Forest} {id child parent fuel : Nat} {level queue rest rest' : List Nat}

theorem exists_node?_of_lt (h : id < f.nodes.size) : ∃ n, f.node? id = some n :=
  ⟨f.nodes[id], Array.getElem?_eq_getElem h⟩

theorem lt_of_node? {n : Node} (h : f.node? id = some n) : id < f.nodes.size :=
  (Array.getElem?_eq_some_iff.1 h).1

theorem parent?_of_node? {n : Node} (h : f.node? id = some n) : f.parent? id = n.parent := by
  rw [parent?, h]
  rfl

theorem lt_of_parent? (h : f.parent? child = some parent) : child < f.nodes.size := by
  obtain ⟨n, hn, -⟩ := Option.bind_eq_some_iff.1 h
  exact lt_of_node? hn

/-- A queue leads to one list only. -/
theorem Visits.unique (h : f.Visits queue rest) (h' : f.Visits queue rest') : rest = rest' := by
  induction h generalizing rest' with
  | done =>
    cases h'
    rfl
  | next hn _ ih =>
    cases h' with
    | next hn' h' =>
      obtain rfl := Option.some.inj (hn.symm.trans hn')
      rw [ih h']

/-- A walk meets the same instances where the children of those that it meets are the same. -/
theorem Visits.congr {g : Forest} (h : f.Visits queue rest)
    (hkept : ∀ id ∈ rest, id < g.nodes.size ∧ g.children id = f.children id) :
    g.Visits queue rest := by
  induction h with
  | done => exact .done
  | next hn _ ih =>
    obtain ⟨⟨hlt, hchildren⟩, hrest⟩ := List.forall_mem_cons.1 hkept
    obtain ⟨m, hm⟩ := exists_node?_of_lt hlt
    rw [children_of_node? hm, children_of_node? hn] at hchildren
    exact .next hm (hchildren ▸ ih hrest)

/-- The instances in front of a queue are listed one after the other, and their children join. -/
theorem visits_append (hlt : ∀ id ∈ level, id < f.nodes.size)
    (h : f.Visits (queue ++ level.flatMap f.children) rest) :
    f.Visits (level ++ queue) (level ++ rest) := by
  induction level generalizing queue with
  | nil =>
    rw [List.flatMap_nil, List.append_nil] at h
    exact h
  | cons id level ih =>
    obtain ⟨n, hn⟩ := exists_node?_of_lt (hlt id List.mem_cons_self)
    rw [List.flatMap_cons, children_of_node? hn, ← List.append_assoc] at h
    have hrest := ih (fun i hi => hlt i (List.mem_cons_of_mem _ hi)) h
    rw [← List.append_assoc] at hrest
    exact .next hn hrest

/-! ### Levels -/

/-- A walk by levels lists what a walk through a queue lists, if there is fuel for all levels. -/
theorem visits_levelsFrom (hchildren : ∀ parent, ∀ child ∈ f.children parent, child < f.nodes.size)
    (hlevel : ∀ id ∈ level, id < f.nodes.size) (hnone : f.levelAt fuel level = []) :
    f.Visits level (f.levelsFrom fuel level) := by
  induction fuel generalizing level with
  | zero =>
    obtain rfl : level = [] := hnone
    exact .done
  | succ fuel ih =>
    rw [levelsFrom]
    split
    · next h =>
      rw [h]
      exact .done
    · have hbelow : ∀ id ∈ level.flatMap f.children, id < f.nodes.size := by
        intro child hchild
        obtain ⟨parent, -, hchild⟩ := List.mem_flatMap.1 hchild
        exact hchildren parent child hchild
      have hvisits : f.Visits (level ++ []) _ := visits_append hlevel (ih hbelow hnone)
      rwa [List.append_nil] at hvisits

/-- What is listed are the instances of the queue and the children of all that is listed. -/
theorem Visits.eq_append (h : f.Visits queue rest) : rest = queue ++ rest.flatMap f.children := by
  induction h with
  | done => rfl
  | next hn _ ih =>
    rw [List.flatMap_cons, children_of_node? hn, List.cons_append, ← List.append_assoc, ← ih]

/-- Every level below a level is led to by chains of children. -/
theorem exists_isChain_of_levelAt {depth : Nat} (h : f.levelAt depth level ≠ []) :
    ∃ id ∈ level, ∃ chain : List Nat, chain.length = depth ∧
      (id :: chain).IsChain fun parent child => child ∈ f.children parent := by
  induction depth generalizing level with
  | zero =>
    obtain ⟨id, rest, rfl⟩ := List.exists_cons_of_ne_nil h
    exact ⟨id, List.mem_cons_self, [], rfl, List.isChain_singleton id⟩
  | succ depth ih =>
    obtain ⟨child, hchild, chain, hlength, hchain⟩ := ih h
    obtain ⟨parent, hparent, hchild⟩ := List.mem_flatMap.1 hchild
    exact ⟨parent, hparent, child :: chain, congrArg (· + 1) hlength,
      List.isChain_cons_cons.2 ⟨hchild, hchain⟩⟩

/-- What a walk by levels lists stands at or below the instances of the level. -/
theorem exists_of_mem_levelsFrom
    (hparent : ∀ {child parent}, child ∈ f.children parent → f.HasParent child parent)
    (h : id ∈ f.levelsFrom fuel level) :
    ∃ top ∈ level, Relation.ReflTransGen f.HasParent id top := by
  induction fuel generalizing level with
  | zero => exact absurd h List.not_mem_nil
  | succ fuel ih =>
    rcases f.mem_levelsFrom_succ.1 h with h | h
    · exact ⟨id, h, .refl⟩
    · obtain ⟨child, hchild, hbelow⟩ := ih h
      obtain ⟨parent, hmem, hchild⟩ := List.mem_flatMap.1 hchild
      exact ⟨parent, hmem, hbelow.tail (hparent hchild)⟩

namespace TreeShaped

variable (h : f.TreeShaped)

include h

theorem hasParent_iff : f.HasParent child parent ↔ child ∈ f.children parent :=
  h.parent_iff child parent

/-- The parents are those that the children say. -/
theorem parent?_congr {g : Forest} (hg : g.TreeShaped)
    (hchildren : ∀ id, g.children id = f.children id) (id : Nat) : g.parent? id = f.parent? id := by
  refine Option.ext fun parent => ?_
  change g.HasParent id parent ↔ f.HasParent id parent
  rw [h.hasParent_iff, hg.hasParent_iff, hchildren]

theorem child_lt_of_mem_children (hchild : child ∈ f.children parent) : child < f.nodes.size :=
  lt_of_parent? (h.hasParent_iff.2 hchild)

theorem nodup_children (parent : Nat) : (f.children parent).Nodup := by
  by_cases hlt : parent < f.nodes.size
  · exact (List.nodup_flatMap.1 (List.nodup_append.1 h.once).2.1).1 parent (List.mem_range.2 hlt)
  · have hnone : f.node? parent = none := Array.getElem?_eq_none (Nat.le_of_not_lt hlt)
    rw [children, hnone]
    exact List.nodup_nil

/-- A chain of children goes through different instances. -/
theorem length_lt_of_isChain {chain : List Nat} (hid : id < f.nodes.size)
    (hchain : (id :: chain).IsChain fun parent child => child ∈ f.children parent) :
    chain.length < f.nodes.size := by
  have habove :
      (id :: chain).Pairwise fun above below => Relation.TransGen f.HasParent below above := by
    have htrans : IsTrans Nat fun above below => Relation.TransGen f.HasParent below above :=
      ⟨fun _ _ _ hab hbc => hbc.trans hab⟩
    exact List.isChain_iff_pairwise.1 (hchain.imp fun _ _ hmem => .single (h.hasParent_iff.2 hmem))
  have hnodup : (id :: chain).Nodup := by
    refine habove.imp fun {above below} hcycle heq => ?_
    rw [heq] at hcycle
    exact h.acyclic below hcycle
  have hsub : id :: chain ⊆ List.range f.nodes.size := by
    intro below hbelow
    rw [List.mem_range]
    rcases List.mem_cons.1 hbelow with rfl | hbelow
    · exact hid
    · have hway := (List.pairwise_cons.1 habove).1 below hbelow
      obtain ⟨_, hparent, -⟩ := Relation.TransGen.head'_iff.1 hway
      exact lt_of_parent? hparent
  have hle := (List.subperm_of_subset hnodup hsub).length_le
  rwa [List.length_range] at hle

/-- There are no more levels than nodes. -/
theorem levelAt_size (hlevel : ∀ id ∈ level, id < f.nodes.size) :
    f.levelAt f.nodes.size level = [] := by
  by_contra hne
  obtain ⟨id, hid, chain, hlength, hchain⟩ := exists_isChain_of_levelAt hne
  exact Nat.lt_irrefl _ (hlength ▸ h.length_lt_of_isChain (hlevel id hid) hchain)

/-! ### The walk down -/

/-- The walk down from an instance comes to an end. -/
theorem visits_hierarchy (hid : id < f.nodes.size) : f.Visits [id] (f.hierarchy id) := by
  have hlevel : ∀ i ∈ [id], i < f.nodes.size := fun i hi => List.mem_singleton.1 hi ▸ hid
  exact visits_levelsFrom (fun _ _ => h.child_lt_of_mem_children) hlevel (h.levelAt_size hlevel)

/-- The walk down from an instance meets the same where the children of those that it meets are the
    same. -/
theorem hierarchy_congr {g : Forest} (hg : g.TreeShaped) (hid : id < f.nodes.size)
    (hkept : ∀ i ∈ f.hierarchy id, i < g.nodes.size ∧ g.children i = f.children i) :
    g.hierarchy id = f.hierarchy id := by
  have hvisits := (h.visits_hierarchy hid).congr hkept
  have hself : id ∈ f.hierarchy id := by
    rw [(h.visits_hierarchy hid).eq_append]
    exact List.mem_cons_self
  exact (hg.visits_hierarchy (hkept id hself).1).unique hvisits

/-- The walk down lists what stands at or below the instance. -/
theorem mem_hierarchy_iff (hid : id < f.nodes.size) {below : Nat} :
    below ∈ f.hierarchy id ↔ Relation.ReflTransGen f.HasParent below id := by
  constructor
  · intro hmem
    obtain ⟨top, htop, hbelow⟩ := exists_of_mem_levelsFrom h.hasParent_iff.2 hmem
    exact List.mem_singleton.1 htop ▸ hbelow
  · intro hbelow
    have heq := (h.visits_hierarchy hid).eq_append
    induction hbelow using Relation.ReflTransGen.head_induction_on with
    | refl =>
      rw [heq]
      exact List.mem_cons_self
    | head hparent _ ih =>
      rw [heq]
      exact List.mem_cons_of_mem _ (List.mem_flatMap.2 ⟨_, ih, h.hasParent_iff.1 hparent⟩)

/-- A walk from instances none of which stands below another one lists no instance twice. -/
theorem nodup_levelsFrom (hlevel : level.Nodup)
    (hapart : ∀ a ∈ level, ∀ b ∈ level, ¬Relation.TransGen f.HasParent a b) :
    (f.levelsFrom fuel level).Nodup := by
  induction fuel generalizing level with
  | zero => exact List.nodup_nil
  | succ fuel ih =>
    rw [levelsFrom]
    split
    · exact List.nodup_nil
    · refine List.nodup_append'.2 ⟨hlevel, ih ?_ ?_, ?_⟩
      · refine List.nodup_flatMap.2 ⟨fun parent _ => h.nodup_children parent, ?_⟩
        refine hlevel.imp fun {a b} hne child ha hb => hne ?_
        exact Option.some.inj ((h.hasParent_iff.2 ha).symm.trans (h.hasParent_iff.2 hb))
      · -- A child below another one would put its parent below the other parent.
        intro c hc d hd hbelow
        obtain ⟨a, ha, hca⟩ := List.mem_flatMap.1 hc
        obtain ⟨b, hb, hdb⟩ := List.mem_flatMap.1 hd
        obtain ⟨above, hparent, habove⟩ := Relation.TransGen.head'_iff.1 hbelow
        obtain rfl : a = above :=
          Option.some.inj ((h.hasParent_iff.2 hca).symm.trans hparent)
        exact hapart a ha b hb (Relation.TransGen.tail' habove (h.hasParent_iff.2 hdb))
      · intro id hid hbelow
        obtain ⟨child, hchild, hreach⟩ := exists_of_mem_levelsFrom h.hasParent_iff.2 hbelow
        obtain ⟨parent, hparent, hchild⟩ := List.mem_flatMap.1 hchild
        exact hapart id hid parent hparent
          (Relation.TransGen.tail' hreach (h.hasParent_iff.2 hchild))

theorem nodup_hierarchy (id : Nat) : (f.hierarchy id).Nodup := by
  refine h.nodup_levelsFrom (List.nodup_singleton id) fun a ha b hb => ?_
  rw [List.mem_singleton.1 ha, List.mem_singleton.1 hb]
  exact h.acyclic id

/-! ### Everything below the roots -/

theorem mem_all_iff_exists :
    id ∈ f.all ↔ ∃ root ∈ f.roots, Relation.ReflTransGen f.HasParent id root := by
  rw [all, List.mem_flatMap]
  exact exists_congr fun root => and_congr_right fun hroot =>
    h.mem_hierarchy_iff (h.within root hroot)

theorem mem_all_of_mem_roots (hroot : id ∈ f.roots) : id ∈ f.all :=
  h.mem_all_iff_exists.2 ⟨id, hroot, .refl⟩

/-- What stands below the roots is listed once. -/
theorem nodup_all : f.all.Nodup := by
  refine List.nodup_flatMap.2 ⟨fun root _ => h.nodup_hierarchy root, ?_⟩
  refine (List.nodup_append.1 h.once).1.imp_of_mem fun {a b} ha hb hne id hida hidb => hne ?_
  -- Of two instances above a third one, one is above the other, and nothing is above a root.
  have htop : ∀ {a b : Nat}, a ∈ f.roots → Relation.ReflTransGen f.HasParent a b → a = b := by
    intro a b ha hab
    rcases Relation.ReflTransGen.cases_head hab with heq | ⟨above, hparent, -⟩
    · exact heq
    · exact nomatch (h.parent?_of_mem_roots ha).symm.trans hparent
  have hunique : Relator.RightUnique f.HasParent := fun _ _ _ hb hc =>
    Option.some.inj (hb.symm.trans hc)
  rcases Relation.ReflTransGen.total_of_right_unique hunique
    ((h.mem_hierarchy_iff (h.within a ha)).1 hida) ((h.mem_hierarchy_iff (h.within b hb)).1 hidb)
    with hab | hba
  · exact htop ha hab
  · exact (htop hb hba).symm

/-! ### The walk up -/

/-- A walk up that has come by a chain of children has enough fuel for what remains. -/
theorem climbs_namesTo {chain : List Nat} (hid : id < f.nodes.size)
    (hchain : (id :: chain).IsChain fun parent child => child ∈ f.children parent)
    (hfuel : f.nodes.size ≤ fuel + chain.length) : f.Climbs (some id) (f.namesTo fuel id) := by
  induction fuel generalizing id chain with
  | zero =>
    rw [Nat.zero_add] at hfuel
    exact absurd hfuel (Nat.not_le_of_lt (h.length_lt_of_isChain hid hchain))
  | succ fuel ih =>
    obtain ⟨n, hn⟩ := exists_node?_of_lt hid
    rw [namesTo, hn]
    dsimp only
    split
    · next hnone => exact Climbs.next hn (hnone ▸ Climbs.done)
    · next parent hparent =>
      have hchild : id ∈ f.children parent :=
        h.hasParent_iff.1 ((parent?_of_node? hn).trans hparent)
      refine .next hn (hparent ▸ ih (Forest.lt_of_mem_children hchild)
        (List.isChain_cons_cons.2 ⟨hchild, hchain⟩) ?_)
      rw [List.length_cons]
      omega

/-- The walk up from an instance comes to an end, and makes its path. -/
theorem climbs_path (hid : id < f.nodes.size) :
    ∃ names, f.Climbs (some id) names ∧ f.path id = pathOf names :=
  ⟨_, h.climbs_namesTo hid (List.isChain_singleton id) (Nat.le_add_right _ _), rfl⟩

end TreeShaped

end Deployment.Forest

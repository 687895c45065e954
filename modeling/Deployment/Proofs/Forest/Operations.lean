import Deployment.Proofs.Forest.Walks

/-!
# Changes to a tree-shaped forest

The operations of a forest link what they are told to link. A forest stays tree-shaped if an
instance is given a place only while it has none, and never below itself (`TreeShaped.attach`,
`TreeShaped.addRoot`); new instances and changes to an instance leave the links alone
(`TreeShaped.insert`, `TreeShaped.modifyInstance`).

* `Free`: an instance that has no place yet;
* `treeShaped_of`: what makes a forest tree-shaped, list by list;
* `TreeShaped.of_links`: being tree-shaped is a matter of the links alone.
-/

namespace Deployment.Forest

/-- An instance that is neither attached to another one nor a root. -/
structure Free (f : Forest) (id : Nat) : Prop where
  lt : id < f.nodes.size
  parent? : f.parent? id = none
  root : id ∉ f.roots

instance (f : Forest) (id : Nat) : Decidable (f.Free id) :=
  decidable_of_iff (id < f.nodes.size ∧ f.parent? id = none ∧ id ∉ f.roots)
    ⟨fun ⟨hlt, hparent, hroot⟩ => ⟨hlt, hparent, hroot⟩, fun h => ⟨h.lt, h.parent?, h.root⟩⟩

variable {f g : Forest} {id child parent : Nat}

/-! ### Links of changed forests -/

theorem children_modify (f : Forest) (id other : Nat) (change : Node → Node) :
    (f.modify id change).children other =
      if id = other then ((f.node? other).map fun n => (change n).children).getD []
      else f.children other := by
  rw [children, node?_modify, children]
  split
  · rw [Option.map_map]
    rfl
  · rfl

theorem parent?_modify (f : Forest) (id other : Nat) (change : Node → Node) :
    (f.modify id change).parent? other =
      if id = other then (f.node? other).bind fun n => (change n).parent else f.parent? other := by
  rw [parent?, node?_modify, parent?]
  split
  · rw [Option.bind_map]
    rfl
  · rfl

theorem children_modifyInstance (f : Forest) (id : Nat) (change : Instance → Instance)
    (other : Nat) : (f.modifyInstance id change).children other = f.children other := by
  rw [modifyInstance, children_modify]
  split
  · rfl
  · rfl

theorem size_modify (f : Forest) (id : Nat) (change : Node → Node) :
    (f.modify id change).nodes.size = f.nodes.size :=
  Array.size_modify

theorem node?_insert (f : Forest) (body : Instance) (id : Nat) :
    (f.insert body).node? id = if id = f.nodes.size then some ⟨body, none, []⟩ else f.node? id :=
  Array.getElem?_push

/-- A new instance has no links, like one that is not there. -/
theorem children_insert (f : Forest) (body : Instance) (id : Nat) :
    (f.insert body).children id = f.children id := by
  rw [children, node?_insert, children]
  split
  · next heq =>
    have hnone : f.node? f.nodes.size = none := Array.getElem?_eq_none le_rfl
    rw [heq, hnone]
    rfl
  · rfl

theorem parent?_insert (f : Forest) (body : Instance) (id : Nat) :
    (f.insert body).parent? id = f.parent? id := by
  rw [parent?, node?_insert, parent?]
  split
  · next heq =>
    have hnone : f.node? f.nodes.size = none := Array.getElem?_eq_none le_rfl
    rw [heq, hnone]
    rfl
  · rfl

theorem size_insert (f : Forest) (body : Instance) :
    (f.insert body).nodes.size = f.nodes.size + 1 :=
  Array.size_push _

theorem get?_insert (f : Forest) (body : Instance) (id : Nat) :
    (f.insert body).get? id = if id = f.nodes.size then some body else f.get? id := by
  rw [get?, node?_insert, get?]
  split
  · rfl
  · rfl

/-- A change to links changes no instance. -/
theorem get?_modify_links (f : Forest) (id other : Nat) (change : Node → Node)
    (hchange : ∀ n, (change n).body = n.body) : (f.modify id change).get? other = f.get? other := by
  rw [get?, node?_modify, get?]
  split
  · rw [Option.map_map]
    exact congrArg (Option.map · _) (funext hchange)
  · rfl

theorem get?_attach (f : Forest) (parent child id : Nat) :
    (f.attach parent child).get? id = f.get? id := by
  rw [attach, get?_modify_links, get?_modify_links]
  · exact fun _ => rfl
  · exact fun _ => rfl

theorem get?_addRoot (f : Forest) (id other : Nat) : (f.addRoot id).get? other = f.get? other :=
  get?_modify_links f id other (fun n => { n with parent := none }) fun _ => rfl

theorem roots_attach (f : Forest) (parent child : Nat) : (f.attach parent child).roots = f.roots :=
  rfl

theorem size_attach (f : Forest) (parent child : Nat) :
    (f.attach parent child).nodes.size = f.nodes.size := by
  rw [attach, size_modify, size_modify]

/-- The child joins the children of its parent, as the last one. -/
theorem children_attach (hparent : parent < f.nodes.size) (id : Nat) :
    (f.attach parent child).children id =
      if parent = id then f.children id ++ [child] else f.children id := by
  have hinner : ∀ id, (f.modify child fun n => { n with parent := some parent }).children id =
      f.children id := by
    intro id
    rw [children_modify]
    split
    · rfl
    · rfl
  rw [attach, children_modify, node?_modify, hinner]
  split
  · next heq =>
    obtain ⟨n, hn⟩ := exists_node?_of_lt (heq ▸ hparent)
    rw [hn, children_of_node? hn]
    split
    · rfl
    · rfl
  · rfl

/-- The child has its new parent, and no other instance another one. -/
theorem parent?_attach (hchild : child < f.nodes.size) (id : Nat) :
    (f.attach parent child).parent? id = if child = id then some parent else f.parent? id := by
  have houter : ∀ (f : Forest) (id : Nat),
      (f.modify parent fun n => { n with children := n.children ++ [child] }).parent? id =
        f.parent? id := by
    intro f id
    rw [parent?_modify]
    split
    · rfl
    · rfl
  rw [attach, houter, parent?_modify]
  split
  · next heq =>
    obtain ⟨n, hn⟩ := exists_node?_of_lt (heq ▸ hchild)
    rw [hn]
    rfl
  · rfl

theorem children_addRoot (f : Forest) (id other : Nat) :
    (f.addRoot id).children other = f.children other := by
  refine (children_modify f id other _).trans ?_
  split
  · rfl
  · rfl

/-- A root has no parent, whatever it had before. -/
theorem parent?_addRoot (f : Forest) (id other : Nat) :
    (f.addRoot id).parent? other = if id = other then none else f.parent? other := by
  refine (parent?_modify f id other _).trans ?_
  split
  · cases f.node? other <;> rfl
  · rfl

theorem size_addRoot (f : Forest) (id : Nat) : (f.addRoot id).nodes.size = f.nodes.size :=
  size_modify ..

theorem get?_rename (f : Forest) (id : Nat) (name : String) (other : Nat) :
    (f.rename id name).get? other =
      if id = other then (f.get? other).map fun body => { body with name } else f.get? other :=
  get?_modifyInstance ..

theorem children_rename (f : Forest) (id : Nat) (name : String) (other : Nat) :
    (f.rename id name).children other = f.children other :=
  children_modifyInstance ..

theorem parent?_rename (f : Forest) (id : Nat) (name : String) (other : Nat) :
    (f.rename id name).parent? other = f.parent? other :=
  parent?_modifyInstance ..

theorem roots_rename (f : Forest) (id : Nat) (name : String) :
    (f.rename id name).roots = f.roots :=
  rfl

theorem size_rename (f : Forest) (id : Nat) (name : String) :
    (f.rename id name).nodes.size = f.nodes.size :=
  size_modify ..

theorem hasParent_congr (h : ∀ id, g.parent? id = f.parent? id) : g.HasParent = f.HasParent := by
  funext child parent
  rw [HasParent, HasParent, h]

/-! ### Tree-shaped forests -/

/-- What makes a forest tree-shaped: no root twice and none with a parent, no child twice in a list
    of children, parents and children that know of each other, and nothing above itself. -/
theorem treeShaped_of (hwithin : ∀ id ∈ f.roots, id < f.nodes.size) (hroots : f.roots.Nodup)
    (htop : ∀ id ∈ f.roots, f.parent? id = none) (hchildren : ∀ id, (f.children id).Nodup)
    (hparent : ∀ child parent, f.parent? child = some parent ↔ child ∈ f.children parent)
    (hacyclic : ∀ id, ¬Relation.TransGen f.HasParent id id) : f.TreeShaped where
  within := hwithin
  once := by
    refine List.nodup_append'.2 ⟨hroots, List.nodup_flatMap.2 ⟨fun id _ => hchildren id, ?_⟩, ?_⟩
    · refine (List.nodup_range).imp fun {a b} hne child ha hb => hne ?_
      exact Option.some.inj (((hparent child a).2 ha).symm.trans ((hparent child b).2 hb))
    · intro id hroot hid
      obtain ⟨parent, -, hchild⟩ := List.mem_flatMap.1 hid
      exact nomatch (htop id hroot).symm.trans ((hparent id parent).2 hchild)
  parent_iff := hparent
  acyclic := hacyclic

/-- With a child attached, a way up is one that was there before, or goes through the child and its
    new parent. -/
theorem exists_of_attach (hfree : f.Free child)
    (hbelow : ¬Relation.ReflTransGen f.HasParent parent child) {a b : Nat}
    (hab : Relation.TransGen (f.attach parent child).HasParent a b) :
    Relation.TransGen f.HasParent a b ∨
      Relation.ReflTransGen f.HasParent a child ∧ Relation.ReflTransGen f.HasParent parent b := by
  have hstep : ∀ {a b : Nat}, (f.attach parent child).HasParent a b →
      a = child ∧ b = parent ∨ f.HasParent a b := by
    intro a b hab
    rw [HasParent, parent?_attach hfree.lt] at hab
    split at hab
    · next heq => exact .inl ⟨heq.symm, (Option.some.inj hab).symm⟩
    · exact .inr hab
  induction hab with
  | single hab =>
    rcases hstep hab with ⟨rfl, rfl⟩ | hab
    · exact .inr ⟨.refl, .refl⟩
    · exact .inl (.single hab)
  | tail _ hbc ih =>
    rcases hstep hbc with ⟨rfl, rfl⟩ | hbc
    · rcases ih with hac | ⟨-, hparent⟩
      · exact .inr ⟨hac.to_reflTransGen, .refl⟩
      · exact absurd hparent hbelow
    · rcases ih with hac | ⟨hchild, hparent⟩
      · exact .inl (hac.tail hbc)
      · exact .inr ⟨hchild, hparent.tail hbc⟩

namespace TreeShaped

variable (h : f.TreeShaped)

include h

theorem nodup_roots : f.roots.Nodup := (List.nodup_append.1 h.once).1

/-- A forest with the links of a tree-shaped one is tree-shaped. -/
theorem of_links (hroots : g.roots = f.roots) (hsize : f.nodes.size ≤ g.nodes.size)
    (hchildren : ∀ id, g.children id = f.children id)
    (hparent : ∀ id, g.parent? id = f.parent? id) : g.TreeShaped := by
  refine treeShaped_of ?_ ?_ ?_ ?_ ?_ ?_
  · rw [hroots]
    exact fun id hid => (h.within id hid).trans_le hsize
  · rw [hroots]
    exact h.nodup_roots
  · rw [hroots]
    exact fun id hid => (hparent id).trans (h.parent?_of_mem_roots hid)
  · exact fun id => hchildren id ▸ h.nodup_children id
  · intro child parent
    rw [hparent, hchildren]
    exact h.parent_iff child parent
  · rw [hasParent_congr hparent]
    exact h.acyclic

/-- An instance more changes no link. -/
theorem insert (body : Instance) : (f.insert body).TreeShaped :=
  h.of_links rfl (by rw [size_insert]; exact Nat.le_succ _) (children_insert f body)
    (parent?_insert f body)

/-- A change to an instance changes no link. -/
theorem modifyInstance (id : Nat) (change : Instance → Instance) :
    (f.modifyInstance id change).TreeShaped :=
  h.of_links rfl (size_modify ..).ge (children_modifyInstance f id change) fun _ =>
    parent?_modifyInstance ..

theorem rename (id : Nat) (name : String) : (f.rename id name).TreeShaped :=
  h.modifyInstance id _

/-- An instance without a place may be attached to any instance that is not at or below it. -/
theorem attach (hfree : f.Free child) (hparent : parent < f.nodes.size)
    (hbelow : parent ∉ f.hierarchy child) : (f.attach parent child).TreeShaped := by
  rw [h.mem_hierarchy_iff hfree.lt] at hbelow
  have horphan : ∀ id, child ∉ f.children id := fun id hmem =>
    nomatch hfree.parent?.symm.trans (h.hasParent_iff.2 hmem)
  refine treeShaped_of ?_ h.nodup_roots ?_ ?_ ?_ ?_
  · rw [size_attach]
    exact h.within
  · intro id hid
    rw [parent?_attach hfree.lt, if_neg fun heq : child = id => hfree.root (heq ▸ hid)]
    exact h.parent?_of_mem_roots hid
  · intro id
    rw [children_attach hparent]
    split
    · refine List.nodup_append'.2 ⟨h.nodup_children id, List.nodup_singleton child, ?_⟩
      exact List.disjoint_singleton.2 (horphan id)
    · exact h.nodup_children id
  · intro other above
    rw [parent?_attach hfree.lt, children_attach hparent]
    by_cases hother : child = other
    · subst hother
      rw [if_pos rfl, Option.some.injEq]
      split
      · next heq => exact iff_of_true heq (List.mem_append_right _ (List.mem_singleton_self _))
      · next hne => exact iff_of_false hne (horphan above)
    · rw [if_neg hother, h.parent_iff]
      split
      · rw [List.mem_append, List.mem_singleton, or_iff_left (Ne.symm hother)]
      · exact Iff.rfl
  · intro id hcycle
    rcases exists_of_attach hfree hbelow hcycle with hcycle | ⟨hchild, hparent⟩
    · exact h.acyclic id hcycle
    · exact hbelow (hparent.trans hchild)

/-- An instance without a place may be made a root. -/
theorem addRoot (hfree : f.Free id) : (f.addRoot id).TreeShaped := by
  have hparent : ∀ other, (f.addRoot id).parent? other = f.parent? other := by
    intro other
    rw [parent?_addRoot]
    split
    · next heq => rw [← heq, hfree.parent?]
    · rfl
  have hroots : ∀ root ∈ (f.addRoot id).roots, root ∈ f.roots ∨ root = id := by
    intro root hroot
    exact (List.mem_append.1 hroot).imp_right List.mem_singleton.1
  refine treeShaped_of ?_ ?_ ?_ ?_ ?_ ?_
  · intro root hroot
    rw [size_addRoot]
    rcases hroots root hroot with hroot | rfl
    · exact h.within root hroot
    · exact hfree.lt
  · exact List.nodup_append'.2 ⟨h.nodup_roots, List.nodup_singleton id,
      List.disjoint_singleton.2 hfree.root⟩
  · intro root hroot
    rw [hparent]
    rcases hroots root hroot with hroot | rfl
    · exact h.parent?_of_mem_roots hroot
    · exact hfree.parent?
  · exact fun other => children_addRoot f id other ▸ h.nodup_children other
  · intro child parent
    rw [hparent, children_addRoot]
    exact h.parent_iff child parent
  · rw [hasParent_congr hparent]
    exact h.acyclic

end TreeShaped

/-- Instances made roots, one after the other, are new roots, and nothing else changes. -/
theorem TreeShaped.addRoots {ids : List Nat} (h : f.TreeShaped) (hfree : ∀ id ∈ ids, f.Free id)
    (hnodup : ids.Nodup) :
    (ids.foldl Forest.addRoot f).TreeShaped ∧ (ids.foldl Forest.addRoot f).roots = f.roots ++ ids ∧
      (ids.foldl Forest.addRoot f).nodes.size = f.nodes.size ∧
      (∀ id, (ids.foldl Forest.addRoot f).children id = f.children id) ∧
      ∀ id, (ids.foldl Forest.addRoot f).get? id = f.get? id := by
  induction ids generalizing f with
  | nil => exact ⟨h, (List.append_nil _).symm, rfl, fun _ => rfl, fun _ => rfl⟩
  | cons root ids ih =>
    obtain ⟨hroot, hfree⟩ := List.forall_mem_cons.1 hfree
    obtain ⟨hnot, hnodup⟩ := List.nodup_cons.1 hnodup
    have hrest : ∀ id ∈ ids, (f.addRoot root).Free id := by
      intro id hid
      refine ⟨by rw [size_addRoot]; exact (hfree id hid).lt, ?_, ?_⟩
      · rw [parent?_addRoot]
        split
        · rfl
        · exact (hfree id hid).parent?
      · intro hmem
        rcases List.mem_append.1 hmem with hmem | hmem
        · exact (hfree id hid).root hmem
        · exact hnot (List.mem_singleton.1 hmem ▸ hid)
    obtain ⟨hshape, hroots, hsize, hchildren, hget⟩ := ih (h.addRoot hroot) hrest hnodup
    refine ⟨hshape, ?_, hsize.trans (size_addRoot f root), fun id => ?_, fun id => ?_⟩
    · rw [List.foldl_cons, hroots]
      exact List.append_assoc f.roots [root] ids
    · exact (hchildren id).trans (children_addRoot f root id)
    · exact (hget id).trans (get?_addRoot f root id)

end Deployment.Forest

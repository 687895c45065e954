import Deployment.Proofs.Draft.Chain
import Deployment.Proofs.Draft.Places
import Deployment.Proofs.Forest.Spans

/-!
# Forests built from declarations

While a file is gone through, instances are created in the order in which declarations are met, and
links are only staged; the queue of declarations holds the last instances created. What the
instances are linked to later is settled by then: any forest with the staged links spans the drafts
of the declarations, and a walk through it meets the instances in the order in which they were
created (`Stages`, `Plants`).

* `Reads`, `Logged`: what a builder knows of an instance, and has said about all of them;
* `stages_createBelow`: one declaration of the queue after the other;
* `attached_attachAll`: the staged links, all to instances created later, make trees;
* `Built`, `Built.buildFile`: a forest that spans drafts, file after file.
-/

namespace Deployment

open Deployment.Tree Draft InstanceCompilation

/-- The declarations at any depth are those among the blocks, each with those inside it. -/
theorem Block.populations_eq_sum (blocks : List Block) :
    Block.populations blocks =
      ((Block.instances blocks).map fun b => Block.populations b.inner + 1).sum := by
  induction blocks with
  | nil => rfl
  | cons b bs ih =>
    rw [populations, ih]
    cases b with
    | declaration site kind name inner =>
      cases kind with
      | instanceOf => rfl
      | component | facet => exact Nat.zero_add _
    | importOf | property | comment | blank => exact Nat.zero_add _

/-- Indices up to a bound, and from there on. -/
theorem range'_append_sub {a b c : Nat} (hab : a ≤ b) (hbc : b ≤ c) :
    List.range' a (b - a) ++ List.range' b (c - b) = List.range' a (c - a) := by
  obtain ⟨m, rfl⟩ := Nat.exists_eq_add_of_le hab
  obtain ⟨n, rfl⟩ := Nat.exists_eq_add_of_le hbc
  rw [Nat.add_sub_cancel_left, Nat.add_sub_cancel_left, List.range'_append_1, Nat.add_assoc,
    Nat.add_sub_cancel_left]

namespace InstanceBuilder

/-! ### What a builder knows -/

/-- An instance that was read from a draft. -/
structure Reads (s : InstanceBuilder) (id : Nat) (d : Draft) : Prop where
  body : s.forest.get? id = some d.body
  site : s.origins.get? id = some d.site
  countText : s.counts.get? id = d.countText

/-- What has been said about the instances created so far, in order, and before. -/
structure Logged (g : TypeGraph) (found : List Diagnostic) (s : InstanceBuilder) : Prop where
  declared : s.declared = List.range s.forest.nodes.size
  fresh : ∀ id, s.forest.nodes.size ≤ id → s.counts.get? id = none
  reported : ∃ ds, List.Forall₂ s.Reads s.declared ds ∧
    s.diagnostics = found ++ ds.flatMap (unknownComponent g)

/-- Instances may have been added, which have no links yet. -/
structure Grows (s s' : InstanceBuilder) : Prop where
  size_le : s.forest.nodes.size ≤ s'.forest.nodes.size
  roots : s'.forest.roots = s.forest.roots
  children : ∀ id, s'.forest.children id = s.forest.children id
  parent? : ∀ id, s'.forest.parent? id = s.forest.parent? id
  reads : ∀ id d, s.Reads id d → s'.Reads id d

variable {g : TypeGraph} {found : List Diagnostic} {s s' s'' : InstanceBuilder}
  {b : InstanceDeclaration} {id : Nat} {d : Draft}

theorem Reads.lt (h : s.Reads id d) : id < s.forest.nodes.size := by
  obtain ⟨n, hn, -⟩ := Option.map_eq_some_iff.1 h.body
  exact Forest.lt_of_node? hn

/-- An instance is read from one draft only. -/
theorem Reads.unique {d' : Draft} (h : s.Reads id d) (h' : s.Reads id d') : d = d' := by
  obtain ⟨body, site, countText⟩ := d
  obtain ⟨body', site', countText'⟩ := d'
  obtain rfl : body = body' := Option.some.inj (h.body.symm.trans h'.body)
  obtain rfl : site = site' := Option.some.inj (h.site.symm.trans h'.site)
  obtain rfl : countText = countText' := h.countText.symm.trans h'.countText
  rfl

theorem Grows.refl (s : InstanceBuilder) : Grows s s :=
  ⟨le_rfl, rfl, fun _ => rfl, fun _ => rfl, fun _ _ h => h⟩

theorem Grows.trans (h : Grows s s') (h' : Grows s' s'') : Grows s s'' where
  size_le := h.size_le.trans h'.size_le
  roots := h'.roots.trans h.roots
  children id := (h'.children id).trans (h.children id)
  parent? id := (h'.parent? id).trans (h.parent? id)
  reads id d hd := h'.reads id d (h.reads id d hd)

/-! ### One declaration -/

theorem size_create (g : TypeGraph) (s : InstanceBuilder) (b : InstanceDeclaration) :
    (s.create g b).forest.nodes.size = s.forest.nodes.size + 1 :=
  Forest.size_insert ..

theorem counts_create (g : TypeGraph) (s : InstanceBuilder) (b : InstanceDeclaration) (id : Nat) :
    (s.create g b).counts.get? id =
      if s.forest.nodes.size = id then b.draft.countText.or (s.counts.get? id)
      else s.counts.get? id := by
  rw [create, InstanceDeclaration.draft]
  dsimp only
  split
  · next text htext => rw [Table.get?_insert, htext, Option.some_or]
  · next hnone => rw [hnone, Option.none_or, ite_self]

theorem grows_create (g : TypeGraph) (s : InstanceBuilder) (b : InstanceDeclaration) :
    Grows s (s.create g b) where
  size_le := (size_create g s b).symm ▸ Nat.le_succ _
  roots := rfl
  children := Forest.children_insert s.forest b.draft.body
  parent? := Forest.parent?_insert s.forest b.draft.body
  reads id d h := by
    refine ⟨?_, ?_, ?_⟩
    · exact (Forest.get?_insert ..).trans ((if_neg h.lt.ne).trans h.body)
    · exact (Table.get?_insert ..).trans ((if_neg h.lt.ne').trans h.site)
    · rw [counts_create, if_neg h.lt.ne', h.countText]

section Create

variable (h : Logged g found s)

include h

theorem Logged.reads_create (b : InstanceDeclaration) :
    (s.create g b).Reads s.forest.nodes.size b.draft where
  body := (Forest.get?_insert ..).trans (if_pos rfl)
  site := (Table.get?_insert ..).trans (if_pos rfl)
  countText := by rw [counts_create, if_pos rfl, h.fresh _ le_rfl, Option.or_none]

/-- What is found about a declaration is said when its instance is created. -/
theorem Logged.create (b : InstanceDeclaration) : Logged g found (s.create g b) where
  declared := by
    rw [size_create, List.range_succ, ← h.declared]
    rfl
  fresh id hid := by
    rw [size_create] at hid
    rw [counts_create, if_neg (Nat.ne_of_lt hid)]
    exact h.fresh id (Nat.le_of_succ_le hid)
  reported := by
    obtain ⟨ds, hreads, hdiagnostics⟩ := h.reported
    have hkept := hreads.imp (grows_create g s b).reads
    refine ⟨ds ++ [b.draft], List.rel_append hkept (.cons (h.reads_create b) .nil), ?_⟩
    rw [List.flatMap_append, List.flatMap_singleton, ← List.append_assoc, ← hdiagnostics,
      unknownComponent, b.draft_component]
    change (if _ then _ else _) = _
    split
    · exact (List.append_nil _).symm
    · rfl

end Create

/-! ### Declarations side by side -/

/-- Some declarations have had their instances created, one after the other. -/
structure Creates (g : TypeGraph) (found : List Diagnostic) (s s' : InstanceBuilder)
    (created : List (Nat × InstanceDeclaration)) : Prop where
  grows : Grows s s'
  logged : Logged g found s'
  size : s'.forest.nodes.size = s.forest.nodes.size + created.length
  indices : created.map Prod.fst = List.range' s.forest.nodes.size created.length
  reads : ∀ q ∈ created, s'.Reads q.1 q.2.draft

theorem Logged.creates_createAll (h : Logged g found s) (bs : List InstanceDeclaration) :
    Creates g found s (s.createAll g bs).1 (s.createAll g bs).2 ∧
      (s.createAll g bs).2.map Prod.snd = bs := by
  induction bs generalizing s with
  | nil =>
    refine ⟨⟨.refl s, h, rfl, rfl, fun q hq => ?_⟩, rfl⟩
    exact absurd hq List.not_mem_nil
  | cons b bs ih =>
    obtain ⟨hrest, hdeclarations⟩ := ih (h.create b)
    rw [createAll]
    refine ⟨⟨(grows_create g s b).trans hrest.grows, hrest.logged, ?_, ?_, ?_⟩, ?_⟩
    · rw [hrest.size, size_create, List.length_cons, Nat.add_assoc, Nat.add_comm 1]
    · rw [List.map_cons, hrest.indices, size_create, List.length_cons, List.range'_succ]
    · exact List.forall_mem_cons.2 ⟨hrest.grows.reads _ _ (h.reads_create b), hrest.reads⟩
    · rw [List.map_cons, hdeclarations]

/-! ### Declarations inside declarations -/

/-- The children that are staged for an instance. -/
def stagedBelow (staged : List (Nat × Nat)) (id : Nat) : List Nat :=
  (staged.filter fun p => p.1 = id).map Prod.snd

/-- A forest in which some instances are linked as it is staged. -/
def Linked (f : Forest) (staged : List (Nat × Nat)) (first last : Nat) : Prop :=
  ∀ id, first ≤ id → id < last → id < f.nodes.size ∧ f.children id = stagedBelow staged id

theorem stagedBelow_append (staged staged' : List (Nat × Nat)) (id : Nat) :
    stagedBelow (staged ++ staged') id = stagedBelow staged id ++ stagedBelow staged' id := by
  rw [stagedBelow, List.filter_append, List.map_append, stagedBelow, stagedBelow]

theorem stagedBelow_eq_nil {staged : List (Nat × Nat)} (h : ∀ p ∈ staged, p.1 ≠ id) :
    stagedBelow staged id = [] := by
  rw [stagedBelow, List.map_eq_nil_iff, List.filter_eq_nil_iff]
  exact fun p hp hid => h p hp (of_decide_eq_true hid)

theorem stagedBelow_map_pair (id : Nat) (children : List Nat) :
    stagedBelow (children.map fun child => (id, child)) id = children := by
  have hall : ∀ p ∈ children.map fun child => (id, child), decide (p.1 = id) = true := by
    rintro _ hp
    obtain ⟨child, -, rfl⟩ := List.mem_map.1 hp
    exact decide_eq_true rfl
  rw [stagedBelow, List.filter_eq_self.2 hall, List.map_map]
  exact List.map_id' children

section Linked

variable {f : Forest} {staged staged' : List (Nat × Nat)} {first last first' last' : Nat}

/-- Links made as staged, narrowed to instances for which nothing has been staged before. -/
theorem Linked.of_append_right (h : Linked f (staged ++ staged') first last)
    (hfirst : first ≤ first') (hlast : last' ≤ last)
    (hapart : ∀ p ∈ staged, first' ≤ p.1 → last' ≤ p.1) : Linked f staged' first' last' := by
  intro id hge hlt
  obtain ⟨hsize, hchildren⟩ := h id (hfirst.trans hge) (hlt.trans_le hlast)
  have hnone : stagedBelow staged id = [] := stagedBelow_eq_nil fun p hp heq =>
    Nat.not_le_of_lt hlt (heq ▸ hapart p hp (heq ▸ hge))
  rw [stagedBelow_append, hnone, List.nil_append] at hchildren
  exact ⟨hsize, hchildren⟩

/-- Links made as staged, narrowed to instances for which nothing is staged later. -/
theorem Linked.of_append_left (h : Linked f (staged ++ staged') first last) (hlast : last' ≤ last)
    (hapart : ∀ p ∈ staged', last' ≤ p.1) : Linked f staged first last' := by
  intro id hge hlt
  obtain ⟨hsize, hchildren⟩ := h id hge (hlt.trans_le hlast)
  have hnone : stagedBelow staged' id = [] := stagedBelow_eq_nil fun p hp heq =>
    Nat.not_le_of_lt hlt (heq ▸ hapart p hp)
  rw [stagedBelow_append, hnone, List.append_nil] at hchildren
  exact ⟨hsize, hchildren⟩

end Linked

/-- The declarations inside those of a queue, whose instances are the last ones created, from
    `first` on. Wherever the staged links are made, a walk from the queue meets all instances from
    `first` on in order, and spans the drafts of the declarations. -/
structure Stages (g : TypeGraph) (found : List Diagnostic) (s s' : InstanceBuilder) (first : Nat)
    (queue : List (Nat × InstanceDeclaration)) (staged : List (Nat × Nat)) : Prop where
  grows : Grows s s'
  logged : Logged g found s'
  indices : staged.map Prod.snd =
    List.range' s.forest.nodes.size (s'.forest.nodes.size - s.forest.nodes.size)
  rising : ∀ p ∈ staged, first ≤ p.1 ∧ p.1 < p.2
  visits : ∀ f, Linked f staged first s'.forest.nodes.size →
    f.Visits (queue.map Prod.fst) (List.range' first (s'.forest.nodes.size - first))
  spans : ∀ f, Linked f staged first s'.forest.nodes.size →
    ∀ q ∈ queue, f.Spans s'.Reads q.1 (.node q.2.draft (ofBlocks q.2.inner))

/-- The number of declarations in a queue and inside. -/
def pending (queue : List (Nat × InstanceDeclaration)) : Nat :=
  (queue.map fun q => Block.populations q.2.inner + 1).sum

theorem pending_append (queue queue' : List (Nat × InstanceDeclaration)) :
    pending (queue ++ queue') = pending queue + pending queue' := by
  rw [pending, List.map_append, List.sum_append, pending, pending]

theorem pending_eq_populations {created : List (Nat × InstanceDeclaration)} {blocks : List Block}
    (h : created.map Prod.snd = Block.instances blocks) :
    pending created = Block.populations blocks := by
  rw [Block.populations_eq_sum, ← h, List.map_map]
  rfl

theorem Logged.stages_nil (h : Logged g found s) :
    Stages g found s s s.forest.nodes.size [] [] where
  grows := .refl s
  logged := h
  indices := by rw [Nat.sub_self]; rfl
  rising p hp := absurd hp List.not_mem_nil
  visits f _ := by
    rw [Nat.sub_self]
    exact .done
  spans f _ q hq := absurd hq List.not_mem_nil

/-- The first declaration of a queue has those inside it created, and the rest follows. -/
theorem Creates.stages {first : Nat} {queue children : List (Nat × InstanceDeclaration)}
    {staged : List (Nat × Nat)} (hcreates : Creates g found s s' children)
    (hdeclarations : children.map Prod.snd = Block.instances b.inner)
    (hfirst : s.Reads first b.draft)
    (hrest : Stages g found s' s'' (first + 1) (queue ++ children) staged) :
    Stages g found s s'' first ((first, b) :: queue)
      (children.map (fun child => (first, child.1)) ++ staged) := by
  have hlt : first < s''.forest.nodes.size :=
    hfirst.lt.trans_le (hcreates.grows.size_le.trans hrest.grows.size_le)
  -- The children staged for `first` are those that were created, and for the instances after it
  -- there is only what is staged later.
  have hown : stagedBelow (children.map (fun child => (first, child.1)) ++ staged) first =
      children.map Prod.fst := by
    have hpairs : children.map (fun child => (first, child.1)) =
        (children.map Prod.fst).map fun child => (first, child) := List.map_map.symm
    have hlater : stagedBelow staged first = [] :=
      stagedBelow_eq_nil fun p hp => Nat.ne_of_gt (hrest.rising p hp).1
    rw [stagedBelow_append, hlater, List.append_nil, hpairs, stagedBelow_map_pair]
  have hothers : ∀ f, Linked f (children.map (fun child => (first, child.1)) ++ staged) first
      s''.forest.nodes.size → Linked f staged (first + 1) s''.forest.nodes.size := by
    refine fun f hf => hf.of_append_right (Nat.le_succ first) le_rfl fun p hp hle => ?_
    obtain ⟨child, -, rfl⟩ := List.mem_map.1 hp
    exact absurd hle (Nat.not_succ_le_self first)
  constructor
  case grows => exact hcreates.grows.trans hrest.grows
  case logged => exact hrest.logged
  case indices =>
    have hcreated : children.map Prod.fst = List.range' s.forest.nodes.size
        (s'.forest.nodes.size - s.forest.nodes.size) := by
      rw [hcreates.indices, hcreates.size, Nat.add_sub_cancel_left]
    rw [List.map_append, List.map_map, hrest.indices,
      ← range'_append_sub hcreates.grows.size_le hrest.grows.size_le, ← hcreated]
    rfl
  case rising =>
    intro p hp
    rcases List.mem_append.1 hp with hp | hp
    · obtain ⟨child, hchild, rfl⟩ := List.mem_map.1 hp
      have hindex : child.1 ∈ children.map Prod.fst := List.mem_map_of_mem hchild
      rw [hcreates.indices, List.mem_range'_1] at hindex
      exact ⟨le_rfl, hfirst.lt.trans_le hindex.1⟩
    · obtain ⟨hle, hlt⟩ := hrest.rising p hp
      exact ⟨Nat.le_of_succ_le hle, hlt⟩
  case visits =>
    intro f hf
    obtain ⟨hsize, hchildren⟩ := hf first le_rfl hlt
    obtain ⟨n, hn⟩ := Forest.exists_node?_of_lt hsize
    have hvisits := hrest.visits f (hothers f hf)
    have hlength : s''.forest.nodes.size - first = s''.forest.nodes.size - (first + 1) + 1 := by
      omega
    rw [hown, Forest.children_of_node? hn] at hchildren
    rw [List.map_append, ← hchildren] at hvisits
    rw [List.map_cons, hlength, List.range'_succ]
    exact .next hn hvisits
  case spans =>
    intro f hf
    have hspans := hrest.spans f (hothers f hf)
    refine List.forall_mem_cons.2 ⟨?_, fun q hq => hspans q (List.mem_append_left _ hq)⟩
    refine Forest.spans_iff.2 ⟨?_, ?_⟩
    · exact hrest.grows.reads _ _ (hcreates.grows.reads _ _ hfirst)
    · rw [(hf first le_rfl hlt).2, hown, Tree.children, ofBlocks_eq_map, ← hdeclarations,
        List.map_map, List.forall₂_map_left_iff, List.forall₂_map_right_iff, List.forall₂_same]
      exact fun child hchild => hspans child (List.mem_append_right _ hchild)

/-- The declarations inside those of a queue get their instances, if there is fuel for all. -/
theorem Logged.stages_createBelow {fuel first : Nat} {queue : List (Nat × InstanceDeclaration)}
    (h : Logged g found s) (hfuel : pending queue ≤ fuel)
    (hindices : queue.map Prod.fst = List.range' first queue.length)
    (hsize : s.forest.nodes.size = first + queue.length)
    (hreads : ∀ q ∈ queue, s.Reads q.1 q.2.draft) :
    Stages g found s (createBelow g fuel s queue).1 first queue (createBelow g fuel s queue).2 := by
  induction fuel generalizing s first queue with
  | zero =>
    cases queue with
    | nil =>
      obtain rfl : s.forest.nodes.size = first := hsize
      exact h.stages_nil
    | cons q queue =>
      rw [pending, List.map_cons, List.sum_cons] at hfuel
      omega
  | succ fuel ih =>
    cases queue with
    | nil =>
      obtain rfl : s.forest.nodes.size = first := hsize
      exact h.stages_nil
    | cons q queue =>
      obtain ⟨parent, b⟩ := q
      rw [List.map_cons, List.length_cons, List.range'_succ, List.cons.injEq] at hindices
      obtain ⟨hparent, hindices⟩ := hindices
      dsimp only at hparent
      subst hparent
      obtain ⟨hfirst, hreads⟩ := List.forall_mem_cons.1 hreads
      obtain ⟨hcreates, hdeclarations⟩ := h.creates_createAll (Block.instances b.inner)
      rw [List.length_cons] at hsize
      have hinside := pending_eq_populations hdeclarations
      rw [createBelow]
      refine hcreates.stages hdeclarations hfirst (ih hcreates.logged ?_ ?_ ?_ ?_)
      · rw [pending, List.map_cons, List.sum_cons] at hfuel
        change Block.populations b.inner + 1 + pending queue ≤ fuel + 1 at hfuel
        rw [pending_append, hinside]
        omega
      · have hstart : s.forest.nodes.size = parent + 1 + queue.length := by omega
        rw [List.map_append, hindices, hcreates.indices, hstart, List.length_append,
          List.range'_append_1]
      · rw [hcreates.size, hsize, List.length_append]
        omega
      · refine List.forall_mem_append.2 ⟨fun q hq => ?_, hcreates.reads⟩
        exact hcreates.grows.reads _ _ (hreads q hq)

/-! ### Trees of declarations -/

/-- Declarations and those inside them have had their instances created, tree after tree. The roots
    and the staged children are all instances created, each once. Wherever the staged links are
    made, the roots span the drafts of the declarations, and the walks down from them meet the
    instances in order. -/
structure Plants (g : TypeGraph) (found : List Diagnostic) (s s' : InstanceBuilder)
    (bs : List InstanceDeclaration) (roots : List Nat) (staged : List (Nat × Nat)) : Prop where
  grows : Grows s s'
  logged : Logged g found s'
  links : (roots ++ staged.map Prod.snd).Perm
    (List.range' s.forest.nodes.size (s'.forest.nodes.size - s.forest.nodes.size))
  rising : ∀ p ∈ staged, s.forest.nodes.size ≤ p.1 ∧ p.1 < p.2
  hierarchies : ∀ f : Forest, f.TreeShaped →
    Linked f staged s.forest.nodes.size s'.forest.nodes.size →
    roots.flatMap f.hierarchy =
      List.range' s.forest.nodes.size (s'.forest.nodes.size - s.forest.nodes.size)
  spans : ∀ f, Linked f staged s.forest.nodes.size s'.forest.nodes.size →
    List.Forall₂ (f.Spans s'.Reads) roots (bs.map fun b => .node b.draft (ofBlocks b.inner))

theorem Plants.lt {bs : List InstanceDeclaration} {roots : List Nat} {staged : List (Nat × Nat)}
    (h : Plants g found s s' bs roots staged) (hid : id ∈ roots ++ staged.map Prod.snd) :
    s.forest.nodes.size ≤ id ∧ id < s'.forest.nodes.size := by
  have hmem := h.links.mem_iff.1 hid
  rw [List.mem_range'_1] at hmem
  have := h.grows.size_le
  omega

/-- A tree of declarations, and others after it. -/
theorem Stages.plants {bs : List InstanceDeclaration} {roots : List Nat}
    {staged later : List (Nat × Nat)}
    (htree : Stages g found (s.create g b) s' s.forest.nodes.size [(s.forest.nodes.size, b)] staged)
    (hrest : Plants g found s' s'' bs roots later) :
    Plants g found s s'' (b :: bs) (s.forest.nodes.size :: roots) (staged ++ later) := by
  have hcreated := htree.grows.size_le
  have hle := hrest.grows.size_le
  have hindices := htree.indices
  rw [size_create] at hcreated hindices
  have hlinks : s.forest.nodes.size :: staged.map Prod.snd =
      List.range' s.forest.nodes.size (s'.forest.nodes.size - s.forest.nodes.size) := by
    have hlength : s'.forest.nodes.size - s.forest.nodes.size =
        s'.forest.nodes.size - (s.forest.nodes.size + 1) + 1 := by omega
    rw [hindices, hlength, List.range'_succ]
  have hsplit := range'_append_sub (Nat.le_of_succ_le hcreated) hle
  -- What is staged for the first tree is staged for its own instances, and what is staged later is
  -- not.
  have hfirst : ∀ f, Linked f (staged ++ later) s.forest.nodes.size s''.forest.nodes.size →
      Linked f staged s.forest.nodes.size s'.forest.nodes.size :=
    fun f hf => hf.of_append_left hle fun p hp => (hrest.rising p hp).1
  have hlater : ∀ f, Linked f (staged ++ later) s.forest.nodes.size s''.forest.nodes.size →
      Linked f later s'.forest.nodes.size s''.forest.nodes.size := by
    refine fun f hf => hf.of_append_right (Nat.le_of_succ_le hcreated) le_rfl fun p hp hge => ?_
    have hchild : p.2 ∈ staged.map Prod.snd := List.mem_map_of_mem hp
    rw [hindices, List.mem_range'_1] at hchild
    have := (htree.rising p hp).2
    omega
  constructor
  case grows => exact ((grows_create g s b).trans htree.grows).trans hrest.grows
  case logged => exact hrest.logged
  case links =>
    rw [← hsplit, ← hlinks, List.map_append, List.cons_append, List.cons_append]
    refine List.Perm.cons _ ((List.perm_append_comm_assoc ..).trans ?_)
    exact hrest.links.append_left _
  case rising =>
    refine List.forall_mem_append.2 ⟨htree.rising, fun p hp => ?_⟩
    obtain ⟨hle', hlt⟩ := hrest.rising p hp
    exact ⟨by omega, hlt⟩
  case hierarchies =>
    intro f hshape hf
    have hvisits := htree.visits f (hfirst f hf)
    have hroot := (hf s.forest.nodes.size le_rfl (by omega)).1
    rw [List.flatMap_cons, hrest.hierarchies f hshape (hlater f hf), ← hsplit,
      (hshape.visits_hierarchy hroot).unique hvisits]
  case spans =>
    intro f hf
    have hspans := htree.spans f (hfirst f hf) _ List.mem_cons_self
    refine .cons (hspans.mono fun id d hd => ⟨hrest.grows.reads id d hd, rfl⟩) ?_
    exact hrest.spans f (hlater f hf)

theorem Logged.plants_createTrees (h : Logged g found s) (bs : List InstanceDeclaration) :
    Plants g found s (createTrees g s bs).1 bs (createTrees g s bs).2.1
      (createTrees g s bs).2.2 := by
  induction bs generalizing s with
  | nil =>
    refine ⟨.refl s, h, ?_, fun p hp => absurd hp List.not_mem_nil, fun f _ _ => ?_,
      fun f _ => .nil⟩
    · rw [createTrees, Nat.sub_self]
      exact .refl _
    · rw [createTrees, Nat.sub_self]
      rfl
  | cons b bs ih =>
    have hqueue : pending [(s.forest.nodes.size, b)] ≤ Block.populations b.inner + 1 := le_rfl
    have htree := (h.create b).stages_createBelow hqueue rfl (size_create g s b) fun q hq =>
      List.mem_singleton.1 hq ▸ h.reads_create b
    rw [createTrees]
    exact htree.plants (ih htree.logged)

/-! ### Links -/

/-- Every child has a higher index than its parent. -/
def Rising (f : Forest) : Prop := ∀ id, ∀ child ∈ f.children id, id < child

/-- In a forest with rising links, what is below an instance has no lower index. -/
theorem Rising.le {f : Forest} (h : Rising f) (hshape : f.TreeShaped) {below top : Nat}
    (hbelow : Relation.ReflTransGen f.HasParent below top) : top ≤ below := by
  induction hbelow with
  | refl => exact le_rfl
  | tail _ hparent ih => exact (h _ _ (hshape.hasParent_iff.1 hparent)).le.trans ih

/-- Instances have been attached as it was staged, and nothing else has changed. -/
structure Attached (f f' : Forest) (staged : List (Nat × Nat)) : Prop where
  treeShaped : f'.TreeShaped
  rising : Rising f'
  roots : f'.roots = f.roots
  size : f'.nodes.size = f.nodes.size
  get? : ∀ id, f'.get? id = f.get? id
  children : ∀ id, f'.children id = f.children id ++ stagedBelow staged id
  free : ∀ id, f.Free id → id ∉ staged.map Prod.snd → f'.Free id

section Attached

variable {f f' f'' : Forest} {staged staged' : List (Nat × Nat)}

theorem Attached.refl (h : f.TreeShaped) (hrising : Rising f) : Attached f f [] where
  treeShaped := h
  rising := hrising
  roots := rfl
  size := rfl
  get? _ := rfl
  children _ := (List.append_nil _).symm
  free _ hfree _ := hfree

theorem Attached.trans (h : Attached f f' staged) (h' : Attached f' f'' staged') :
    Attached f f'' (staged ++ staged') where
  treeShaped := h'.treeShaped
  rising := h'.rising
  roots := h'.roots.trans h.roots
  size := h'.size.trans h.size
  get? id := (h'.get? id).trans (h.get? id)
  children id := by rw [h'.children, h.children, stagedBelow_append, List.append_assoc]
  free id hfree hnot := by
    rw [List.map_append, List.mem_append, not_or] at hnot
    exact h'.free id (h.free id hfree hnot.1) hnot.2

/-- An instance without a place is attached to one that was created before it. -/
theorem attached_attach (h : f.TreeShaped) (hrising : Rising f) {parent child : Nat}
    (hlt : parent < child) (hfree : f.Free child) :
    Attached f (f.attach parent child) [(parent, child)] := by
  have hparent : parent < f.nodes.size := Nat.lt_trans hlt hfree.lt
  have hbelow : parent ∉ f.hierarchy child := by
    rw [h.mem_hierarchy_iff hfree.lt]
    exact fun hreach => Nat.not_le_of_lt hlt (hrising.le h hreach)
  constructor
  case treeShaped => exact h.attach hfree hparent hbelow
  case rising =>
    intro id below hmem
    rw [Forest.children_attach hparent] at hmem
    split at hmem
    · next heq =>
      rcases List.mem_append.1 hmem with hmem | hmem
      · exact hrising id below hmem
      · exact heq ▸ List.mem_singleton.1 hmem ▸ hlt
    · exact hrising id below hmem
  case roots => exact Forest.roots_attach ..
  case size => exact Forest.size_attach ..
  case get? => exact fun id => Forest.get?_attach ..
  case children =>
    intro id
    rw [Forest.children_attach hparent]
    split
    · next heq => exact heq ▸ congrArg _ (stagedBelow_map_pair parent [child]).symm
    · next hne =>
      rw [stagedBelow_eq_nil fun p hp => List.mem_singleton.1 hp ▸ hne, List.append_nil]
  case free =>
    intro id hid hnot
    have hne : child ≠ id := fun heq => hnot (heq ▸ List.mem_singleton_self child)
    refine ⟨by rw [Forest.size_attach]; exact hid.lt, ?_, hid.root⟩
    rw [Forest.parent?_attach hfree.lt, if_neg hne, hid.parent?]

/-- One link after the other. -/
theorem attached_attachAll (h : f.TreeShaped) (hrising : Rising f)
    (hstaged : ∀ p ∈ staged, p.1 < p.2 ∧ f.Free p.2) (hnodup : (staged.map Prod.snd).Nodup) :
    Attached f (attachAll f staged) staged := by
  induction staged generalizing f with
  | nil => exact .refl h hrising
  | cons p staged ih =>
    obtain ⟨⟨hlt, hfree⟩, hstaged⟩ := List.forall_mem_cons.1 hstaged
    rw [List.map_cons, List.nodup_cons] at hnodup
    have hfirst := attached_attach h hrising hlt hfree
    refine hfirst.trans (ih hfirst.treeShaped hfirst.rising (fun q hq => ?_) hnodup.2)
    obtain ⟨hlt, hfree⟩ := hstaged q hq
    refine ⟨hlt, hfirst.free q.2 hfree fun hmem => hnodup.1 ?_⟩
    exact List.mem_singleton.1 hmem ▸ List.mem_map_of_mem hq

end Attached

/-! ### Files -/

/-- A builder whose forest spans some drafts, and has its instances in the order in which the walks
    down from the roots meet them. -/
structure Built (g : TypeGraph) (found : List Diagnostic) (s : InstanceBuilder)
    (ts : List (Tree Draft)) : Prop where
  logged : Logged g found s
  treeShaped : s.forest.TreeShaped
  rising : Rising s.forest
  spans : List.Forall₂ (s.forest.Spans s.Reads) s.forest.roots ts
  all : s.forest.all = List.range s.forest.nodes.size

theorem built_start (g : TypeGraph) (found : List Diagnostic) : Built g found (start found) [] where
  logged := ⟨rfl, fun _ _ => rfl, [], .nil, (List.append_nil _).symm⟩
  treeShaped := Forest.treeShaped_empty
  rising id _ hchild := absurd (Forest.lt_of_mem_children hchild) (Nat.not_lt_zero id)
  spans := .nil
  all := rfl

/-- The instances of one more file have joined the forest: they are linked as staged, and their
    roots come after those that there were. -/
structure Joined (s s' : InstanceBuilder) (roots : List Nat) (staged : List (Nat × Nat))
    (f : Forest) : Prop where
  treeShaped : f.TreeShaped
  rising : Rising f
  roots : f.roots = s.forest.roots ++ roots
  size : f.nodes.size = s'.forest.nodes.size
  get? : ∀ id, f.get? id = s'.forest.get? id
  kept : ∀ id < s.forest.nodes.size, f.children id = s.forest.children id
  linked : Linked f staged s.forest.nodes.size s'.forest.nodes.size

section File

variable {ts : List (Tree Draft)} {bs : List InstanceDeclaration} {roots : List Nat}
  {staged : List (Nat × Nat)}

/-- Instances that have just been created have no place. -/
theorem Built.free (h : Built g found s ts) (hplants : Plants g found s s' bs roots staged)
    (hid : id ∈ roots ++ staged.map Prod.snd) : s'.forest.Free id := by
  obtain ⟨hge, hlt⟩ := hplants.lt hid
  refine ⟨hlt, ?_, fun hroot => ?_⟩
  · rw [hplants.grows.parent?, Option.eq_none_iff_forall_ne_some]
    exact fun parent hparent => Nat.not_lt_of_le hge (Forest.lt_of_parent? hparent)
  · rw [hplants.grows.roots] at hroot
    exact Nat.not_lt_of_le hge (h.treeShaped.within id hroot)

theorem Built.joined (h : Built g found s ts) (hplants : Plants g found s s' bs roots staged) :
    Joined s s' roots staged (roots.foldl Forest.addRoot (attachAll s'.forest staged)) := by
  have hgrows := hplants.grows
  have hshape : s'.forest.TreeShaped :=
    h.treeShaped.of_links hgrows.roots hgrows.size_le hgrows.children hgrows.parent?
  have hrising : Rising s'.forest := fun id child hchild =>
    h.rising id child (hgrows.children id ▸ hchild : child ∈ s.forest.children id)
  obtain ⟨hnodupRoots, hnodup, hapart⟩ :=
    List.nodup_append'.1 (hplants.links.nodup_iff.2 List.nodup_range')
  have hattached := attached_attachAll hshape hrising (fun p hp => ⟨(hplants.rising p hp).2,
    h.free hplants (List.mem_append_right _ (List.mem_map_of_mem hp))⟩) hnodup
  obtain ⟨hrooted, hroots, hsize, hchildren, hget⟩ := hattached.treeShaped.addRoots
    (fun id hid => hattached.free id (h.free hplants (List.mem_append_left _ hid)) (hapart hid))
    hnodupRoots
  generalize roots.foldl Forest.addRoot (attachAll s'.forest staged) = f at *
  have hbelow : ∀ id, f.children id = s.forest.children id ++ stagedBelow staged id := fun id => by
    rw [hchildren, hattached.children, hgrows.children]
  constructor
  case treeShaped => exact hrooted
  case rising => exact fun id child hchild => hattached.rising id child (hchildren id ▸ hchild)
  case roots => rw [hroots, hattached.roots, hgrows.roots]
  case size => exact hsize.trans hattached.size
  case get? => exact fun id => (hget id).trans (hattached.get? id)
  case kept =>
    intro id hid
    have hnone : stagedBelow staged id = [] := stagedBelow_eq_nil fun p hp =>
      Nat.ne_of_gt (hid.trans_le (hplants.rising p hp).1)
    rw [hbelow, hnone, List.append_nil]
  case linked =>
    intro id hge hlt
    have hnone : s.forest.children id = [] := by
      rw [Forest.children, Forest.node?, Array.getElem?_eq_none hge]
      rfl
    exact ⟨(hsize.trans hattached.size).symm ▸ hlt, by rw [hbelow, hnone, List.nil_append]⟩

/-- Joined to the forest, the instances of one more file span the drafts of its declarations. -/
theorem Built.of_joined {f : Forest} (h : Built g found s ts)
    (hplants : Plants g found s s' bs roots staged) (hjoined : Joined s s' roots staged f) :
    Built g found { s' with forest := f }
      (ts ++ bs.map fun b => .node b.draft (ofBlocks b.inner)) := by
  have hreads : ∀ id d, s'.Reads id d → Reads { s' with forest := f } id d := fun id d hd =>
    ⟨(hjoined.get? id).trans hd.body, hd.site, hd.countText⟩
  constructor
  case logged =>
    obtain ⟨ds, hds, hdiagnostics⟩ := hplants.logged.reported
    refine ⟨hplants.logged.declared.trans (congrArg List.range hjoined.size.symm), fun id hid => ?_,
      ds, hds.imp hreads, hdiagnostics⟩
    exact hplants.logged.fresh id (hjoined.size ▸ hid)
  case treeShaped => exact hjoined.treeShaped
  case rising => exact hjoined.rising
  case spans =>
    change List.Forall₂ (f.Spans _) f.roots _
    rw [hjoined.roots]
    refine List.rel_append ?_ ?_
    · refine h.spans.imp fun root t hspans => hspans.mono fun id d hd => ?_
      exact ⟨hreads id d (hplants.grows.reads id d hd), hjoined.kept id hd.lt⟩
    · exact (hplants.spans f hjoined.linked).imp fun root t hspans => hspans.mono fun id d hd =>
        ⟨hreads id d hd, rfl⟩
  case all =>
    have hfirst : s.forest.roots.flatMap f.hierarchy = s.forest.all := by
      refine List.flatMap_congr fun root hroot => ?_
      refine h.treeShaped.hierarchy_congr hjoined.treeShaped (h.treeShaped.within root hroot)
        fun id hid => ?_
      have hmem : id ∈ s.forest.all := List.mem_flatMap.2 ⟨root, hroot, hid⟩
      rw [h.all, List.mem_range] at hmem
      exact ⟨hjoined.size ▸ hmem.trans_le hplants.grows.size_le, hjoined.kept id hmem⟩
    change f.roots.flatMap f.hierarchy = List.range f.nodes.size
    have hsplit := range'_append_sub (Nat.zero_le _) hplants.grows.size_le
    rw [Nat.sub_zero, Nat.sub_zero, ← List.range_eq_range', ← List.range_eq_range'] at hsplit
    rw [hjoined.roots, List.flatMap_append, hfirst,
      hplants.hierarchies f hjoined.treeShaped hjoined.linked, h.all, hjoined.size, hsplit]

/-- A file adds the drafts of its declarations. -/
theorem Built.buildFile (h : Built g found s ts) (blocks : List Block) :
    Built g found (s.buildFile g blocks) (ts ++ ofBlocks blocks) := by
  have hplants := h.logged.plants_createTrees (Block.instances blocks)
  rw [ofBlocks_eq_map]
  exact h.of_joined hplants (h.joined hplants)

end File

/-- Files add their drafts one after the other. -/
theorem Built.buildFiles {ts : List (Tree Draft)} (h : Built g found s ts)
    (files : List (List Block)) :
    Built g found (files.foldl (InstanceBuilder.buildFile g) s) (ts ++ files.flatMap ofBlocks) := by
  induction files generalizing s ts with
  | nil => rwa [List.flatMap_nil, List.append_nil]
  | cons blocks files ih =>
    rw [List.flatMap_cons, ← List.append_assoc]
    exact ih (h.buildFile blocks)

/-- What has been said is what can be said about the drafts, in order. -/
theorem Built.diagnostics_eq {ts : List (Tree Draft)} (h : Built g found s ts) :
    s.diagnostics = found ++ unknownComponents g ts := by
  obtain ⟨ds, hds, hdiagnostics⟩ := h.logged.reported
  rw [h.logged.declared, ← h.all] at hds
  have hsame : List.Forall₂ (fun d d' => d = d') (ts.flatMap Tree.breadthFirst) ds :=
    forall₂_of_common (h.treeShaped.forall₂_all h.spans) hds fun _ _ _ _ hd hd' => hd.unique hd'
  rw [List.forall₂_eq_eq_eq] at hsame
  rw [hdiagnostics, unknownComponents, hsame]

end InstanceBuilder

end Deployment

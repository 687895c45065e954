import Deployment.Forest.Replication
import Deployment.Proofs.Forest.Operations

/-!
# Replicated instances

`Forest.replicate` numbers the copies level by level and writes their nodes down at once. The same
comes of copying step by step: a queue of instances and their copies, the first of which has its
children copied, one after the other, as new instances that are attached to its copy and join the
queue (`Replicates`). Copying thus comes to an end, and what it makes is made by `Forest.insert` and
`Forest.attach`, under which a forest stays tree-shaped.

* `Expands`: the copies of a queue, one after the other, without the forest;
* `withCopies`: a forest with the nodes of some copies behind its own;
* `Replica`: an exact copy that leaves everything else alone; in a tree-shaped forest replication
  makes one (`TreeShaped.replica`).
-/

namespace Deployment.Forest

/-! ### Copying step by step -/

/-- The copies of some children: each is a new instance that is attached to `parent`, the copy of
    their parent. With the forest that results come the pairs of children and their copies. -/
inductive Clones : Forest → Nat → List Nat → Forest → List (Nat × Nat) → Prop
  | done {f : Forest} {parent : Nat} : Clones f parent [] f []
  | next {f g : Forest} {parent child : Nat} {rest : List Nat} {body : Instance}
      {pairs : List (Nat × Nat)} :
      f.get? child = some body →
      Clones ((f.insert body).attach parent f.nodes.size) parent rest g pairs →
      Clones f parent (child :: rest) g ((child, f.nodes.size) :: pairs)

/-- What comes of a queue of instances and their copies: the children of the first one are copied
    and join at the end, with their copies. -/
inductive Replicates : Forest → List (Nat × Nat) → Forest → List (Nat × Nat) → Prop
  | done {f : Forest} : Replicates f [] f []
  | next {f g k : Forest} {source index : Nat} {n : Node} {queue new pairs : List (Nat × Nat)} :
      f.node? source = some n → Clones f index n.children g new →
      Replicates g (queue ++ new) k pairs →
      Replicates f ((source, index) :: queue) k (new ++ pairs)

/-- The copies of a queue, each with those of its children, which are numbered from `next` on and
    join at the end. -/
inductive Expands (f : Forest) : Nat → List Copy → List (Copy × List Copy) → Prop
  | done {next : Nat} : Expands f next [] []
  | next {next : Nat} {c : Copy} {queue : List Copy} {rest : List (Copy × List Copy)} :
      Expands f (next + (f.childCopies next c).length) (queue ++ f.childCopies next c) rest →
      Expands f next (c :: queue) ((c, f.childCopies next c) :: rest)

/-- An instance and its copy. -/
def Copy.pair (c : Copy) : Nat × Nat := (c.source, c.index)

/-- A forest with the nodes of some copies behind its own. -/
def withCopies (f : Forest) (copies : List (Copy × List Copy)) : Forest :=
  { f with nodes := f.nodes ++ (copies.map f.copyNode).toArray }

variable {f g k : Forest} {id next parent fuel : Nat} {c : Copy} {level queue : List Copy}
  {done rest : List (Copy × List Copy)} {pairs : List (Nat × Nat)}

/-! ### Copies of children -/

theorem map_source_childCopies (f : Forest) (next : Nat) (c : Copy) :
    (f.childCopies next c).map Copy.source = f.children c.source := by
  rw [childCopies, List.map_map]
  exact List.zipIdx_map_fst ..

theorem map_index_childCopies (f : Forest) (next : Nat) (c : Copy) :
    (f.childCopies next c).map Copy.index = List.range' next (f.childCopies next c).length := by
  have hindices : (f.childCopies next c).map Copy.index =
      (((f.children c.source).zipIdx).map Prod.snd).map (next + ·) := by
    rw [childCopies, List.map_map, List.map_map]
    rfl
  rw [hindices, List.zipIdx_map_snd, List.map_add_range', Nat.add_zero, childCopies,
    List.length_map, List.length_zipIdx]

theorem parent_of_mem_childCopies {d : Copy} (hd : d ∈ f.childCopies next c) :
    d.parent = some c.index := by
  obtain ⟨_, -, rfl⟩ := List.mem_map.1 hd
  rfl

/-! ### Copies of a queue -/

/-- The copies in front of a queue are expanded one after the other, and those of their children
    join. -/
theorem expands_append
    (h : Expands f (next + ((f.withChildren next level).flatMap Prod.snd).length)
      (queue ++ (f.withChildren next level).flatMap Prod.snd) rest) :
    Expands f next (level ++ queue) (f.withChildren next level ++ rest) := by
  induction level generalizing next queue with
  | nil =>
    rw [withChildren, List.flatMap_nil, List.append_nil] at h
    exact h
  | cons c level ih =>
    rw [withChildren, List.flatMap_cons, List.length_append, ← Nat.add_assoc, ← List.append_assoc]
      at h
    have hrest := ih h
    rw [← List.append_assoc] at hrest
    exact .next hrest

theorem map_source_withChildren (f : Forest) (next : Nat) (level : List Copy) :
    (f.withChildren next level).map (·.1.source) = level.map Copy.source ∧
      ((f.withChildren next level).flatMap Prod.snd).map Copy.source =
        (level.map Copy.source).flatMap f.children := by
  induction level generalizing next with
  | nil => exact ⟨rfl, rfl⟩
  | cons c level ih =>
    obtain ⟨hfirst, hbelow⟩ := ih (next + (f.childCopies next c).length)
    constructor
    · rw [withChildren, List.map_cons, List.map_cons, hfirst]
    · rw [withChildren, List.flatMap_cons, List.map_append, hbelow, map_source_childCopies,
        List.map_cons, List.flatMap_cons]

/-- The copies are those of what a walk by levels lists. -/
theorem map_source_copiesFrom (f : Forest) (fuel next : Nat) (level : List Copy) :
    (f.copiesFrom fuel next level).map (·.1.source) =
      f.levelsFrom fuel (level.map Copy.source) := by
  induction fuel generalizing next level with
  | zero => rfl
  | succ fuel ih =>
    obtain ⟨hfirst, hbelow⟩ := map_source_withChildren f next level
    cases level with
    | nil => rfl
    | cons c level =>
      rw [copiesFrom, levelsFrom, if_neg (by simp), if_neg (by simp)]
      dsimp only
      rw [List.map_append, hfirst, ih, hbelow]

/-- Copies made by levels are those of a queue, if there is enough fuel for all levels. -/
theorem expands_copiesFrom (hnone : f.levelAt fuel (level.map Copy.source) = []) :
    Expands f next level (f.copiesFrom fuel next level) := by
  induction fuel generalizing next level with
  | zero =>
    obtain rfl : level = [] := List.map_eq_nil_iff.1 hnone
    exact .done
  | succ fuel ih =>
    cases level with
    | nil => exact .done
    | cons c level =>
      obtain ⟨-, hbelow⟩ := map_source_withChildren f next (c :: level)
      rw [levelAt, ← hbelow] at hnone
      have hexpands : Expands f next (c :: level ++ []) _ := expands_append (ih hnone)
      rw [List.append_nil] at hexpands
      rw [copiesFrom, if_neg (by simp)]
      exact hexpands

namespace Expands

variable (h : Expands f next queue rest)

include h

/-- What is expanded are the copies of the queue and those of the children of all that is. -/
theorem map_fst : rest.map Prod.fst = queue ++ rest.flatMap Prod.snd := by
  induction h with
  | done => rfl
  | next _ ih => rw [List.map_cons, ih, List.flatMap_cons, List.cons_append, List.append_assoc]

theorem exists_childCopies : ∀ e ∈ rest, ∃ next, e.2 = f.childCopies next e.1 := by
  induction h with
  | done => exact fun _ h => absurd h List.not_mem_nil
  | @next next c queue rest _ ih => exact List.forall_mem_cons.2 ⟨⟨next, rfl⟩, ih⟩

/-- Copies are numbered in the order in which they are expanded. -/
theorem map_index {start : Nat} (hnext : next = start + queue.length)
    (hqueue : queue.map Copy.index = List.range' start queue.length) :
    rest.map (·.1.index) = List.range' start rest.length := by
  induction h generalizing start with
  | done => rfl
  | @next next c queue rest _ ih =>
    rw [List.length_cons] at hnext
    rw [List.map_cons, List.length_cons, List.range'_succ, List.cons.injEq] at hqueue
    obtain ⟨hindex, hqueue⟩ := hqueue
    have hstart : next = start + 1 + queue.length := by omega
    have hjoined : (queue ++ f.childCopies next c).map Copy.index =
        List.range' (start + 1) (queue ++ f.childCopies next c).length := by
      rw [List.map_append, hqueue, map_index_childCopies, List.length_append, hstart,
        List.range'_append_1]
    have hrest := ih (by rw [List.length_append, hstart, Nat.add_assoc]) hjoined
    rw [List.map_cons, hrest, hindex, List.length_cons, List.range'_succ]

end Expands

/-! ### Forests with copies -/

theorem size_withCopies (f : Forest) (copies : List (Copy × List Copy)) :
    (f.withCopies copies).nodes.size = f.nodes.size + copies.length := by
  simp [withCopies]

/-- The nodes of a forest stay, those of the copies follow. -/
theorem node?_withCopies (f : Forest) (copies : List (Copy × List Copy)) (id : Nat) :
    (f.withCopies copies).node? id =
      if id < f.nodes.size then f.node? id
      else copies[id - f.nodes.size]?.map f.copyNode := by
  have hcopies : (copies.map f.copyNode).toArray[id - f.nodes.size]? =
      copies[id - f.nodes.size]?.map f.copyNode := by
    simp
  rw [node?, withCopies, Array.getElem?_append, hcopies, node?]

theorem node?_withCopies_of_lt (copies : List (Copy × List Copy)) (hid : id < f.nodes.size) :
    (f.withCopies copies).node? id = f.node? id := by
  rw [node?_withCopies, if_pos hid]

theorem get?_withCopies_of_lt (copies : List (Copy × List Copy)) (hid : id < f.nodes.size) :
    (f.withCopies copies).get? id = f.get? id := by
  rw [get?, node?_withCopies_of_lt copies hid, get?]

/-- A change in the middle of a list. -/
theorem modify_append_cons {α : Type} (l : List α) (a : α) (r : List α) (change : α → α) :
    (l ++ a :: r).modify l.length change = l ++ change a :: r := by
  rw [List.modify_eq_take_cons_drop (by simp)]
  simp

/-- A new instance that is attached to a copy is a further copy, below this one. -/
theorem attach_insert_withCopies {children : List Copy} {child index : Nat} {body : Instance}
    (hindex : c.index = f.nodes.size + done.length) (hbody : f.get? child = some body)
    (hsize : (f.withCopies (done ++ (c, children) :: rest)).nodes.size = index) :
    ((f.withCopies (done ++ (c, children) :: rest)).insert body).attach c.index index =
      f.withCopies (done ++ (c, children ++ [⟨child, index, some c.index⟩]) ::
        (rest ++ [(⟨child, index, some c.index⟩, [])])) := by
  have hnodes : (f.withCopies (done ++ (c, children) :: rest)).nodes.toList =
      f.nodes.toList ++ done.map f.copyNode ++
        f.copyNode (c, children) :: rest.map f.copyNode := by
    simp [withCopies]
  have hbefore : c.index = (f.nodes.toList ++ done.map f.copyNode).length := by
    simp [hindex]
  have hall : index = (f.nodes.toList ++ done.map f.copyNode ++
      f.copyNode (c, children) :: rest.map f.copyNode).length := by
    rw [← hsize, ← hnodes, Array.length_toList]
  -- First the new instance gets its parent, then the parent its new child.
  have hchild :
      ((f.withCopies (done ++ (c, children) :: rest)).nodes.push ⟨body, none, []⟩).toList.modify
          index (fun n => { n with parent := some c.index }) =
        f.nodes.toList ++ done.map f.copyNode ++
          f.copyNode (c, children) :: (rest.map f.copyNode ++ [⟨body, some c.index, []⟩]) := by
    rw [Array.toList_push, hnodes, hall, modify_append_cons]
    simp
  have hparent := modify_append_cons (f.nodes.toList ++ done.map f.copyNode)
    (f.copyNode (c, children)) (rest.map f.copyNode ++ [⟨body, some c.index, []⟩])
    fun n => { n with children := n.children ++ [index] }
  rw [← hbefore, ← hchild, ← Array.toList_modify, ← Array.toList_modify] at hparent
  have harray : (((f.withCopies (done ++ (c, children) :: rest)).insert body).attach c.index
      index).nodes = (f.withCopies (done ++ (c, children ++ [⟨child, index, some c.index⟩]) ::
        (rest ++ [(⟨child, index, some c.index⟩, [])]))).nodes := by
    refine Array.ext' (hparent.trans ?_)
    simp [withCopies, copyNode, hbody]
  exact congrArg (Forest.mk · f.roots) harray

/-- Copies without children yet. -/
def pending (queue : List Copy) : List (Copy × List Copy) := queue.map fun c => (c, [])

/-- Instances copied one after the other below a copy become its children. -/
theorem clones_withCopies {children new : List Copy} {sources : List Nat} {start : Nat}
    (hindex : c.index = f.nodes.size + done.length) (hsources : ∀ s ∈ sources, s < f.nodes.size)
    (hsize : (f.withCopies (done ++ (c, children) :: rest)).nodes.size = next + start)
    (hnew : new = (sources.zipIdx start).map fun (s, i) => ⟨s, next + i, some c.index⟩) :
    Clones (f.withCopies (done ++ (c, children) :: rest)) c.index sources
      (f.withCopies (done ++ (c, children ++ new) :: (rest ++ pending new)))
      (new.map Copy.pair) := by
  induction sources generalizing start children rest new with
  | nil =>
    subst hnew
    rw [List.zipIdx_nil, List.map_nil, List.append_nil, pending, List.map_nil, List.append_nil]
    exact .done
  | cons s sources ih =>
    obtain ⟨hs, hsources⟩ := List.forall_mem_cons.1 hsources
    obtain ⟨n, hn⟩ := exists_node?_of_lt hs
    have hbody := get?_of_node? hn
    have hget := (get?_withCopies_of_lt (done ++ (c, children) :: rest) hs).trans hbody
    have hattach := attach_insert_withCopies hindex hbody hsize
    have hsize' := congrArg (·.nodes.size) hattach
    rw [size_attach, size_insert, hsize, Nat.add_assoc] at hsize'
    have hrest := ih hsources hsize'.symm rfl
    rw [← hattach, ← hsize, List.append_assoc, List.append_assoc] at hrest
    have hfirst := Clones.next hget hrest
    rw [hsize] at hfirst
    rw [hnew]
    exact hfirst

/-- The first copy of a queue gets the copies of its children, which join the queue. -/
theorem clones_childCopies (hindex : c.index = f.nodes.size + done.length)
    (hsources : ∀ child ∈ f.children c.source, child < f.nodes.size)
    (hnext : next = f.nodes.size + done.length + (c :: queue).length) :
    Clones (f.withCopies (done ++ pending (c :: queue))) c.index (f.children c.source)
      (f.withCopies (done ++ (c, f.childCopies next c) :: pending (queue ++ f.childCopies next c)))
      ((f.childCopies next c).map Copy.pair) := by
  have hsize : (f.withCopies (done ++ pending (c :: queue))).nodes.size = next + 0 := by
    rw [size_withCopies, List.length_append, pending, List.length_map, hnext, Nat.add_zero,
      Nat.add_assoc]
  have happend : pending (queue ++ f.childCopies next c) =
      pending queue ++ pending (f.childCopies next c) := List.map_append
  rw [happend]
  exact clones_withCopies hindex hsources hsize rfl

/-- The copies of a queue are made step by step. -/
theorem Expands.replicates (h : Expands f next queue rest)
    (hnext : next = f.nodes.size + done.length + queue.length)
    (hindices : queue.map Copy.index = List.range' (f.nodes.size + done.length) queue.length)
    (hsources : ∀ c ∈ queue, c.source < f.nodes.size)
    (hchildren : ∀ id, ∀ child ∈ f.children id, child < f.nodes.size) :
    Replicates (f.withCopies (done ++ pending queue)) (queue.map Copy.pair)
      (f.withCopies (done ++ rest)) ((rest.flatMap Prod.snd).map Copy.pair) := by
  induction h generalizing done with
  | done => exact .done
  | @next next c queue rest _ ih =>
    rw [List.map_cons, List.length_cons, List.range'_succ, List.cons.injEq] at hindices
    obtain ⟨hindex, hindices⟩ := hindices
    obtain ⟨hsource, hsources⟩ := List.forall_mem_cons.1 hsources
    obtain ⟨n, hn⟩ := exists_node?_of_lt hsource
    have hclones := clones_childCopies hindex (hchildren c.source) hnext
    rw [List.length_cons] at hnext
    have hdone : f.nodes.size + (done ++ [(c, f.childCopies next c)]).length =
        f.nodes.size + done.length + 1 := by
      rw [List.length_append, List.length_singleton, Nat.add_assoc]
    have hjoined : (queue ++ f.childCopies next c).map Copy.index =
        List.range' (f.nodes.size + (done ++ [(c, f.childCopies next c)]).length)
          (queue ++ f.childCopies next c).length := by
      have hstart : next = f.nodes.size + done.length + 1 + queue.length := by omega
      have hlength : (queue ++ f.childCopies next c).length =
          queue.length + (f.childCopies next c).length := List.length_append
      rw [hdone, List.map_append, hindices, map_index_childCopies, hlength,
        ← List.range'_append_1, ← hstart]
    have hnew : ∀ d ∈ queue ++ f.childCopies next c, d.source < f.nodes.size := by
      refine List.forall_mem_append.2 ⟨hsources, fun d hd => hchildren c.source d.source ?_⟩
      rw [← map_source_childCopies f next c]
      exact List.mem_map_of_mem hd
    have hrest := ih (by rw [hdone, List.length_append]; omega) hjoined hnew
    rw [List.append_assoc, List.append_assoc, List.singleton_append, List.singleton_append,
      List.map_append] at hrest
    rw [List.flatMap_cons, List.map_append]
    rw [children_of_node? hn] at hclones
    exact .next ((node?_withCopies_of_lt _ hsource).trans hn) hclones hrest

/-! ### Tree-shaped forests -/

/-- A new instance may be attached to any other one. -/
theorem TreeShaped.attach_insert (h : f.TreeShaped) (hparent : parent < f.nodes.size)
    (body : Instance) : ((f.insert body).attach parent f.nodes.size).TreeShaped := by
  have hinsert := h.insert body
  have hnode : (f.insert body).node? f.nodes.size = some ⟨body, none, []⟩ := by
    rw [node?_insert, if_pos rfl]
  have hfree : (f.insert body).Free f.nodes.size := by
    refine ⟨lt_of_node? hnode, parent?_of_node? hnode, fun hroot => ?_⟩
    exact Nat.lt_irrefl _ (h.within _ hroot)
  refine hinsert.attach hfree (by rw [size_insert]; omega) fun hbelow => ?_
  rw [hinsert.mem_hierarchy_iff hfree.lt] at hbelow
  rcases Relation.ReflTransGen.cases_tail hbelow with heq | ⟨child, -, hchild⟩
  · exact Nat.ne_of_gt hparent heq
  · have hmem := hinsert.hasParent_iff.1 hchild
    rw [children_of_node? hnode] at hmem
    exact nomatch hmem

/-- Copying children keeps a forest tree-shaped. -/
theorem Clones.treeShaped {sources : List Nat} (h : Clones f parent sources g pairs)
    (hf : f.TreeShaped) (hparent : parent < f.nodes.size) :
    g.TreeShaped ∧ f.nodes.size ≤ g.nodes.size ∧ ∀ p ∈ pairs, p.2 < g.nodes.size := by
  induction h with
  | done => exact ⟨hf, le_rfl, fun _ hp => absurd hp List.not_mem_nil⟩
  | @next f g parent child rest body pairs _ _ ih =>
    have hsize : ((f.insert body).attach parent f.nodes.size).nodes.size = f.nodes.size + 1 := by
      rw [size_attach, size_insert]
    obtain ⟨hg, hle, hpairs⟩ := ih (hf.attach_insert hparent body) (by omega)
    exact ⟨hg, by omega, List.forall_mem_cons.2 ⟨by dsimp only; omega, hpairs⟩⟩

/-- Copying from a queue keeps a forest tree-shaped. -/
theorem Replicates.treeShaped {queue : List (Nat × Nat)} (h : Replicates f queue g pairs)
    (hf : f.TreeShaped) (hqueue : ∀ p ∈ queue, p.2 < f.nodes.size) : g.TreeShaped := by
  induction h with
  | done => exact hf
  | next _ hclones _ ih =>
    obtain ⟨hfirst, hqueue⟩ := List.forall_mem_cons.1 hqueue
    obtain ⟨hg, hle, hnew⟩ := hclones.treeShaped hf hfirst
    exact ih hg (List.forall_mem_append.2 ⟨fun p hp => (hqueue p hp).trans_le hle, hnew⟩)

/-! ### The copy in the forest -/

/-- Every copy stands where its index says. -/
theorem node?_withCopies_of_mem {copies : List (Copy × List Copy)} {e : Copy × List Copy}
    (hindices : copies.map (·.1.index) = List.range' f.nodes.size copies.length) (he : e ∈ copies) :
    (f.withCopies copies).node? e.1.index = some (f.copyNode e) := by
  obtain ⟨i, hi, rfl⟩ := List.mem_iff_getElem.1 he
  have hindex : (copies.map (·.1.index))[i]? = some (f.nodes.size + i) := by
    rw [hindices, List.getElem?_range' hi, Nat.one_mul]
  rw [List.getElem?_map, List.getElem?_eq_getElem hi, Option.map_some, Option.some.injEq] at hindex
  rw [node?_withCopies, hindex, if_neg (by omega), Nat.add_sub_cancel_left,
    List.getElem?_eq_getElem hi]
  rfl

/-- A walk down from a queue of copies lists the copies in the order in which they are expanded. -/
theorem Expands.visits (h : Expands f next queue rest)
    (hnodes : ∀ e ∈ rest, g.node? e.1.index = some (f.copyNode e)) :
    g.Visits (queue.map Copy.index) (rest.map (·.1.index)) := by
  induction h with
  | done => exact .done
  | next _ ih =>
    obtain ⟨hfirst, hrest⟩ := List.forall_mem_cons.1 hnodes
    have hvisits := ih hrest
    rw [List.map_append] at hvisits
    exact .next hfirst hvisits


/-! ### Replicas -/

/-- A copy of an instance and of all below it that leaves everything else alone: `g` is the forest
    with the copy, whose first instance comes behind those of `f`, and `pairs` are the instances
    that are copied, each with its copy. -/
structure Replica (f : Forest) (id : Nat) (g : Forest) (pairs : List (Nat × Nat)) : Prop where
  steps : ∃ body rest, f.get? id = some body ∧
    Replicates (f.insert body) [(id, f.nodes.size)] g rest ∧ pairs = (id, f.nodes.size) :: rest
  roots : g.roots = f.roots
  kept : ∀ other < f.nodes.size, g.node? other = f.node? other
  free : g.Free f.nodes.size
  fresh : ∀ other, other ∈ g.hierarchy f.nodes.size ↔ f.nodes.size ≤ other ∧ other < g.nodes.size
  length : (g.hierarchy f.nodes.size).length = (f.hierarchy id).length
  zipped : pairs = (f.hierarchy id).zip (g.hierarchy f.nodes.size)
  bodies : ∀ p ∈ pairs, g.get? p.2 = f.get? p.1
  children : ∀ p ∈ pairs,
    List.Forall₂ (fun child copy => (child, copy) ∈ pairs) (f.children p.1) (g.children p.2)
  parents : ∀ p ∈ pairs, p.1 ≠ id →
    ∃ q ∈ pairs, f.parent? p.1 = some q.1 ∧ g.parent? p.2 = some q.2
  treeShaped : g.TreeShaped

theorem map_source_copies (f : Forest) (id : Nat) :
    (f.copies id).map (·.1.source) = f.hierarchy id :=
  map_source_copiesFrom ..

section Copies

variable (h : f.TreeShaped) (hid : id < f.nodes.size) {e : Copy × List Copy}

include h hid

theorem TreeShaped.expands_copies :
    Expands f (f.nodes.size + 1) [⟨id, f.nodes.size, none⟩] (f.copies id) :=
  expands_copiesFrom (h.levelAt_size fun _ hother => List.mem_singleton.1 hother ▸ hid)

theorem TreeShaped.map_index_copies :
    (f.copies id).map (·.1.index) = List.range' f.nodes.size (f.copies id).length :=
  (h.expands_copies hid).map_index rfl rfl

theorem TreeShaped.node?_of_mem_copies (he : e ∈ f.copies id) :
    (f.withCopies (f.copies id)).node? e.1.index = some (f.copyNode e) :=
  node?_withCopies_of_mem (h.map_index_copies hid) he

/-- The copies of children are copies, too. -/
theorem TreeShaped.pair_mem_of_mem_copies {d : Copy} (he : e ∈ f.copies id) (hd : d ∈ e.2) :
    d.pair ∈ (f.copies id).map (·.1.pair) := by
  have hmem : d ∈ (f.copies id).map Prod.fst := by
    rw [(h.expands_copies hid).map_fst]
    exact List.mem_append_right _ (List.mem_flatMap.2 ⟨e, he, hd⟩)
  obtain ⟨e', he', rfl⟩ := List.mem_map.1 hmem
  exact List.mem_map_of_mem he'

theorem TreeShaped.source_lt_of_mem_copies (he : e ∈ f.copies id) : e.1.source < f.nodes.size := by
  have hmem : e.1.source ∈ f.hierarchy id := by
    rw [← map_source_copies]
    exact List.mem_map_of_mem he
  rw [h.mem_hierarchy_iff hid] at hmem
  rcases Relation.ReflTransGen.cases_head hmem with heq | ⟨_, hparent, -⟩
  · exact heq ▸ hid
  · exact lt_of_parent? hparent

/-- The copies are made step by step. -/
theorem TreeShaped.replicates_copies : ∃ body, f.get? id = some body ∧
    Replicates (f.insert body) [(id, f.nodes.size)] (f.withCopies (f.copies id))
      (((f.copies id).flatMap Prod.snd).map Copy.pair) := by
  obtain ⟨n, hn⟩ := exists_node?_of_lt hid
  have hbody := get?_of_node? hn
  have hinsert : f.insert n.body = f.withCopies ([] ++ pending [⟨id, f.nodes.size, none⟩]) := by
    simp [Forest.insert, withCopies, pending, copyNode, hbody]
  refine ⟨n.body, hbody, ?_⟩
  rw [hinsert]
  exact (h.expands_copies hid).replicates rfl rfl
    (fun _ hother => List.mem_singleton.1 hother ▸ hid) fun _ _ => h.child_lt_of_mem_children

theorem TreeShaped.withCopies_treeShaped : (f.withCopies (f.copies id)).TreeShaped := by
  obtain ⟨body, -, hsteps⟩ := h.replicates_copies hid
  refine hsteps.treeShaped (h.insert body) fun p hp => ?_
  rw [List.mem_singleton.1 hp, size_insert]
  exact Nat.lt_succ_self _

/-- The first copy has no parent. -/
theorem TreeShaped.exists_first_copy :
    ∃ n, (f.withCopies (f.copies id)).node? f.nodes.size = some n ∧ n.parent = none := by
  have hfst := (h.expands_copies hid).map_fst
  obtain ⟨e, he, hstart⟩ : ∃ e ∈ f.copies id, e.1 = ⟨id, f.nodes.size, none⟩ :=
    List.mem_map.1 (hfst ▸ List.mem_cons_self)
  have hfirst := h.node?_of_mem_copies hid he
  rw [copyNode, hstart] at hfirst
  exact ⟨_, hfirst, rfl⟩

/-- The copies are what stands at or below the first one. -/
theorem TreeShaped.hierarchy_withCopies :
    (f.withCopies (f.copies id)).hierarchy f.nodes.size = (f.copies id).map (·.1.index) := by
  obtain ⟨n, hn, -⟩ := h.exists_first_copy hid
  have hvisits := (h.expands_copies hid).visits fun _ he => h.node?_of_mem_copies hid he
  exact ((h.withCopies_treeShaped hid).visits_hierarchy (lt_of_node? hn)).unique hvisits

theorem TreeShaped.get?_of_mem_copies (he : e ∈ f.copies id) :
    (f.withCopies (f.copies id)).get? e.1.index = f.get? e.1.source := by
  obtain ⟨n, hn⟩ := exists_node?_of_lt (h.source_lt_of_mem_copies hid he)
  rw [get?_of_node? (h.node?_of_mem_copies hid he), copyNode, get?_of_node? hn]
  rfl

/-- The children of a copy are the copies of the children. -/
theorem TreeShaped.forall₂_children_of_mem_copies (he : e ∈ f.copies id) :
    List.Forall₂ (fun child copy => (child, copy) ∈ (f.copies id).map (·.1.pair))
      (f.children e.1.source) ((f.withCopies (f.copies id)).children e.1.index) := by
  obtain ⟨next, hnext⟩ := (h.expands_copies hid).exists_childCopies e he
  have hsources : f.children e.1.source = e.2.map Copy.source := by
    rw [hnext, map_source_childCopies]
  rw [children_of_node? (h.node?_of_mem_copies hid he), hsources, copyNode,
    List.forall₂_map_left_iff, List.forall₂_map_right_iff, List.forall₂_same]
  exact fun d hd => h.pair_mem_of_mem_copies hid he hd

/-- The parent of a copy is the copy of the parent, but for the first one. -/
theorem TreeShaped.exists_parent_of_mem_copies (he : e ∈ f.copies id) (hne : e.1.source ≠ id) :
    ∃ above ∈ f.copies id, f.parent? e.1.source = some above.1.source ∧
      (f.withCopies (f.copies id)).parent? e.1.index = some above.1.index := by
  have hmem : e.1 ∈ (f.copies id).map Prod.fst := List.mem_map_of_mem he
  rw [(h.expands_copies hid).map_fst] at hmem
  rcases List.mem_append.1 hmem with hmem | hmem
  · exact absurd (congrArg Copy.source (List.mem_singleton.1 hmem)) hne
  · obtain ⟨above, habove, hbelow⟩ := List.mem_flatMap.1 hmem
    obtain ⟨next, hnext⟩ := (h.expands_copies hid).exists_childCopies above habove
    rw [hnext] at hbelow
    refine ⟨above, habove, h.hasParent_iff.2 ?_, ?_⟩
    · rw [← map_source_childCopies f next above.1]
      exact List.mem_map_of_mem hbelow
    · exact (parent?_of_node? (h.node?_of_mem_copies hid he)).trans
        (parent_of_mem_childCopies hbelow)

end Copies

section Pairs

theorem node?_replicate (f : Forest) (id : Nat) {other : Nat} (hother : other < f.nodes.size) :
    (f.replicate id).1.node? other = f.node? other :=
  node?_withCopies_of_lt _ hother

theorem size_replicate (f : Forest) (id : Nat) :
    (f.replicate id).1.nodes.size = f.nodes.size + (f.replicate id).2.length := by
  have hlength : (f.replicate id).2.length = (f.copies id).length := List.length_map _
  rw [hlength]
  exact size_withCopies f _

variable (h : f.TreeShaped) (hid : id < f.nodes.size) {p : Nat × Nat}

include h hid

theorem TreeShaped.replicate_treeShaped : (f.replicate id).1.TreeShaped :=
  h.withCopies_treeShaped hid

/-- The copies come behind the instances that were there before, in the order of the pairs. -/
theorem TreeShaped.map_snd_pairs :
    (f.replicate id).2.map Prod.snd = List.range' f.nodes.size (f.replicate id).2.length := by
  have hindices := h.map_index_copies hid
  change ((f.copies id).map (·.1.pair)).map Prod.snd =
    List.range' f.nodes.size ((f.copies id).map (·.1.pair)).length
  rw [List.map_map, List.length_map]
  exact hindices

theorem TreeShaped.le_snd_of_mem_pairs (hp : p ∈ (f.replicate id).2) : f.nodes.size ≤ p.2 := by
  have hmem : p.2 ∈ (f.replicate id).2.map Prod.snd := List.mem_map_of_mem hp
  rw [h.map_snd_pairs hid, List.mem_range'_1] at hmem
  exact hmem.1

theorem TreeShaped.fst_lt_of_mem_pairs (hp : p ∈ (f.replicate id).2) : p.1 < f.nodes.size := by
  obtain ⟨e, he, rfl⟩ := List.mem_map.1 hp
  exact h.source_lt_of_mem_copies hid he

/-- The instance itself is the first to be copied. -/
theorem TreeShaped.first_mem_pairs : (id, f.nodes.size) ∈ (f.replicate id).2 := by
  have hfst := (h.expands_copies hid).map_fst
  obtain ⟨e, he, hstart⟩ : ∃ e ∈ f.copies id, e.1 = ⟨id, f.nodes.size, none⟩ :=
    List.mem_map.1 (hfst ▸ List.mem_cons_self)
  exact List.mem_map.2 ⟨e, he, by rw [hstart]⟩

theorem TreeShaped.free_replicate : (f.replicate id).1.Free f.nodes.size := by
  obtain ⟨n, hn, hnone⟩ := h.exists_first_copy hid
  refine ⟨lt_of_node? hn, (parent?_of_node? hn).trans hnone, fun hroot => ?_⟩
  exact Nat.lt_irrefl _ (h.within _ hroot)

/-- The copies are what stands at or below the first one. -/
theorem TreeShaped.mem_hierarchy_replicate {other : Nat} :
    other ∈ (f.replicate id).1.hierarchy f.nodes.size ↔
      f.nodes.size ≤ other ∧ other < (f.replicate id).1.nodes.size := by
  change other ∈ (f.withCopies (f.copies id)).hierarchy f.nodes.size ↔
    _ ∧ other < (f.withCopies (f.copies id)).nodes.size
  rw [h.hierarchy_withCopies hid, h.map_index_copies hid, List.mem_range'_1, size_withCopies]

/-- A copy is the same instance. -/
theorem TreeShaped.get?_replicate (hp : p ∈ (f.replicate id).2) :
    (f.replicate id).1.get? p.2 = f.get? p.1 := by
  obtain ⟨e, he, rfl⟩ := List.mem_map.1 hp
  exact h.get?_of_mem_copies hid he

/-- The children of a copy are the copies of the children. -/
theorem TreeShaped.forall₂_children_replicate (hp : p ∈ (f.replicate id).2) :
    List.Forall₂ (fun child copy => (child, copy) ∈ (f.replicate id).2) (f.children p.1)
      ((f.replicate id).1.children p.2) := by
  obtain ⟨e, he, rfl⟩ := List.mem_map.1 hp
  exact h.forall₂_children_of_mem_copies hid he

end Pairs

/-- Replication makes an exact copy and leaves everything else alone. -/
theorem TreeShaped.replica (h : f.TreeShaped) (hid : id < f.nodes.size) :
    f.Replica id (f.replicate id).1 (f.replicate id).2 := by
  have hhierarchy := h.hierarchy_withCopies hid
  constructor
  case steps =>
    obtain ⟨body, hbody, hsteps⟩ := h.replicates_copies hid
    have hpairs := congrArg (List.map Copy.pair) (h.expands_copies hid).map_fst
    rw [List.map_map] at hpairs
    exact ⟨body, _, hbody, hsteps, hpairs⟩
  case roots => rfl
  case kept => exact fun other hother => f.node?_replicate id hother
  case free => exact h.free_replicate hid
  case fresh => exact fun other => h.mem_hierarchy_replicate hid
  case length =>
    change ((f.withCopies (f.copies id)).hierarchy f.nodes.size).length = _
    rw [hhierarchy, ← map_source_copies, List.length_map, List.length_map]
  case zipped =>
    change (f.copies id).map (·.1.pair) =
      (f.hierarchy id).zip ((f.withCopies (f.copies id)).hierarchy f.nodes.size)
    rw [hhierarchy, ← map_source_copies, List.zip_map']
    rfl
  case bodies => exact fun p hp => h.get?_replicate hid hp
  case children => exact fun p hp => h.forall₂_children_replicate hid hp
  case parents =>
    intro p hp hne
    obtain ⟨e, he, rfl⟩ := List.mem_map.1 hp
    obtain ⟨above, habove, hparents⟩ := h.exists_parent_of_mem_copies hid he hne
    exact ⟨above.1.pair, List.mem_map_of_mem habove, hparents⟩
  case treeShaped => exact h.replicate_treeShaped hid

/-- A machine with two servers, the first one with two parts. -/
def cluster : Forest :=
  .ofTrees [.node (.named "vm" "VM")
    [.node (.named "server" "Server") [.node (.named "app" "App") [], .node (.named "db" "DB") []],
      .node (.named "spare" "Server") []]]

theorem TreeShaped.replica_cluster :
    cluster.TreeShaped ∧ 1 < cluster.nodes.size ∧
      cluster.Replica 1 (cluster.replicate 1).1 (cluster.replicate 1).2 ∧
      (cluster.replicate 1).2 = [(1, 5), (2, 6), (3, 7)] :=
  have hshape : cluster.TreeShaped := treeShaped_ofTrees _
  ⟨hshape, by decide, hshape.replica (by decide), by decide⟩

end Deployment.Forest

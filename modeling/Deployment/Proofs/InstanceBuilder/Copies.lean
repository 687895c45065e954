import Deployment.InstanceBuilder.Replication
import Deployment.Proofs.Draft.Expansion
import Deployment.Proofs.Forest.Replication
import Deployment.Proofs.Forest.Spans

/-!
# Copies of an instance

Copies are made one after the other. Each is a replica of the instance, with the origins of what it
copies and under a name of its own; it is attached beside the instance, or kept for later if the
instance is a root. Nothing that was there before changes but the children of the parent (`Copies`),
so what has been settled elsewhere stays as it is, and what is settled below the instance is found
again below every copy.

* `Settled`: an instance that will not change, with what it was read from;
* `copies_copyInstance`, `Copies.trans`: one copy, and copies one after the other;
* `spans_copyInstance`, `exists_copies`: the trees that copies span.
-/

namespace Deployment

open Deployment.Tree

/-- An instance and its place, as a draft says. -/
structure InstanceBuilder.Holds (s : InstanceBuilder) (id : Nat) (d : Draft) : Prop where
  body : s.forest.get? id = some d.body
  site : s.origins.get? id = some d.site

/-- An instance among those that do not change any more. -/
structure InstanceBuilder.Settled (s : InstanceBuilder) (fixed : Nat → Prop) (id : Nat)
    (d : Draft) : Prop extends s.Holds id d where
  fixed : fixed id

namespace Replication

/-! ### Origins -/

theorem copyOrigins_cons (origins : Table Nat Site) (original copy : Nat)
    (pairs : List (Nat × Nat)) :
    copyOrigins origins ((original, copy) :: pairs) =
      copyOrigins (match origins.get? original with
        | some site => origins.insert copy site
        | none => origins) pairs :=
  rfl

/-- What is no copy keeps its origin. -/
theorem get?_copyOrigins_of_not_mem {origins : Table Nat Site} {pairs : List (Nat × Nat)} {id : Nat}
    (h : id ∉ pairs.map Prod.snd) : (copyOrigins origins pairs).get? id = origins.get? id := by
  induction pairs generalizing origins with
  | nil => rfl
  | cons p pairs ih =>
    obtain ⟨original, copy⟩ := p
    rw [List.map_cons, List.mem_cons, not_or] at h
    rw [copyOrigins_cons, ih h.2]
    split
    · rw [Table.get?_insert, if_neg (Ne.symm h.1)]
    · rfl

/-- A copy has the origin of what it copies. -/
theorem get?_copyOrigins_of_mem {origins : Table Nat Site} {pairs : List (Nat × Nat)}
    {p : Nat × Nat} {site : Site} (hnodup : (pairs.map Prod.snd).Nodup)
    (hapart : ∀ p ∈ pairs, p.1 ∉ pairs.map Prod.snd) (hp : p ∈ pairs)
    (hsite : origins.get? p.1 = some site) : (copyOrigins origins pairs).get? p.2 = some site := by
  induction pairs generalizing origins with
  | nil => exact nomatch hp
  | cons q pairs ih =>
    obtain ⟨original, copy⟩ := q
    rw [List.map_cons, List.nodup_cons] at hnodup
    rw [copyOrigins_cons]
    rcases List.mem_cons.1 hp with rfl | hp
    · -- Later copies are others.
      rw [get?_copyOrigins_of_not_mem hnodup.1, hsite, Table.get?_insert, if_pos rfl]
    · refine ih hnodup.2 (fun r hr hmem => ?_) hp ?_
      · exact hapart r (List.mem_cons_of_mem _ hr) (List.mem_cons_of_mem _ hmem)
      · have hne : copy ≠ p.1 := fun heq =>
          hapart p (List.mem_cons_of_mem _ hp) (heq ▸ List.mem_cons_self)
        split
        · rw [Table.get?_insert, if_neg hne, hsite]
        · exact hsite

/-! ### One copy -/

variable {s s' s'' : Replication} {fixed kept : Nat → Prop} {id : Nat} {parent : Option Nat}
  {name : String}

/-- Copies of an instance have been made, and nothing else has changed of what is kept but the
    children of its parent, which they join. The copies of a root are kept as extra roots. -/
structure Copies (s s' : Replication) (kept : Nat → Prop) (parent : Option Nat) (cs : List Nat) :
    Prop where
  treeShaped : s'.forest.TreeShaped
  size_le : s.forest.nodes.size ≤ s'.forest.nodes.size
  roots : s'.forest.roots = s.forest.roots
  get? : ∀ id < s.forest.nodes.size, kept id → s'.forest.get? id = s.forest.get? id
  origins : ∀ id < s.forest.nodes.size, s'.origins.get? id = s.origins.get? id
  parent? : ∀ id < s.forest.nodes.size, s'.forest.parent? id = s.forest.parent? id
  children : ∀ id < s.forest.nodes.size, s'.forest.children id =
    if parent = some id then s.forest.children id ++ cs else s.forest.children id
  fresh : ∀ c ∈ cs, s.forest.nodes.size ≤ c ∧ c < s'.forest.nodes.size
  nodup : cs.Nodup
  parents : ∀ c ∈ cs, s'.forest.parent? c = parent
  counts : ∀ id, kept id → s'.counts.get? id = s.counts.get? id
  declared : s'.declared = s.declared
  diagnostics : s'.diagnostics = s.diagnostics
  inferred : s'.inferred = s.inferred ++ cs
  extraRoots : s'.extraRoots = if parent = none then s.extraRoots ++ cs else s.extraRoots

theorem lt_of_parent (h : s.forest.TreeShaped) (hparent : s.forest.parent? id = parent)
    {above : Nat} (habove : parent = some above) : above < s.forest.nodes.size :=
  Forest.lt_of_mem_children (h.hasParent_iff.1 (hparent.trans habove))

theorem forest_copyInstance (s : Replication) (id : Nat) (parent : Option Nat) (name : String) :
    (s.copyInstance id parent name).forest = match parent with
      | some above => ((s.forest.replicate id).1.rename s.forest.nodes.size name).attach above
          s.forest.nodes.size
      | none => (s.forest.replicate id).1.rename s.forest.nodes.size name := by
  cases parent <;> rfl

theorem extraRoots_copyInstance (s : Replication) (id : Nat) (parent : Option Nat) (name : String) :
    (s.copyInstance id parent name).extraRoots = match parent with
      | some _ => s.extraRoots
      | none => s.extraRoots ++ [s.forest.nodes.size] :=
  rfl

theorem size_copyInstance (s : Replication) (id : Nat) (parent : Option Nat) (name : String) :
    (s.copyInstance id parent name).forest.nodes.size =
      (s.forest.replicate id).1.nodes.size := by
  rw [forest_copyInstance]
  cases parent with
  | none => exact Forest.size_rename ..
  | some above => exact (Forest.size_attach ..).trans (Forest.size_rename ..)

section One

variable (h : s.forest.TreeShaped) (hid : id < s.forest.nodes.size)
  (hparent : s.forest.parent? id = parent)

include h hid

theorem get?_copyInstance (parent : Option Nat) (name : String) (other : Nat) :
    (s.copyInstance id parent name).forest.get? other =
      if s.forest.nodes.size = other then (s.forest.get? id).map fun body => { body with name }
      else (s.forest.replicate id).1.get? other := by
  have hrename : ((s.forest.replicate id).1.rename s.forest.nodes.size name).get? other =
      if s.forest.nodes.size = other then (s.forest.get? id).map fun body => { body with name }
      else (s.forest.replicate id).1.get? other := by
    rw [Forest.get?_rename]
    split
    · next heq =>
      rw [← heq]
      exact congrArg _ (h.get?_replicate hid (h.first_mem_pairs hid))
    · rfl
  rw [← hrename, forest_copyInstance]
  cases parent with
  | none => rfl
  | some above => exact Forest.get?_attach ..

include hparent

omit hid in
/-- A copy is attached to the parent of the instance, or not at all. -/
theorem children_copyInstance (name : String) (other : Nat) :
    (s.copyInstance id parent name).forest.children other =
      if parent = some other then
        (s.forest.replicate id).1.children other ++ [s.forest.nodes.size]
      else (s.forest.replicate id).1.children other := by
  have hrename := Forest.children_rename (s.forest.replicate id).1 s.forest.nodes.size name other
  rw [forest_copyInstance, ← hrename]
  cases parent with
  | none => exact (if_neg fun heq => nomatch heq).symm
  | some above =>
    have hlt : above <
        ((s.forest.replicate id).1.rename s.forest.nodes.size name).nodes.size := by
      rw [Forest.size_rename, Forest.size_replicate]
      exact Nat.lt_add_right _ (lt_of_parent h hparent rfl)
    dsimp only
    rw [Forest.children_attach hlt]
    simp only [Option.some.injEq]

theorem parent?_copyInstance (name : String) (other : Nat) :
    (s.copyInstance id parent name).forest.parent? other =
      if s.forest.nodes.size = other then parent
      else (s.forest.replicate id).1.parent? other := by
  have hfree := h.free_replicate hid
  have hrename := Forest.parent?_rename (s.forest.replicate id).1 s.forest.nodes.size name other
  rw [forest_copyInstance, ← hrename]
  cases parent with
  | none =>
    dsimp only
    split
    · next heq => rw [hrename, ← heq, hfree.parent?]
    · rfl
  | some above =>
    have hlt : s.forest.nodes.size <
        ((s.forest.replicate id).1.rename s.forest.nodes.size name).nodes.size := by
      rw [Forest.size_rename]
      exact hfree.lt
    dsimp only
    rw [Forest.parent?_attach hlt]

theorem treeShaped_copyInstance (name : String) :
    (s.copyInstance id parent name).forest.TreeShaped := by
  have hcopied := h.replicate_treeShaped hid
  have hfree := h.free_replicate hid
  have hrenamed := hcopied.rename s.forest.nodes.size name
  rw [forest_copyInstance]
  cases parent with
  | none => exact hrenamed
  | some above =>
    have hlt := lt_of_parent h hparent rfl
    refine hrenamed.attach ⟨?_, ?_, hfree.root⟩ ?_ ?_
    · rw [Forest.size_rename]
      exact hfree.lt
    · rw [Forest.parent?_rename, hfree.parent?]
    · rw [Forest.size_rename, Forest.size_replicate]
      exact Nat.lt_add_right _ hlt
    · -- At and below the copy stands nothing but what has been copied.
      have hsame := hcopied.hierarchy_congr hrenamed hfree.lt fun i hi => by
        rw [Forest.size_rename, Forest.children_rename]
        exact ⟨((h.mem_hierarchy_replicate hid).1 hi).2, rfl⟩
      rw [hsame, h.mem_hierarchy_replicate hid]
      exact fun hmem => Nat.not_le_of_lt hlt hmem.1

/-- One copy of an instance. -/
theorem copies_copyInstance (name : String) :
    Copies s (s.copyInstance id parent name) kept parent [s.forest.nodes.size] := by
  have hlt := (h.free_replicate hid).lt
  have hsize := size_copyInstance s id parent name
  have hkept : ∀ other < s.forest.nodes.size,
      (s.forest.replicate id).1.node? other = s.forest.node? other :=
    fun _ hother => s.forest.node?_replicate id hother
  constructor
  case treeShaped => exact treeShaped_copyInstance h hid hparent name
  case size_le => omega
  case roots =>
    rw [forest_copyInstance]
    cases parent with
    | none => exact Forest.roots_rename ..
    | some above => exact (Forest.roots_attach ..).trans (Forest.roots_rename ..)
  case get? =>
    intro other hother _
    rw [get?_copyInstance h hid, if_neg hother.ne', Forest.get?, hkept other hother, Forest.get?]
  case origins =>
    refine fun other hother => get?_copyOrigins_of_not_mem fun hmem => ?_
    obtain ⟨p, hp, rfl⟩ := List.mem_map.1 hmem
    exact Nat.not_le_of_lt hother (h.le_snd_of_mem_pairs hid hp)
  case parent? =>
    intro other hother
    rw [parent?_copyInstance h hid hparent, if_neg hother.ne', Forest.parent?, hkept other hother,
      Forest.parent?]
  case children =>
    intro other hother
    rw [children_copyInstance h hparent, Forest.children, hkept other hother, Forest.children]
  case fresh =>
    intro c hc
    rw [List.mem_singleton.1 hc, hsize]
    exact ⟨le_rfl, hlt⟩
  case nodup => exact List.nodup_singleton _
  case parents =>
    intro c hc
    rw [List.mem_singleton.1 hc, parent?_copyInstance h hid hparent, if_pos rfl]
  case counts => exact fun _ _ => rfl
  case declared => rfl
  case diagnostics => rfl
  case inferred => rfl
  case extraRoots =>
    rw [extraRoots_copyInstance]
    cases parent with
    | none => rw [if_pos rfl]
    | some above => rw [if_neg (Option.some_ne_none above)]

/-- A copy spans what the instance spans, under its own name. -/
theorem spans_copyInstance {d : Draft} {ts : List (Tree Draft)} (name : String)
    (hfresh : ∀ other, s.forest.nodes.size ≤ other → fixed other)
    (hbody : s.forest.get? id = some d.body) (hsite : s.origins.get? id = some d.site)
    (hbelow : List.Forall₂ (s.forest.Spans (s.Settled fixed)) (s.forest.children id) ts) :
    (s.copyInstance id parent name).forest.Spans ((s.copyInstance id parent name).Settled fixed)
      s.forest.nodes.size (.node (d.rename name) ts) := by
  have hfirst := h.first_mem_pairs hid
  have horigins : ∀ p ∈ (s.forest.replicate id).2, ∀ site, s.origins.get? p.1 = some site →
      (s.copyInstance id parent name).origins.get? p.2 = some site := by
    intro p hp site hsite
    refine get?_copyOrigins_of_mem ?_ (fun q hq hmem => ?_) hp hsite
    · exact h.map_snd_pairs hid ▸ List.nodup_range'
    · obtain ⟨r, hr, heq⟩ := List.mem_map.1 hmem
      have := h.fst_lt_of_mem_pairs hid hq
      have := h.le_snd_of_mem_pairs hid hr
      omega
  -- The children of a copy are copies of the children, and none of them is the first copy.
  have hchildren : ∀ p ∈ (s.forest.replicate id).2,
      List.Forall₂ (fun child copy => (child, copy) ∈ (s.forest.replicate id).2 ∧
        copy ≠ s.forest.nodes.size) (s.forest.children p.1)
        ((s.copyInstance id parent name).forest.children p.2) := by
    intro p hp
    have hnot : parent ≠ some p.2 := fun heq =>
      Nat.not_le_of_lt (lt_of_parent h hparent heq) (h.le_snd_of_mem_pairs hid hp)
    rw [children_copyInstance h hparent, if_neg hnot]
    refine forall₂_and_right (h.forall₂_children_replicate hid hp) fun child hchild heq => ?_
    have hbelow := (h.replicate_treeShaped hid).hasParent_iff.2 hchild
    rw [Forest.HasParent, heq, (h.free_replicate hid).parent?] at hbelow
    exact absurd hbelow.symm (Option.some_ne_none _)
  refine Forest.spans_iff.2 ⟨⟨⟨?_, horigins _ hfirst _ hsite⟩, hfresh _ le_rfl⟩, ?_⟩
  · rw [get?_copyInstance h hid, if_pos rfl, hbody]
    rfl
  · refine forall₂_of_common (hchildren _ hfirst) hbelow fun child copy t _ hcopy hspans => ?_
    refine hspans.carry (Q := fun i j => (i, j) ∈ (s.forest.replicate id).2 ∧
      j ≠ s.forest.nodes.size) ?_ hcopy
    rintro i j a ⟨hmem, hne⟩ hsettled
    refine ⟨⟨⟨?_, horigins _ hmem _ hsettled.site⟩, hfresh j (h.le_snd_of_mem_pairs hid hmem)⟩,
      hchildren _ hmem⟩
    rw [get?_copyInstance h hid, if_neg hne.symm]
    exact (h.get?_replicate hid hmem).trans hsettled.body

end One

/-! ### Copies one after the other -/

theorem Copies.refl (h : s.forest.TreeShaped) (kept : Nat → Prop) (parent : Option Nat) :
    Copies s s kept parent [] where
  treeShaped := h
  size_le := le_rfl
  roots := rfl
  get? _ _ _ := rfl
  origins _ _ := rfl
  parent? _ _ := rfl
  children _ _ := by rw [List.append_nil, ite_self]
  fresh c hc := absurd hc List.not_mem_nil
  nodup := List.nodup_nil
  parents c hc := absurd hc List.not_mem_nil
  counts _ _ := rfl
  declared := rfl
  diagnostics := rfl
  inferred := (List.append_nil _).symm
  extraRoots := by rw [List.append_nil, ite_self]

theorem Copies.trans {cs cs' : List Nat} (h : Copies s s' kept parent cs)
    (h' : Copies s' s'' kept parent cs') : Copies s s'' kept parent (cs ++ cs') where
  treeShaped := h'.treeShaped
  size_le := h.size_le.trans h'.size_le
  roots := h'.roots.trans h.roots
  get? id hid hkept := (h'.get? id (hid.trans_le h.size_le) hkept).trans (h.get? id hid hkept)
  origins id hid := (h'.origins id (hid.trans_le h.size_le)).trans (h.origins id hid)
  parent? id hid := (h'.parent? id (hid.trans_le h.size_le)).trans (h.parent? id hid)
  children id hid := by
    rw [h'.children id (hid.trans_le h.size_le), h.children id hid]
    split
    · rw [List.append_assoc]
    · rfl
  fresh c hc := by
    rcases List.mem_append.1 hc with hc | hc
    · exact ⟨(h.fresh c hc).1, (h.fresh c hc).2.trans_le h'.size_le⟩
    · exact ⟨h.size_le.trans (h'.fresh c hc).1, (h'.fresh c hc).2⟩
  nodup := by
    refine List.nodup_append'.2 ⟨h.nodup, h'.nodup, fun c hc hc' => ?_⟩
    exact Nat.not_le_of_lt (h.fresh c hc).2 (h'.fresh c hc').1
  parents c hc := by
    rcases List.mem_append.1 hc with hc | hc
    · exact (h'.parent? c (h.fresh c hc).2).trans (h.parents c hc)
    · exact h'.parents c hc
  counts id hkept := (h'.counts id hkept).trans (h.counts id hkept)
  declared := h'.declared.trans h.declared
  diagnostics := h'.diagnostics.trans h.diagnostics
  inferred := by rw [h'.inferred, h.inferred, List.append_assoc]
  extraRoots := by
    rw [h'.extraRoots, h.extraRoots]
    split
    · rw [List.append_assoc]
    · rfl

section Kept

variable {cs : List Nat} (h : Copies s s' kept parent cs) (hkept : ∀ i, fixed i → kept i)

include h hkept

/-- What is settled stays so while copies are made. -/
theorem Copies.settled {d : Draft} (hd : s.Settled fixed id d) : s'.Settled fixed id d := by
  obtain ⟨n, hn, -⟩ := Option.map_eq_some_iff.1 hd.body
  have hid := Forest.lt_of_node? hn
  exact ⟨⟨(h.get? id hid (hkept id hd.fixed)).trans hd.body, (h.origins id hid).trans hd.site⟩,
    hd.fixed⟩

/-- So does what is settled below an instance, if copies are attached to an instance that is not
    settled. -/
theorem Copies.spans {t : Tree Draft} (hopen : ∀ above, parent = some above → ¬fixed above)
    (hspans : s.forest.Spans (s.Settled fixed) id t) :
    s'.forest.Spans (s'.Settled fixed) id t := by
  refine hspans.mono fun i d hd => ⟨h.settled hkept hd, ?_⟩
  obtain ⟨n, hn, -⟩ := Option.map_eq_some_iff.1 hd.body
  rw [h.children i (Forest.lt_of_node? hn), if_neg fun heq => hopen i heq hd.fixed]

end Kept

/-- All copies of an instance span what the instance spans, each under its own name. -/
theorem exists_copies {d : Draft} {ts : List (Tree Draft)} (h : s.forest.TreeShaped)
    (hid : id < s.forest.nodes.size) (hparent : s.forest.parent? id = parent)
    (hfresh : ∀ other, s.forest.nodes.size ≤ other → fixed other)
    (hopen : ∀ above, parent = some above → ¬fixed above)
    (hbody : s.forest.get? id = some d.body) (hsite : s.origins.get? id = some d.site)
    (hbelow : List.Forall₂ (s.forest.Spans (s.Settled fixed)) (s.forest.children id) ts)
    (name : Nat → String) (numbers : List Nat) :
    ∃ cs, Copies s (numbers.foldl (fun s' n => copyInstance s' id parent (name n)) s)
        (fun _ => True) parent cs ∧
      List.Forall₂ (fun c n =>
        (numbers.foldl (fun s' n => copyInstance s' id parent (name n)) s).forest.Spans
          (InstanceBuilder.Settled (numbers.foldl (fun s' n => copyInstance s' id parent (name n))
            s).toInstanceBuilder fixed) c (.node (d.rename (name n)) ts)) cs numbers := by
  induction numbers generalizing s with
  | nil => exact ⟨[], .refl h _ parent, .nil⟩
  | cons n numbers ih =>
    have hcopy : Copies s (s.copyInstance id parent (name n)) (fun _ => True) parent
        [s.forest.nodes.size] := copies_copyInstance h hid hparent (name n)
    have hspans := spans_copyInstance h hid hparent (name n) hfresh hbody hsite hbelow
    have hself : parent ≠ some id := fun heq => h.acyclic id (.single (hparent.trans heq))
    have hchildren : (s.copyInstance id parent (name n)).forest.children id =
        s.forest.children id := by
      rw [hcopy.children id hid, if_neg hself]
    have hkept : ∀ i, fixed i → True := fun _ _ => trivial
    obtain ⟨cs, hcopies, hall⟩ := ih hcopy.treeShaped (hid.trans_le hcopy.size_le)
      ((hcopy.parent? id hid).trans hparent) (fun other hother => hfresh other
        (hcopy.size_le.trans hother)) ((hcopy.get? id hid trivial).trans hbody)
      ((hcopy.origins id hid).trans hsite)
      (hchildren ▸ hbelow.imp fun _ _ hspans => hcopy.spans hkept hopen hspans)
    exact ⟨s.forest.nodes.size :: cs, hcopy.trans hcopies,
      .cons (hcopies.spans hkept hopen hspans) hall⟩

end Replication

end Deployment

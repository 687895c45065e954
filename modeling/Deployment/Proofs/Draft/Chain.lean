import Deployment.Proofs.Block.Instances
import Deployment.Proofs.Draft.Expansion

/-!
# Chains of declarations

A *chain* goes down through nested declarations of instances, from one that stands at the top
level of some blocks, and picks a copy of each on the way. The chains are what the expansion of
the drafts of the blocks amounts to: its lineages are the chains, read off draft by draft.

* `ofBlocks_eq_map`: the drafts of some blocks are those of the declarations among them;
* `Chain`: the chains, for any way to count the copies of a declaration;
* `mem_lineagesAll_iff_chain`: the lineages of the expanded drafts are the chains;
* `Chain.ext`: a chain is determined by its picks.
-/

namespace Deployment

open Deployment.Tree Draft

/-! ### Drafts of declarations -/

namespace Draft

mutual

/-- The draft of a block that declares an instance, with those of what is declared inside. -/
def ofBlock : Block → List (Tree Draft)
  | .declaration site .instanceOf component inner =>
    [.node (read ⟨site, component, inner⟩) (ofBlocks inner)]
  | .declaration _ .component _ _ => []
  | .declaration _ .facet _ _ => []
  | .importOf .. => []
  | .property .. => []
  | .comment .. => []
  | .blank .. => []

/-- The drafts among some blocks. -/
def ofBlocks : List Block → List (Tree Draft)
  | [] => []
  | b :: bs => ofBlock b ++ ofBlocks bs

end

end Draft

/-- The draft of a sound declaration asks for the copies that the declaration asks for. -/
theorem InstanceDeclaration.draft_count {b : InstanceDeclaration} (h : b.Sound) :
    b.draft.count = b.copies := by
  rw [Draft.count, draft_countText h, copies]
  cases hvalue : Block.lookup b.inner "count" with
  | none => rfl
  | some value =>
    rw [Option.map_some, Option.map_some, Option.bind_some, Draft.countOf,
      parseCount_unquote (h.count value hvalue)]
    rfl

theorem Draft.ofBlocks_eq_map (blocks : List Block) :
    ofBlocks blocks = (Block.instances blocks).map fun b => .node b.draft (ofBlocks b.inner) := by
  induction blocks with
  | nil => rfl
  | cons b bs ih =>
    rw [ofBlocks, ih]
    cases b with
    | declaration site kind name inner => cases kind <;> rfl
    | importOf | property | comment | blank => rfl

theorem Draft.ofBlocks_append (bs cs : List Block) :
    ofBlocks (bs ++ cs) = ofBlocks bs ++ ofBlocks cs := by
  induction bs with
  | nil => rfl
  | cons b bs ih => rw [List.cons_append, ofBlocks, ofBlocks, ih, List.append_assoc]

/-- Every draft on a lineage is that of a declaration at some depth. -/
theorem Draft.exists_declaration {blocks : List Block} {l : List Draft}
    (hl : l ∈ lineagesAll (ofBlocks blocks)) {d : Draft} (hd : d ∈ l) :
    ∃ b, Block.Within blocks b ∧ d = b.draft := by
  induction l generalizing blocks with
  | nil => exact nomatch hd
  | cons e l ih =>
    obtain ⟨t, ht, hl⟩ := mem_lineagesAll_iff.1 hl
    rw [ofBlocks_eq_map] at ht
    obtain ⟨b, hb, rfl⟩ := List.mem_map.1 ht
    rcases hl with hl | ⟨l', hl', hl⟩
    · cases hl
      exact ⟨b, .here hb, List.mem_singleton.1 hd⟩
    · cases hl
      rcases List.mem_cons.1 hd with rfl | hd
      · exact ⟨b, .here hb, rfl⟩
      · obtain ⟨c, hc, rfl⟩ := ih hl' hd
        exact ⟨c, .inside hb hc, rfl⟩

/-- Every declaration has its draft among those of the blocks. -/
theorem Draft.mem_preorders_ofBlocks {blocks : List Block} {b : InstanceDeclaration}
    (h : Block.Within blocks b) : b.draft ∈ preorders (ofBlocks blocks) := by
  induction h with
  | here hb =>
    rw [ofBlocks_eq_map, preorders_eq_flatMap, List.flatMap_map]
    exact List.mem_flatMap.2 ⟨_, hb, List.mem_cons_self⟩
  | inside hb _ ih =>
    rw [ofBlocks_eq_map, preorders_eq_flatMap, List.flatMap_map]
    exact List.mem_flatMap.2 ⟨_, hb, List.mem_cons_of_mem _ ih⟩

/-! ### Chains -/

variable {copies : InstanceDeclaration → Nat} {blocks : List Block}

/-- A pick of one of the declarations among some blocks, and of one of its copies. -/
structure Picks (copies : InstanceDeclaration → Nat) (blocks : List Block) (pick : Pick)
    (b : InstanceDeclaration) : Prop where
  /-- The declaration stands at the position. -/
  declared : (Block.instances blocks)[pick.position]? = some b
  /-- Copies are numbered from 1. -/
  one_le : 1 ≤ pick.copy
  /-- There are no more copies than are asked for. -/
  le_copies : pick.copy ≤ copies b

/-- Declarations each inside the one before, the first one among some blocks, with a copy of
    each. -/
inductive Chain (copies : InstanceDeclaration → Nat) :
    List Block → List (Pick × InstanceDeclaration) → Prop
  | last {blocks : List Block} {pick : Pick} {b : InstanceDeclaration} :
      Picks copies blocks pick b → Chain copies blocks [(pick, b)]
  | step {blocks : List Block} {pick : Pick} {b : InstanceDeclaration}
      {l : List (Pick × InstanceDeclaration)} :
      Picks copies blocks pick b → Chain copies b.inner l → Chain copies blocks ((pick, b) :: l)

namespace Chain

/-- A chain begins with a pick and goes on, if it does, inside the declaration picked. -/
theorem cons_iff {pick : Pick} {b : InstanceDeclaration} {l : List (Pick × InstanceDeclaration)} :
    Chain copies blocks ((pick, b) :: l) ↔
      Picks copies blocks pick b ∧ (l = [] ∨ Chain copies b.inner l) := by
  constructor
  · intro h
    cases h with
    | last hpick => exact ⟨hpick, .inl rfl⟩
    | step hpick hrest => exact ⟨hpick, .inr hrest⟩
  · rintro ⟨hpick, rfl | hrest⟩
    · exact .last hpick
    · exact .step hpick hrest

theorem ne_nil {l : List (Pick × InstanceDeclaration)} (h : Chain copies blocks l) : l ≠ [] := by
  cases h with
  | last => exact List.cons_ne_nil _ _
  | step => exact List.cons_ne_nil _ _

/-- A chain consists of declarations among the blocks, at some depth. -/
theorem within {l : List (Pick × InstanceDeclaration)} (h : Chain copies blocks l)
    {q : Pick × InstanceDeclaration} (hq : q ∈ l) : Block.Within blocks q.2 := by
  induction h with
  | last hpick =>
    obtain rfl := List.mem_singleton.1 hq
    exact .here (List.mem_of_getElem? hpick.declared)
  | step hpick _ ih =>
    rcases List.mem_cons.1 hq with rfl | hq
    · exact .here (List.mem_of_getElem? hpick.declared)
    · exact .inside (List.mem_of_getElem? hpick.declared) (ih hq)

/-- Two chains with the same picks are the same. -/
theorem ext {l m : List (Pick × InstanceDeclaration)} (hl : Chain copies blocks l)
    (hm : Chain copies blocks m) (h : l.map Prod.fst = m.map Prod.fst) : l = m := by
  induction l generalizing blocks m with
  | nil => exact absurd rfl hl.ne_nil
  | cons q l ih =>
    obtain ⟨pick, b⟩ := q
    obtain ⟨⟨pick', c⟩, m, rfl⟩ := List.exists_cons_of_ne_nil hm.ne_nil
    obtain ⟨hpick, hrest⟩ := cons_iff.1 hl
    obtain ⟨hpick', hrest'⟩ := cons_iff.1 hm
    rw [List.map_cons, List.map_cons, List.cons.injEq] at h
    obtain ⟨hfst, htail⟩ := h
    dsimp only at hfst
    subst hfst
    obtain rfl : b = c := Option.some.inj (hpick.declared.symm.trans hpick'.declared)
    rcases hrest with rfl | hrest
    · rw [List.map_nil, eq_comm, List.map_eq_nil_iff] at htail
      rw [htail]
    · rcases hrest' with rfl | hrest'
      · rw [List.map_nil, List.map_eq_nil_iff] at htail
        exact absurd htail hrest.ne_nil
      · rw [ih hrest hrest' htail]

/-- Only the copies of the declarations at hand matter. -/
theorem mono {copies' : InstanceDeclaration → Nat} {l : List (Pick × InstanceDeclaration)}
    (h : Chain copies blocks l) (heq : ∀ b, Block.Within blocks b → copies b = copies' b) :
    Chain copies' blocks l := by
  induction h with
  | last hpick =>
    have hb := heq _ (.here (List.mem_of_getElem? hpick.declared))
    exact .last ⟨hpick.declared, hpick.one_le, hb ▸ hpick.le_copies⟩
  | step hpick _ ih =>
    have hmem := List.mem_of_getElem? hpick.declared
    have hb := heq _ (.here hmem)
    exact .step ⟨hpick.declared, hpick.one_le, hb ▸ hpick.le_copies⟩
      (ih fun c hc => heq c (.inside hmem hc))

end Chain

/-! ### Chains and lineages -/

variable (change : Draft → Draft)

/-- The number of copies that the changed draft of a declaration asks for. -/
def copiesOf (b : InstanceDeclaration) : Nat := max 1 (change b.draft).count

/-- The changed draft of a declaration, under the name of a copy. -/
def copyOf (q : Pick × InstanceDeclaration) : Pick × Draft :=
  (q.1, (change q.2.draft).rename ((change q.2.draft).nameOf q.1.copy))

theorem getElem?_map_ofBlocks (blocks : List Block) (p : Nat) :
    ((ofBlocks blocks).map (Tree.map change))[p]? = ((Block.instances blocks)[p]?).map fun b =>
      .node (change b.draft) ((ofBlocks b.inner).map (Tree.map change)) := by
  rw [ofBlocks_eq_map, List.map_map, List.getElem?_map]
  refine congrArg (Option.map · _) (funext fun b => ?_)
  exact map_node ..

/-- The trees that the changed drafts of some blocks stand for, with their picks. -/
def pickedTrees (blocks : List Block) : List (Tree (Pick × Draft)) :=
  arrangeRoots (pickedAll 0 ((ofBlocks blocks).map (Tree.map change)))

/-- A lineage picks a copy of one of the declarations and goes on inside it. -/
theorem cons_mem_lineagesAll_iff {q : Pick × Draft} {l : List (Pick × Draft)} :
    q :: l ∈ lineagesAll (pickedTrees change blocks) ↔
      ∃ b, Picks (copiesOf change) blocks q.1 b ∧ q = copyOf change (q.1, b) ∧
        (l = [] ∨ l ∈ lineagesAll (pickedTrees change b.inner)) := by
  have hperm : ∀ (blocks : List Block) (m : List (Pick × Draft)),
      m ∈ lineagesAll (pickedTrees change blocks) ↔
        m ∈ lineagesAll (pickedAll 0 ((ofBlocks blocks).map (Tree.map change))).flatten :=
    fun _ _ => (lineagesAll_perm (arrangeRoots_perm _)).mem_iff
  rw [hperm, mem_lineagesAll_pickedAll]
  constructor
  · rintro ⟨p, t, i, ht, hi, l', hl', heq⟩
    obtain ⟨rfl, rfl⟩ := List.cons.inj heq
    rw [getElem?_map_ofBlocks, Option.map_eq_some_iff] at ht
    obtain ⟨b, hb, rfl⟩ := ht
    exact ⟨b, ⟨hb, Nat.succ_pos i, hi⟩, rfl, hl'.imp_right (hperm _ _).2⟩
  · rintro ⟨b, hpick, hq, hl⟩
    obtain ⟨i, hi⟩ := Nat.exists_eq_succ_of_ne_zero (Nat.ne_of_gt hpick.one_le)
    have ht := getElem?_map_ofBlocks change blocks q.1.position
    rw [hpick.declared, Option.map_some] at ht
    refine ⟨q.1.position, _, i, ht, ?_, l, hl.imp_right (hperm _ _).1, ?_⟩
    · exact Nat.succ_le_iff.1 (hi ▸ hpick.le_copies)
    · -- The pick is made of its position and of its copy.
      rw [← Nat.succ_eq_add_one, ← hi]
      exact congrArg (· :: l) hq

/-- The lineages of the expansion of drafts are the chains, draft by draft. -/
theorem mem_lineagesAll_iff_chain {l : List (Pick × Draft)} :
    l ∈ lineagesAll (pickedTrees change blocks) ↔
      ∃ c, Chain (copiesOf change) blocks c ∧ c.map (copyOf change) = l := by
  constructor
  · intro h
    -- The lineage goes down one declaration after the other.
    induction l generalizing blocks with
    | nil => exact absurd rfl (ne_nil_of_mem_lineagesAll h)
    | cons q l ih =>
      obtain ⟨b, hpick, hq, hrest⟩ := (cons_mem_lineagesAll_iff change).1 h
      rcases hrest with rfl | hrest
      · exact ⟨[(q.1, b)], .last hpick, by rw [List.map_singleton, ← hq]⟩
      · obtain ⟨c, hc, rfl⟩ := ih hrest
        exact ⟨(q.1, b) :: c, .step hpick hc, by rw [List.map_cons, ← hq]⟩
  · rintro ⟨c, hc, rfl⟩
    induction hc with
    | @last blocks pick b hpick =>
      exact (cons_mem_lineagesAll_iff change).2 ⟨b, hpick, rfl, .inl rfl⟩
    | @step blocks pick b l hpick _ ih =>
      exact (cons_mem_lineagesAll_iff change).2 ⟨b, hpick, rfl, .inr ih⟩

/-- Without their picks, these are the trees that the drafts stand for. -/
theorem map_snd_pickedTrees (blocks : List Block) :
    (pickedTrees change blocks).map (Tree.map Prod.snd) =
      expandRoots ((ofBlocks blocks).map (Tree.map change)) := by
  rw [pickedTrees, ← arrangeRoots_map, map_snd_pickedAll]
  rfl

/-- No two lineages have the same picks. -/
theorem nodup_picks_pickedTrees (blocks : List Block) :
    ((lineagesAll (pickedTrees change blocks)).map (List.map Prod.fst)).Nodup :=
  nodup_lineagesAll_iff.2 ((distinctAll_perm (arrangeRoots_perm _)).2 (distinctAll_pickedAll _))

end Deployment

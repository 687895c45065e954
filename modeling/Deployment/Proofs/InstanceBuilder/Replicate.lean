import Deployment.Proofs.Forest.Upwards
import Deployment.Proofs.InstanceBuilder.Build
import Deployment.Proofs.InstanceBuilder.Copies
import Deployment.Proofs.Table
import Mathlib.Data.List.Flatten

/-!
# Copies of all instances

Instances are gone through from the deepest to the root. When the turn of an instance comes, all
below it is settled, copies included, and nothing above it has been touched; so its copies come out
as its draft with what is drafted below says (`exists_multiplies`). In between, the forest is partly
copied: instances that had their turn span all the trees that their drafts stand for, the others are
as they were read, and the children of an instance are followed by the copies of those that had
their turn (`Replicated`).

* `Replicated.step`, `Replicated.run`: the turn of one instance, and of all that are left;
* `Expanded`, `Built.exists_expanded`: the forest when all had their turn and the copies of roots
  have become roots.
-/

namespace Deployment

open Deployment.Tree Draft InstanceBuilder

namespace Replication

variable {s r : Replication} {fixed : Nat → Prop} {id other : Nat} {parent : Option Nat} {d : Draft}
  {cs : List Nat} {t : Tree Draft} {ts : List (Tree Draft)}

/-! ### The turn of one instance -/

/-- With its copies made, an instance gets a name as the first of them, and asks for none any
    more. -/
theorem Copies.renamed (name : String)
    (h : Copies { s with counts := s.counts.erase id } r (fun _ => True) parent cs) :
    Copies s { r with forest := r.forest.rename id name } (· ≠ id) parent cs where
  treeShaped := h.treeShaped.rename id name
  size_le := h.size_le.trans_eq (Forest.size_rename ..).symm
  roots := h.roots
  get? other hother hne := by
    rw [Forest.get?_rename, if_neg hne.symm]
    exact h.get? other hother trivial
  origins := h.origins
  parent? other hother := (Forest.parent?_rename ..).trans (h.parent? other hother)
  children other hother := (Forest.children_rename ..).trans (h.children other hother)
  fresh c hc := ⟨(h.fresh c hc).1, (h.fresh c hc).2.trans_eq (Forest.size_rename ..).symm⟩
  nodup := h.nodup
  parents c hc := (Forest.parent?_rename ..).trans (h.parents c hc)
  counts other hne := (h.counts other trivial).trans (Table.get?_erase_of_ne _ hne)
  declared := h.declared
  diagnostics := h.diagnostics
  inferred := h.inferred
  extraRoots := h.extraRoots

/-- What is settled below other instances stays so under the new name. -/
theorem spans_renamed (name : String) (hid : ¬fixed id)
    (h : r.forest.Spans (r.Settled fixed) other t) :
    (r.forest.rename id name).Spans
      (Settled { r.toInstanceBuilder with forest := r.forest.rename id name }
        fun j => fixed j ∨ j = id) other t := by
  refine h.mono fun j d hd => ⟨⟨⟨?_, hd.site⟩, .inl hd.fixed⟩, Forest.children_rename ..⟩
  have hne : id ≠ j := fun heq => hid (heq ▸ hd.fixed)
  exact (Forest.get?_rename ..).trans ((if_neg hne).trans hd.body)

/-- An instance of which there is one copy only stays as it is. -/
theorem replicateInstance_of_le (hreads : s.Reads id d) (hcount : d.count ≤ 1) :
    ∃ counts : Table Nat String, (∀ other ≠ id, counts.get? other = s.counts.get? other) ∧
      s.replicateInstance id = { s with counts } := by
  rw [replicateInstance, hreads.countText]
  cases htext : d.countText with
  | none => exact ⟨s.counts, fun _ _ => rfl, rfl⟩
  | some text =>
    rw [count, htext, Option.map_some, Option.getD_some] at hcount
    dsimp only
    rw [if_pos hcount]
    exact ⟨s.counts.erase id, fun other hne => Table.get?_erase_of_ne _ hne, rfl⟩

/-- The further copies of an instance. -/
def copyFurther (s : Replication) (id : Nat) (d : Draft) : Replication :=
  (List.range' 2 (d.count - 1)).foldl
    (fun s' n => copyInstance s' id (s.forest.parent? id) (d.nameOf n))
    { s with counts := s.counts.erase id }

theorem replicateInstance_of_lt (hreads : s.Reads id d) (hcount : 1 < d.count) :
    s.replicateInstance id = { s.copyFurther id d with
      forest := (s.copyFurther id d).forest.rename id (d.nameOf 1) } := by
  have hname : ∀ n, ((s.forest.get? id).map (·.name)).getD "" ++
      Text.padded (Text.width d.count) n = d.nameOf n := by
    intro n
    rw [nameOf, if_neg (Nat.not_le_of_lt hcount), hreads.body]
    rfl
  obtain ⟨text, htext⟩ : ∃ text, d.countText = some text := by
    rw [← Option.isSome_iff_exists, Option.isSome_iff_ne_none]
    intro hnone
    rw [count, hnone] at hcount
    exact Nat.lt_irrefl _ hcount
  have hcountOf : countOf text = d.count := by
    rw [count, htext, Option.map_some, Option.getD_some]
  rw [replicateInstance, hreads.countText, htext]
  dsimp only
  rw [hcountOf, if_neg (Nat.not_le_of_lt hcount), copyFurther]
  simp only [hname]

/-- An instance below which all is settled gets its copies, which span what its draft stands for
    together with it. -/
theorem exists_multiplies (h : s.forest.TreeShaped) (hreads : s.Reads id d)
    (hfresh : ∀ other, s.forest.nodes.size ≤ other → fixed other)
    (hopen : ∀ above, s.forest.parent? id = some above → ¬fixed above) (hid : ¬fixed id)
    (hbelow : List.Forall₂ (s.forest.Spans (s.Settled fixed)) (s.forest.children id) ts) :
    ∃ cs, Copies s (s.replicateInstance id) (· ≠ id) (s.forest.parent? id) cs ∧
      List.Forall₂ ((s.replicateInstance id).forest.Spans
        ((s.replicateInstance id).Settled fun j => fixed j ∨ j = id)) (id :: cs)
        (d.names.map fun name => .node (d.rename name) ts) := by
  have hself : s.forest.parent? id ≠ some id := fun heq => h.acyclic id (.single heq)
  -- What instances ask for does not matter to what is settled.
  have hkept : ∀ counts : Table Nat String, List.Forall₂
      (s.forest.Spans (Settled { s.toInstanceBuilder with counts } fixed))
      (s.forest.children id) ts := fun counts =>
    hbelow.imp fun _ _ hspans => hspans.mono fun i d hd => ⟨⟨⟨hd.body, hd.site⟩, hd.fixed⟩, rfl⟩
  rcases Nat.lt_or_ge 1 d.count with hcount | hcount
  · obtain ⟨cs, hcopies, hspans⟩ := exists_copies (s := { s with counts := s.counts.erase id }) h
      hreads.lt rfl hfresh hopen hreads.body hreads.site (hkept _) d.nameOf
      (List.range' 2 (d.count - 1))
    change Copies _ (s.copyFurther id d) _ _ cs at hcopies
    change List.Forall₂ (fun c n => (s.copyFurther id d).forest.Spans
      ((s.copyFurther id d).Settled fixed) c (.node (d.rename (d.nameOf n)) ts)) cs _ at hspans
    rw [replicateInstance_of_lt hreads hcount, names_of_lt d hcount, List.map_cons, List.map_map]
    refine ⟨cs, hcopies.renamed _, .cons (Forest.spans_iff.2 ⟨⟨⟨?_, ?_⟩, .inr rfl⟩, ?_⟩) ?_⟩
    · rw [Forest.get?_rename, if_pos rfl, hcopies.get? id hreads.lt trivial]
      exact congrArg _ hreads.body
    · exact (hcopies.origins id hreads.lt).trans hreads.site
    · rw [Forest.children_rename, hcopies.children id hreads.lt, if_neg hself]
      exact (hkept _).imp fun _ _ hspans =>
        spans_renamed _ hid (hcopies.spans (fun _ _ => trivial) hopen hspans)
    · exact List.forall₂_map_right_iff.2 (hspans.imp fun _ _ hspans => spans_renamed _ hid hspans)
  · obtain ⟨counts, hcounts, heq⟩ := replicateInstance_of_le hreads hcount
    rw [heq, names_of_le d hcount]
    refine ⟨[], ?_, .cons (Forest.spans_iff.2 ⟨⟨⟨hreads.body, hreads.site⟩, .inr rfl⟩, ?_⟩) .nil⟩
    · have hrefl := Copies.refl h (· ≠ id) (s.forest.parent? id)
      exact { hrefl with counts := hcounts }
    · exact (hkept counts).imp fun _ _ hspans =>
        hspans.mono fun i d hd => ⟨⟨hd.toHolds, .inl hd.fixed⟩, rfl⟩

/-! ### A forest partly copied -/

/-- What has been settled when some instances have had their turn: those themselves, and all
    copies. -/
def Fixed (s₀ : InstanceBuilder) (done : List Nat) (id : Nat) : Prop :=
  s₀.forest.nodes.size ≤ id ∨ id ∈ done

/-- Some instances have had their turn, in order, and have got copies. -/
structure Replicated (s₀ : InstanceBuilder) (done : List Nat) (copies : Nat → List Nat)
    (s : Replication) : Prop where
  treeShaped : s.forest.TreeShaped
  size_le : s₀.forest.nodes.size ≤ s.forest.nodes.size
  roots : s.forest.roots = s₀.forest.roots
  parent? : ∀ id < s₀.forest.nodes.size, s.forest.parent? id = s₀.forest.parent? id
  children : ∀ id < s₀.forest.nodes.size, s.forest.children id =
    s₀.forest.children id ++ (done.filter (· ∈ s₀.forest.children id)).flatMap copies
  reads : ∀ id ∉ done, ∀ d, s₀.Reads id d → s.Reads id d
  spans : ∀ id ∈ done, ∀ t, s₀.forest.Spans s₀.Reads id t →
    List.Forall₂ (s.forest.Spans (s.Settled (Fixed s₀ done))) (id :: copies id) (expand t)
  fresh : ∀ id ∈ done, ∀ c ∈ copies id, s₀.forest.nodes.size ≤ c ∧ c < s.forest.nodes.size
  parents : ∀ id ∈ done, ∀ c ∈ copies id, s.forest.parent? c = s₀.forest.parent? id
  nodup : (done.flatMap copies).Nodup
  declared : s.declared = s₀.declared
  diagnostics : s.diagnostics = s₀.diagnostics
  inferred : s.inferred = done.flatMap copies
  extraRoots : s.extraRoots = (done.filter (· ∈ s₀.forest.roots)).flatMap copies

theorem replicated_start {s₀ : InstanceBuilder} (h : s₀.forest.TreeShaped) :
    Replicated s₀ [] (fun _ => []) ⟨s₀, [], []⟩ where
  treeShaped := h
  size_le := le_rfl
  roots := rfl
  parent? _ _ := rfl
  children _ _ := (List.append_nil _).symm
  reads _ _ _ hd := ⟨hd.body, hd.site, hd.countText⟩
  spans _ hid := absurd hid List.not_mem_nil
  fresh _ hid := absurd hid List.not_mem_nil
  parents _ hid := absurd hid List.not_mem_nil
  nodup := List.nodup_nil
  declared := rfl
  diagnostics := rfl
  inferred := rfl
  extraRoots := rfl

section Step

variable {s₀ : InstanceBuilder} {done : List Nat} {copies : Nat → List Nat}

/-- When the turn of an instance comes, what is below it is settled: its children and their copies
    span the trees that are drafted below it. -/
theorem Replicated.forall₂_children (h : Replicated s₀ done copies s)
    (hturn : s₀.forest.Turn done id) (hid : id < s₀.forest.nodes.size)
    (hspans : List.Forall₂ (s₀.forest.Spans s₀.Reads) (s₀.forest.children id) ts) :
    List.Forall₂ (s.forest.Spans (s.Settled (Fixed s₀ done))) (s.forest.children id)
      (arrange (expandAll ts)) := by
  have hdone : ∀ child ∈ s₀.forest.children id, child ∈ done := fun child hchild =>
    (List.mem_filter.1 (hturn.children ▸ List.mem_reverse.2 hchild)).1
  have hcopies : List.Forall₂ (fun child l => List.Forall₂
      (s.forest.Spans (s.Settled (Fixed s₀ done))) (child :: copies child) l)
      (s₀.forest.children id) (expandAll ts) := by
    rw [expandAll_eq_map]
    refine List.forall₂_map_right_iff.2 ?_
    exact ((List.forall₂_and_left _ _).2 ⟨hdone, hspans⟩).imp fun child t hchild =>
      h.spans child hchild.1 t hchild.2
  have harranged := forall₂_arrange hcopies
  rwa [List.map_id', ← hturn.children, ← h.children id hid] at harranged

/-- What some instances have got, when one more has got its copies. -/
theorem flatMap_update (copies : Nat → List Nat) (p : Nat → Bool) (cs : List Nat)
    (hid : id ∉ done) :
    ((done ++ [id]).filter p).flatMap (Function.update copies id cs) =
      (done.filter p).flatMap copies ++ if p id then cs else [] := by
  have hbefore : (done.filter p).flatMap (Function.update copies id cs) =
      (done.filter p).flatMap copies := by
    refine List.flatMap_congr fun other hother => Function.update_of_ne ?_ _ _
    exact ne_of_mem_of_not_mem (List.mem_filter.1 hother).1 hid
  rw [List.filter_append, List.flatMap_append, hbefore, List.filter_cons, List.filter_nil]
  split
  · rw [List.flatMap_singleton, Function.update_self]
  · rfl

/-- What holds of all that had their turn, with what they have got, when it holds of one more. -/
theorem forall_update (P : Nat → List Nat → Prop) (hid : id ∉ done)
    (hbefore : ∀ other ∈ done, P other (copies other)) (hlast : P id cs) :
    ∀ other ∈ done ++ [id], P other (Function.update copies id cs other) := by
  refine List.forall_mem_append.2 ⟨fun other hother => ?_, List.forall_mem_singleton.2 ?_⟩
  · rw [Function.update_of_ne (ne_of_mem_of_not_mem hother hid)]
    exact hbefore other hother
  · rwa [Function.update_self]

/-- The turn of an instance: it gets its copies, which span what its draft stands for together with
    it, and what has been settled before stays settled. -/
theorem Replicated.exists_copies (h : Replicated s₀ done copies s) (h₀ : s₀.forest.TreeShaped)
    (hturn : s₀.forest.Turn done id) (hspans : s₀.forest.Spans s₀.Reads id t) :
    ∃ cs, Copies s (s.replicateInstance id) (· ≠ id) (s₀.forest.parent? id) cs ∧
      List.Forall₂ ((s.replicateInstance id).forest.Spans
        ((s.replicateInstance id).Settled (Fixed s₀ (done ++ [id])))) (id :: cs) (expand t) ∧
      ∀ i u, s.forest.Spans (s.Settled (Fixed s₀ done)) i u →
        (s.replicateInstance id).forest.Spans
          ((s.replicateInstance id).Settled (Fixed s₀ (done ++ [id]))) i u := by
  obtain ⟨d, ts⟩ := t
  obtain ⟨hreads, hbelow⟩ := Forest.spans_iff.1 hspans
  have hlt := hreads.lt
  have hparent := h.parent? id hlt
  have hopen : ∀ above, s.forest.parent? id = some above → ¬Fixed s₀ done above := by
    intro above habove hfixed
    have hchild := h₀.hasParent_iff.1 (hparent.symm.trans habove)
    rcases hfixed with hge | hdone
    · exact Nat.not_lt_of_le hge (Forest.lt_of_mem_children hchild)
    · exact hturn.above above hdone hchild
  have hnot : ¬Fixed s₀ done id := fun hfixed =>
    hfixed.elim (Nat.not_le_of_lt hlt) hturn.notMem
  obtain ⟨cs, hcopies, hnew⟩ := exists_multiplies h.treeShaped (h.reads id hturn.notMem d hreads)
    (fun other hother => .inl (h.size_le.trans hother)) hopen hnot
    (h.forall₂_children hturn hlt hbelow)
  refine ⟨cs, hparent ▸ hcopies, ?_, fun i u hu => ?_⟩
  · refine hnew.imp fun i u hu => hu.mono fun j d' hd' => ⟨⟨hd'.toHolds, ?_⟩, rfl⟩
    rcases hd'.fixed with hfixed | rfl
    · exact hfixed.imp_right (List.mem_append_left _)
    · exact .inr (List.mem_append_right _ List.mem_cons_self)
  · have hne : ∀ j, Fixed s₀ done j → j ≠ id := fun j hj heq => hnot (heq ▸ hj)
    refine (hcopies.spans hne hopen hu).mono fun j d' hd' => ⟨⟨hd'.toHolds, ?_⟩, rfl⟩
    exact hd'.fixed.imp_right (List.mem_append_left _)

/-- An instance that has had its turn gets its copies, and what others have got stays. -/
theorem Replicated.step (h : Replicated s₀ done copies s) (h₀ : s₀.forest.TreeShaped)
    (hall : id ∈ s₀.forest.all) (hturn : s₀.forest.Turn done id)
    (hspans : s₀.forest.Spans s₀.Reads id t) :
    ∃ cs, Replicated s₀ (done ++ [id]) (Function.update copies id cs)
      (s.replicateInstance id) := by
  obtain ⟨cs, hcopies, hnew, hkept⟩ := h.exists_copies h₀ hturn hspans
  have hflat : (done ++ [id]).flatMap (Function.update copies id cs) =
      done.flatMap copies ++ cs := by
    have hupdate := flatMap_update copies (fun _ => true) cs hturn.notMem
    rwa [List.filter_true, List.filter_true, if_pos rfl] at hupdate
  refine ⟨cs, ?_⟩
  constructor
  case treeShaped => exact hcopies.treeShaped
  case size_le => exact h.size_le.trans hcopies.size_le
  case roots => exact hcopies.roots.trans h.roots
  case parent? =>
    exact fun other hother =>
      (hcopies.parent? other (hother.trans_le h.size_le)).trans (h.parent? other hother)
  case children =>
    intro other hother
    have hiff : s₀.forest.parent? id = some other ↔ id ∈ s₀.forest.children other :=
      h₀.hasParent_iff
    rw [hcopies.children other (hother.trans_le h.size_le), h.children other hother,
      flatMap_update copies _ cs hturn.notMem, ← List.append_assoc]
    simp only [hiff, decide_eq_true_eq]
    split
    · rfl
    · rw [List.append_nil]
  case reads =>
    intro other hother d hd
    rw [List.mem_append, not_or, List.mem_singleton] at hother
    obtain ⟨hbody, hsite, hcount⟩ := h.reads other hother.1 d hd
    have hlt := hd.lt.trans_le h.size_le
    exact ⟨(hcopies.get? other hlt hother.2).trans hbody, (hcopies.origins other hlt).trans hsite,
      (hcopies.counts other hother.2).trans hcount⟩
  case spans =>
    refine forall_update (fun other l => ∀ t, s₀.forest.Spans s₀.Reads other t →
      List.Forall₂ _ (other :: l) (expand t)) hturn.notMem ?_ fun t' ht' => ?_
    · exact fun other hother t' ht' => (h.spans other hother t' ht').imp hkept
    · exact hspans.unique (fun _ _ _ hd hd' => hd.unique hd') ht' ▸ hnew
  case fresh =>
    refine forall_update (fun _ l => ∀ c ∈ l, _ ≤ c ∧ c < _) hturn.notMem ?_ fun c hc => ?_
    · exact fun other hother c hc =>
        (h.fresh other hother c hc).imp_right fun hlt => hlt.trans_le hcopies.size_le
    · exact (hcopies.fresh c hc).imp_left h.size_le.trans
  case parents =>
    refine forall_update (fun other l => ∀ c ∈ l, (s.replicateInstance id).forest.parent? c =
      s₀.forest.parent? other) hturn.notMem ?_ hcopies.parents
    exact fun other hother c hc =>
      (hcopies.parent? c (h.fresh other hother c hc).2).trans (h.parents other hother c hc)
  case nodup =>
    rw [hflat]
    refine List.nodup_append'.2 ⟨h.nodup, hcopies.nodup, fun c hc hc' => ?_⟩
    obtain ⟨other, hother, hc⟩ := List.mem_flatMap.1 hc
    exact Nat.not_le_of_lt (h.fresh other hother c hc).2 (hcopies.fresh c hc').1
  case declared => exact hcopies.declared.trans h.declared
  case diagnostics => exact hcopies.diagnostics.trans h.diagnostics
  case inferred => rw [hcopies.inferred, h.inferred, hflat]
  case extraRoots =>
    have hiff : s₀.forest.parent? id = none ↔ id ∈ s₀.forest.roots :=
      ⟨fun htop => (h₀.mem_all_iff_of_top htop).1 hall, h₀.parent?_of_mem_roots⟩
    rw [hcopies.extraRoots, h.extraRoots, flatMap_update copies _ cs hturn.notMem]
    simp only [hiff, decide_eq_true_eq]
    split
    · rfl
    · rw [List.append_nil]

end Step

/-! ### All turns -/

section Run

variable {s₀ : InstanceBuilder} {done : List Nat} {copies : Nat → List Nat}
  (h₀ : s₀.forest.TreeShaped) (hspans : List.Forall₂ (s₀.forest.Spans s₀.Reads) s₀.forest.roots ts)

include h₀ hspans

theorem lt_of_mem_all (hid : id ∈ s₀.forest.all) : id < s₀.forest.nodes.size := by
  obtain ⟨t, ht⟩ := h₀.exists_spans hspans id hid
  exact (Forest.spans_iff.1 ht).1.lt

/-- One turn after the other. -/
theorem Replicated.run {ids later : List Nat} (h : Replicated s₀ done copies s)
    (heq : s₀.forest.upwards = done ++ (ids ++ later)) :
    ∃ copies', Replicated s₀ (done ++ ids) copies' (ids.foldl replicateInstance s) := by
  induction ids generalizing done copies s with
  | nil => exact ⟨copies, by rwa [List.append_nil]⟩
  | cons id ids ih =>
    have hall : id ∈ s₀.forest.all := by
      rw [← s₀.forest.upwards_perm.mem_iff, heq]
      exact List.mem_append_right _ List.mem_cons_self
    obtain ⟨t, ht⟩ := h₀.exists_spans hspans id hall
    obtain ⟨cs, hstep⟩ := h.step h₀ hall (h₀.turn_of_upwards heq) ht
    rw [List.cons_append, List.append_cons] at heq
    rw [List.append_cons done id ids]
    exact ih hstep heq

/-- Below a root that has not had its turn, nothing has changed. -/
theorem Replicated.hierarchy_eq {before roots : List Nat} {root : Nat}
    (h : Replicated s₀ (before.flatMap fun root => (s₀.forest.hierarchy root).reverse) copies s)
    (heq : s₀.forest.roots = before ++ root :: roots) :
    s.forest.hierarchy root = s₀.forest.hierarchy root := by
  have hroot : root ∈ s₀.forest.roots := heq ▸ List.mem_append_right _ List.mem_cons_self
  have hapart := h₀.disjoint_hierarchies
  rw [heq, List.pairwise_append] at hapart
  refine h₀.hierarchy_congr h.treeShaped (h₀.within root hroot) fun i hi => ?_
  have hlt := lt_of_mem_all h₀ hspans (List.mem_flatMap.2 ⟨root, hroot, hi⟩)
  refine ⟨hlt.trans_le h.size_le, ?_⟩
  rw [h.children i hlt, List.filter_eq_nil_iff.2, List.flatMap_nil, List.append_nil]
  intro child hdone hchild
  obtain ⟨other, hother, hdone⟩ := List.mem_flatMap.1 hdone
  refine hapart.2.2 other hother root List.mem_cons_self (List.mem_reverse.1 hdone) ?_
  rw [h₀.hierarchy_eq_cons (h₀.within root hroot)]
  exact List.mem_cons_of_mem _ (List.mem_flatMap.2 ⟨i, hi, of_decide_eq_true hchild⟩)

/-- One root after the other. -/
theorem Replicated.runRoots {before roots : List Nat}
    (h : Replicated s₀ (before.flatMap fun root => (s₀.forest.hierarchy root).reverse) copies s)
    (heq : s₀.forest.roots = before ++ roots) :
    ∃ copies', Replicated s₀ s₀.forest.upwards copies' (roots.foldl replicateBelow s) := by
  induction roots generalizing before copies s with
  | nil =>
    rw [List.append_nil] at heq
    exact ⟨copies, by rwa [Forest.upwards, heq]⟩
  | cons root roots ih =>
    have hupwards := congrArg (List.flatMap fun root => (s₀.forest.hierarchy root).reverse) heq
    rw [List.flatMap_append, List.flatMap_cons] at hupwards
    obtain ⟨copies', hrun⟩ := h.run h₀ hspans hupwards
    rw [List.foldl_cons, replicateBelow, h.hierarchy_eq h₀ hspans heq]
    have hdone : (before ++ [root]).flatMap (fun root => (s₀.forest.hierarchy root).reverse) =
        before.flatMap (fun root => (s₀.forest.hierarchy root).reverse) ++
          (s₀.forest.hierarchy root).reverse := by
      rw [List.flatMap_append, List.flatMap_singleton]
    rw [← hdone] at hrun
    rw [List.append_cons] at heq
    exact ih hrun heq

end Run

end Replication

namespace InstanceBuilder

/-! ### The forest with all copies -/

/-- Every instance has got its copies, and spans together with them what its draft, changed in some
    way before, stands for. -/
structure Expanded (change : Draft → Draft) (s₀ s : InstanceBuilder) (copies : Nat → List Nat) :
    Prop where
  treeShaped : s.forest.TreeShaped
  roots : s.forest.roots = s₀.forest.roots ++ s₀.forest.roots.flatMap copies
  children : ∀ id ∈ s₀.forest.all, s.forest.children id =
    s₀.forest.children id ++ (s₀.forest.children id).reverse.flatMap copies
  parents : ∀ id ∈ s₀.forest.all, ∀ c ∈ id :: copies id,
    s.forest.parent? c = s₀.forest.parent? id
  spans : ∀ id ∈ s₀.forest.all, ∀ t, s₀.forest.Spans s₀.Reads id t →
    List.Forall₂ (s.forest.Spans s.Holds) (id :: copies id) (expand (t.map change))
  declared : s.declared = s₀.declared

variable {s₀ s : InstanceBuilder} {change : Draft → Draft} {copies : Nat → List Nat}
  {ts : List (Tree Draft)}

/-- What is said about instances does not change them. -/
theorem Expanded.reported (h : Expanded change s₀ s copies) (diagnostics : List Diagnostic) :
    Expanded change s₀ { s with diagnostics } copies :=
  { h with spans := fun id hid t ht => (h.spans id hid t ht).imp fun _ _ hspans =>
      hspans.mono fun _ _ hd => ⟨⟨hd.body, hd.site⟩, rfl⟩ }

/-- The roots span the trees that the drafts at the roots stand for. -/
theorem Expanded.spans_roots (h : Expanded change s₀ s copies) (h₀ : s₀.forest.TreeShaped)
    (hspans : List.Forall₂ (s₀.forest.Spans s₀.Reads) s₀.forest.roots ts) :
    List.Forall₂ (s.forest.Spans s.Holds) s.forest.roots
      (expandRoots (ts.map (Tree.map change))) := by
  have hcopies : List.Forall₂ (fun root l => List.Forall₂ (s.forest.Spans s.Holds)
      (root :: copies root) l) s₀.forest.roots (expandAll (ts.map (Tree.map change))) := by
    rw [expandAll_eq_map, List.map_map]
    refine List.forall₂_map_right_iff.2 ?_
    exact ((List.forall₂_and_left _ _).2 ⟨fun _ => h₀.mem_all_of_mem_roots, hspans⟩).imp
      fun root t hroot => h.spans root hroot.1 t hroot.2
  have harranged := forall₂_arrangeRoots hcopies
  rwa [List.map_id', ← h.roots] at harranged

/-- With one copy of every instance, the forest is that of the declarations. -/
theorem expanded_single (h₀ : s₀.forest.TreeShaped) : Expanded single s₀ s₀ fun _ => [] where
  treeShaped := h₀
  roots := by simp
  children id _ := by simp
  parents id _ c hc := by rw [List.mem_singleton.1 hc]
  spans id _ t ht := by
    rw [expand_map_single]
    refine .cons (ht.carry_map (Q := Eq) ?_ rfl) .nil
    rintro i _ d rfl hd
    exact ⟨⟨hd.body, hd.site⟩, List.forall₂_refl _⟩
  declared := rfl

/-- When all instances have had their turn, the copies of roots become roots. -/
theorem expanded_of_replicated {r : Replication} (h₀ : s₀.forest.TreeShaped)
    (hspans : List.Forall₂ (s₀.forest.Spans s₀.Reads) s₀.forest.roots ts)
    (h : Replication.Replicated s₀ s₀.forest.upwards copies r) :
    Expanded id s₀ { r.toInstanceBuilder with
      forest := r.extraRoots.foldl Forest.addRoot r.forest } copies := by
  have hmem : ∀ id ∈ s₀.forest.all, id ∈ s₀.forest.upwards := fun id =>
    s₀.forest.upwards_perm.mem_iff.2
  have hextra := h.extraRoots
  rw [h₀.filter_roots_upwards] at hextra
  have hfree : ∀ c ∈ r.extraRoots, r.forest.Free c := by
    intro c hc
    obtain ⟨root, hroot, hc⟩ := List.mem_flatMap.1 (hextra ▸ hc)
    have hdone := hmem root (h₀.mem_all_of_mem_roots hroot)
    have hfresh := h.fresh root hdone c hc
    refine ⟨hfresh.2, (h.parents root hdone c hc).trans (h₀.parent?_of_mem_roots hroot), ?_⟩
    rw [h.roots]
    exact fun hmem => Nat.not_le_of_lt (h₀.within c hmem) hfresh.1
  have hnodup : r.extraRoots.Nodup := by
    rw [h.extraRoots]
    exact h.nodup.sublist (List.filter_sublist.flatMap copies)
  obtain ⟨hshape, hroots, -, hchildren, hget⟩ := h.treeShaped.addRoots hfree hnodup
  have hparent := h.treeShaped.parent?_congr hshape hchildren
  constructor
  case treeShaped => exact hshape
  case roots => exact hroots.trans (congrArg₂ _ h.roots hextra)
  case children =>
    intro id hid
    have hlt := Replication.lt_of_mem_all h₀ hspans hid
    rw [hchildren, h.children id hlt, h₀.filter_children_upwards hid]
  case parents =>
    intro id hid c hc
    rw [hparent]
    rcases List.mem_cons.1 hc with rfl | hc
    · exact h.parent? c (Replication.lt_of_mem_all h₀ hspans hid)
    · exact h.parents id (hmem id hid) c hc
  case spans =>
    intro id hid t ht
    rw [Tree.map_id]
    refine (h.spans id (hmem id hid) t ht).imp fun _ _ hspans => hspans.mono fun i d hd => ?_
    exact ⟨⟨(hget i).trans hd.body, hd.site⟩, hchildren i⟩
  case declared => exact h.declared

/-- All instances have got the copies that they ask for, and the further copies are looked at
    afterwards, from the deepest to the root. -/
theorem exists_expanded_replicate (h₀ : s₀.forest.TreeShaped)
    (hspans : List.Forall₂ (s₀.forest.Spans s₀.Reads) s₀.forest.roots ts) :
    ∃ copies, Expanded id s₀ s₀.replicate copies ∧
      s₀.replicate.diagnostics = s₀.diagnostics ++ (NameSet.ofList
        (((s₀.forest.upwards.flatMap copies).filter (isTaken s₀.replicate.forest)).map
          s₀.replicate.forest.path)).toList.map fun path =>
            ⟨.conflictingInferredInstance, [⟨.instancePath, path⟩]⟩ := by
  have hstart : Replication.Replicated s₀ (([] : List Nat).flatMap fun root =>
      (s₀.forest.hierarchy root).reverse) (fun _ => []) ⟨s₀, [], []⟩ :=
    Replication.replicated_start h₀
  obtain ⟨copies, h⟩ := hstart.runRoots h₀ hspans (List.nil_append s₀.forest.roots).symm
  refine ⟨copies, (expanded_of_replicated h₀ hspans h).reported _, ?_⟩
  rw [← h.diagnostics, ← h.inferred]
  rfl

end InstanceBuilder

end Deployment

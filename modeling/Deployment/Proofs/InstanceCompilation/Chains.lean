import Deployment.Proofs.FileStore
import Deployment.Proofs.InstanceCompilation.Drafts
import Mathlib.Data.Set.Function

/-!
# Instances and chains of declarations

The instances of a compiled forest are the chains of its declarations: there is one for every way
to go down through nested declarations, picking a copy of each, and it stands below the instance
of the chain that stops one declaration earlier.

* `Expands`: a forest whose instances are the chains of some blocks;
* `expands_of_spans`: a forest that spans the trees that drafts stand for is one, whatever became of
  the drafts before;
* `compile_expands`: so is a compiled forest, with the numbers of copies that the declarations
  ask for if nothing severe was found before anything is copied, and with one copy of each
  otherwise.
-/

namespace Deployment

open Deployment.Tree Draft

/-- A forest whose instances below the roots are the chains of some blocks. A chain of which the
    last declaration is `b`, with its copy numbered `i`, is located at an instance `body b i`. -/
structure Expands (f : Forest) (blocks : List Block) (copies : InstanceDeclaration → Nat)
    (body : InstanceDeclaration → Nat → Instance)
    (locate : List (Pick × InstanceDeclaration) → Nat) : Prop where
  /-- Every instance is the place of one chain. -/
  bijOn : Set.BijOn locate {l | Chain copies blocks l} {id | id ∈ f.all}
  /-- The instance of a chain is read from its last declaration. -/
  get? : ∀ l q, Chain copies blocks (l ++ [q]) →
    f.get? (locate (l ++ [q])) = some (body q.2 q.1.copy)
  /-- A chain of one declaration is at a root. -/
  root : ∀ q, Chain copies blocks [q] → f.parent? (locate [q]) = none
  /-- A longer chain is below the chain without its last declaration. -/
  below : ∀ l q, l ≠ [] → Chain copies blocks (l ++ [q]) →
    f.parent? (locate (l ++ [q])) = some (locate l)
  /-- The path consists of the names along the chain. -/
  path : ∀ l, Chain copies blocks l →
    f.path (locate l) = Forest.pathOf (l.map fun q => (body q.2 q.1.copy).name)

/-- Only the copies and the instances of the declarations at hand matter. -/
theorem Expands.congr {f : Forest} {blocks : List Block}
    {copies copies' : InstanceDeclaration → Nat} {body body' : InstanceDeclaration → Nat → Instance}
    {locate : List (Pick × InstanceDeclaration) → Nat} (h : Expands f blocks copies body locate)
    (hcopies : ∀ b, Block.Within blocks b → copies b = copies' b)
    (hbody : ∀ b, Block.Within blocks b → ∀ i, body b i = body' b i) :
    Expands f blocks copies' body' locate := by
  have hchain : ∀ l, Chain copies blocks l ↔ Chain copies' blocks l := fun l =>
    ⟨fun hl => hl.mono hcopies, fun hl => hl.mono fun b hb => (hcopies b hb).symm⟩
  refine ⟨?_, ?_, ?_, ?_, ?_⟩
  · simpa only [hchain] using h.bijOn
  · intro l q hl
    rw [← hbody q.2 (hl.within (List.mem_append_right _ List.mem_cons_self))]
    exact h.get? l q ((hchain _).2 hl)
  · exact fun q hq => h.root q ((hchain _).2 hq)
  · exact fun l q hne hl => h.below l q hne ((hchain _).2 hl)
  · intro l hl
    have hnames : (l.map fun q => (body' q.2 q.1.copy).name) =
        l.map fun q => (body q.2 q.1.copy).name :=
      List.map_congr_left fun q hq => by rw [hbody q.2 (hl.within hq)]
    rw [hnames]
    exact h.path l ((hchain _).2 hl)

/-- Every instance is read from the last declaration of a chain. -/
theorem Expands.exists_declaration {f : Forest} {blocks : List Block}
    {copies : InstanceDeclaration → Nat} {body : InstanceDeclaration → Nat → Instance}
    {locate : List (Pick × InstanceDeclaration) → Nat} (h : Expands f blocks copies body locate)
    {id : Nat} (hid : id ∈ f.all) :
    ∃ b i, Block.Within blocks b ∧ f.get? id = some (body b i) := by
  obtain ⟨l, hl, rfl⟩ := h.bijOn.surjOn hid
  obtain ⟨l, q, rfl⟩ := (List.eq_nil_or_concat' l).resolve_left (Chain.ne_nil hl)
  exact ⟨q.2, q.1.copy, Chain.within hl (List.mem_append_right _ List.mem_cons_self), h.get? l q hl⟩

/-- If no two instances share a path, a chain is determined by the path of its instance, wherever
    instances are located. -/
theorem Expands.chain_eq {f : Forest} {blocks : List Block} {copies : InstanceDeclaration → Nat}
    {body : InstanceDeclaration → Nat → Instance}
    {locate locate' : List (Pick × InstanceDeclaration) → Nat}
    (h : Expands f blocks copies body locate) (h' : Expands f blocks copies body locate')
    (hpaths : (f.all.map f.path).Nodup) {l l' : List (Pick × InstanceDeclaration)}
    (hl : Chain copies blocks l) (hl' : Chain copies blocks l')
    (hpath : f.path (locate l) = f.path (locate' l')) : l = l' := by
  -- The path is that of the names along the chain, so `locate'` may be replaced.
  rw [h'.path l' hl', ← h.path l' hl'] at hpath
  have hplace := List.inj_on_of_nodup_map hpaths (h.bijOn.mapsTo hl) (h.bijOn.mapsTo hl') hpath
  exact h.bijOn.injOn hl hl' hplace

/-! ### Forests that span expanded drafts -/

section

variable {change : Draft → Draft} {blocks : List Block} {f : Forest} {R : Nat → Pick × Draft → Prop}
  {us : List (Tree (Nat × (Pick × Draft)))}

/-- The index at the end of the lineage with the picks of a chain. -/
def locateIn (us : List (Tree (Nat × (Pick × Draft)))) (l : List (Pick × InstanceDeclaration)) :
    Nat :=
  (((lineagesAll us).find? fun m => m.map (fun q => q.2.1) = l.map Prod.fst).bind
    List.getLast?).elim 0 Prod.fst

section Located

variable (hus : us.map (Tree.map Prod.snd) = pickedTrees change blocks)

include hus

/-- The lineages with indices are those without, at indices. -/
theorem mem_labelled_iff {l : List (Pick × Draft)} :
    (∃ m ∈ lineagesAll us, m.map Prod.snd = l) ↔ l ∈ lineagesAll (pickedTrees change blocks) := by
  rw [← hus, lineagesAll_map, List.mem_map]

theorem nodup_picks_labelled : ((lineagesAll us).map fun m => m.map fun q => q.2.1).Nodup := by
  have hpicks := nodup_picks_pickedTrees change blocks
  rw [← hus, lineagesAll_map, List.map_map] at hpicks
  refine (congrArg List.Nodup (List.map_congr_left fun m _ => ?_)).mp hpicks
  exact List.map_map

/-- A chain is located at the end of its lineage. -/
theorem locateIn_eq {m : List (Nat × (Pick × Draft))} {x : Nat × (Pick × Draft)}
    {l : List (Pick × InstanceDeclaration)} (hm : m ++ [x] ∈ lineagesAll us)
    (hl : (m ++ [x]).map Prod.snd = l.map (copyOf change)) : locateIn us l = x.1 := by
  have hpicks : (m ++ [x]).map (fun q => q.2.1) = l.map Prod.fst := by
    have hfst := congrArg (List.map Prod.fst) hl
    rw [List.map_map, List.map_map] at hfst
    exact hfst
  rw [locateIn]
  cases hfind : (lineagesAll us).find? fun m => m.map (fun q => q.2.1) = l.map Prod.fst with
  | none => exact absurd (decide_eq_true hpicks) (List.find?_eq_none.1 hfind _ hm)
  | some m' =>
    -- No other lineage has the same picks.
    have hpicks' : m'.map (fun q => q.2.1) = l.map Prod.fst := by
      simpa using List.find?_some hfind
    obtain rfl : m' = m ++ [x] := List.inj_on_of_nodup_map (nodup_picks_labelled hus)
      (List.mem_of_find?_eq_some hfind) hm (hpicks'.trans hpicks.symm)
    rw [Option.bind_some, List.getLast?_concat]
    rfl

/-- Every chain has a lineage, at the end of which it is located. -/
theorem exists_lineage {l : List (Pick × InstanceDeclaration)} {q : Pick × InstanceDeclaration}
    (hl : Chain (copiesOf change) blocks (l ++ [q])) :
    ∃ m x, m ++ [x] ∈ lineagesAll us ∧ m.map Prod.snd = l.map (copyOf change) ∧
      x = (locateIn us (l ++ [q]), copyOf change q) := by
  obtain ⟨m, hm, hmap⟩ :=
    (mem_labelled_iff hus).2 ((mem_lineagesAll_iff_chain change).2 ⟨_, hl, rfl⟩)
  obtain ⟨m, x, rfl⟩ := m.eq_nil_or_concat'.resolve_left (ne_nil_of_mem_lineagesAll hm)
  have hlocate := locateIn_eq hus hm hmap
  rw [List.map_append, List.map_append] at hmap
  obtain ⟨hmap, hlast⟩ := List.append_inj' hmap rfl
  exact ⟨m, x, hm, hmap, Prod.ext hlocate.symm (List.cons.inj hlast).1⟩

/-- Every lineage is that of a chain. -/
theorem exists_chain {m : List (Nat × (Pick × Draft))} {x : Nat × (Pick × Draft)}
    (hm : m ++ [x] ∈ lineagesAll us) :
    ∃ l, Chain (copiesOf change) blocks l ∧ (m ++ [x]).map Prod.snd = l.map (copyOf change) ∧
      locateIn us l = x.1 := by
  obtain ⟨l, hl, hmap⟩ :=
    (mem_lineagesAll_iff_chain change).1 ((mem_labelled_iff hus).1 ⟨_, hm, rfl⟩)
  exact ⟨l, hl, hmap.symm, locateIn_eq hus hm hmap.symm⟩

variable (h : f.TreeShaped)
  (hspans : List.Forall₂ (f.Spans (Forest.Labelled R)) f.roots us)

include h hspans

theorem bijOn_locateIn :
    Set.BijOn (locateIn us) {l | Chain (copiesOf change) blocks l} {id | id ∈ f.all} := by
  refine ⟨fun l hl => ?_, fun l hl l' hl' heq => ?_, fun id hid => ?_⟩
  · obtain ⟨l, q, rfl⟩ := l.eq_nil_or_concat'.resolve_left (Chain.ne_nil hl)
    obtain ⟨m, x, hm, -, rfl⟩ := exists_lineage hus hl
    exact h.mem_all_of_lineage hspans hm
  · obtain ⟨l, q, rfl⟩ := l.eq_nil_or_concat'.resolve_left (Chain.ne_nil hl)
    obtain ⟨l', q', rfl⟩ := l'.eq_nil_or_concat'.resolve_left (Chain.ne_nil hl')
    obtain ⟨m, x, hm, hmap, rfl⟩ := exists_lineage hus hl
    obtain ⟨m', x', hm', hmap', rfl⟩ := exists_lineage hus hl'
    -- The lineages end at the same index, so they are the same, and have the same picks.
    obtain ⟨rfl, hlast⟩ := List.append_inj' (h.lineage_unique hspans hm hm' heq) rfl
    refine Chain.ext hl hl' ?_
    have hfst := congrArg (List.map Prod.fst) (hmap.symm.trans hmap')
    rw [List.map_map, List.map_map] at hfst
    have hpick := congrArg (fun x => x.2.1) (List.cons.inj hlast).1
    rw [List.map_append, List.map_append]
    exact congrArg₂ _ hfst (congrArg ([·]) hpick)
  · obtain ⟨m, x, hm, rfl⟩ := h.exists_lineage hspans hid
    obtain ⟨l, hl, -, hlocate⟩ := exists_chain hus hm
    exact ⟨l, hl, hlocate⟩

/-- A forest that spans the trees that drafts stand for expands the blocks of the drafts. -/
theorem expands_of_spans (hbody : ∀ i q, R i q → f.get? i = some q.2.body) :
    Expands f blocks (copiesOf change)
      (fun b i => ((change b.draft).rename ((change b.draft).nameOf i)).body) (locateIn us) := by
  constructor
  case bijOn => exact bijOn_locateIn hus h hspans
  case get? =>
    intro l q hl
    obtain ⟨m, x, hm, -, rfl⟩ := exists_lineage hus hl
    exact hbody _ _ (Forest.links_of_lineage hspans hm).1
  case root =>
    intro q hq
    obtain ⟨m, x, hm, hmap, rfl⟩ := exists_lineage hus (l := []) hq
    rw [List.map_nil, List.map_eq_nil_iff] at hmap
    exact (h.parent?_of_lineage hspans hm).trans (hmap ▸ rfl)
  case below =>
    intro l q hne hl
    obtain ⟨m, x, hm, hmap, rfl⟩ := exists_lineage hus hl
    have hparent := h.parent?_of_lineage hspans hm
    -- What comes before the end is the lineage of the shorter chain.
    have hne' : m ≠ [] := by
      rintro rfl
      exact hne (List.map_eq_nil_iff.1 hmap.symm)
    have habove := mem_lineagesAll_of_append hm hne'
    obtain ⟨m, y, rfl⟩ := m.eq_nil_or_concat'.resolve_left hne'
    rw [List.getLast?_concat] at hparent
    exact hparent.trans (congrArg some (locateIn_eq hus habove hmap).symm)
  case path =>
    intro l hl
    obtain ⟨l, q, rfl⟩ := l.eq_nil_or_concat'.resolve_left (Chain.ne_nil hl)
    obtain ⟨m, x, hm, hmap, rfl⟩ := exists_lineage hus hl
    have hnames := congrArg (List.map fun q => q.2.body.name) hmap
    rw [List.map_map, List.map_map] at hnames
    rw [h.path_of_lineage hspans hbody hm, List.map_append, List.map_append]
    exact congrArg (fun names => Forest.pathOf (names ++ _)) hnames

end Located

end

/-! ### The compilation -/

/-- The name of a copy of a declaration: the declared name, and its number, with zeros in front
    up to the number of digits of the number of copies, if there are several. -/
def InstanceDeclaration.copyName (b : InstanceDeclaration) (i : Nat) : String :=
  if b.copies = 1 then b.name else b.name ++ Text.padded (Text.width b.copies) i

/-- A copy of the instance that a declaration makes. -/
def InstanceDeclaration.copyBody (b : InstanceDeclaration) (i : Nat) : Instance :=
  { b.draft.body with name := b.copyName i }

namespace InstanceCompilation

variable {loader : Loader} {g : TypeGraph} {closure : Closure}

/-- A compiled forest expands the declarations of its closure, and every instance has the place of
    the declaration that it is a copy of. -/
theorem exists_expands (g : TypeGraph) (closure : Closure) :
    ∃ locate, Expands (ofClosure g closure).forest closure.blocks (copiesOf (settle g closure))
        (fun b i => ((settle g closure b.draft).rename ((settle g closure b.draft).nameOf i)).body)
        locate ∧
      ∀ l q, Chain (copiesOf (settle g closure)) closure.blocks (l ++ [q]) →
        (copied g closure).origins.get? (locate (l ++ [q])) =
          some (settle g closure q.2.draft).site := by
  have hshape := treeShaped_ofClosure g closure
  have hspans := spans_ofClosure g closure
  rw [settledDrafts_eq, ← map_snd_pickedTrees, List.forall₂_map_right_iff] at hspans
  obtain ⟨us, hus, hlabelled⟩ := Forest.exists_labelled <| hspans.imp fun _ _ ht =>
    ht.of_map (S := fun i q => (copied g closure).Holds i q.2) fun _ _ hd => hd
  refine ⟨_, expands_of_spans hus hshape hlabelled fun _ _ hd => hd.body, fun l q hl => ?_⟩
  obtain ⟨m, x, hm, -, rfl⟩ := exists_lineage hus hl
  exact (Forest.links_of_lineage hlabelled hm).1.site

/-- Without severe diagnostics, a draft asks for as many copies as its declaration. -/
theorem copiesOf_id_of_mild (hmade : ∀ v ∈ closure, Closure.Made loader Block.check .instances v)
    (hearly : Diagnostic.anySevere (early g closure) = false) {b : InstanceDeclaration}
    (hb : Block.Within closure.blocks b) : copiesOf id b = b.copies := by
  rw [copiesOf, id, InstanceDeclaration.draft_count (sound_of_early hmade hearly hb)]
  exact max_eq_right b.one_le_copies

/-- Without severe diagnostics, every declaration stands for the copies that it asks for. -/
theorem expands_of_mild (hmade : ∀ v ∈ closure, Closure.Made loader Block.check .instances v)
    (hearly : Diagnostic.anySevere (early g closure) = false) :
    ∃ locate, Expands (ofClosure g closure).forest closure.blocks InstanceDeclaration.copies
        InstanceDeclaration.copyBody locate ∧
      ∀ l q, Chain InstanceDeclaration.copies closure.blocks (l ++ [q]) →
        (copied g closure).origins.get? (locate (l ++ [q])) = some q.2.site := by
  have hsettle : settle g closure = id := by
    rw [settle, hearly]
    rfl
  obtain ⟨locate, hexpands, hsites⟩ := exists_expands g closure
  rw [hsettle] at hexpands hsites
  have hcopies : ∀ b, Block.Within closure.blocks b → copiesOf id b = b.copies := fun b hb =>
    copiesOf_id_of_mild hmade hearly hb
  refine ⟨locate, hexpands.congr hcopies fun b hb i => ?_, fun l q hl => ?_⟩
  · have hsound := sound_of_early hmade hearly hb
    have hone := b.one_le_copies
    have hname : b.draft.nameOf i = b.copyName i := by
      rw [nameOf, InstanceDeclaration.copyName, InstanceDeclaration.draft_count hsound,
        InstanceDeclaration.draft_name hsound]
      exact if_congr (by omega) rfl rfl
    rw [id, hname]
    rfl
  · exact hsites l q (hl.mono fun b hb => (hcopies b hb).symm)

/-- With a severe diagnostic, every declaration stands for one instance, as it is read. -/
theorem expands_of_severe (hearly : Diagnostic.anySevere (early g closure) = true) :
    ∃ locate, Expands (ofClosure g closure).forest closure.blocks (fun _ => 1)
      (fun b _ => b.draft.body) locate := by
  have hsettle : settle g closure = single := by
    rw [settle, hearly]
    rfl
  obtain ⟨locate, hexpands, -⟩ := exists_expands g closure
  rw [hsettle] at hexpands
  exact ⟨locate, hexpands.congr (fun _ _ => rfl) fun _ _ _ => rfl⟩

/-- With a severe diagnostic, the trees of the forest are those of the declarations, in order. -/
theorem toTrees_of_severe (hearly : Diagnostic.anySevere (early g closure) = true) :
    (ofClosure g closure).forest.toTrees = mapAll Draft.body (ofBlocks closure.blocks) := by
  have hdrafts : settledDrafts g closure = mapAll single (ofBlocks closure.blocks) := by
    rw [settledDrafts, hearly, draftsOf_eq]
    rfl
  rw [toTrees_ofClosure, hdrafts, expandRoots_map_single, mapAll_eq_map, mapAll_eq_map,
    mapAll_eq_map, List.map_map]
  exact List.map_congr_left fun t _ => map_map ..

/-- A compiled forest expands the declarations of its closure: if nothing severe is found before
    anything is copied, each stands for the copies that it asks for; otherwise each stands for
    one instance, under the name that is read, and the trees are those of the blocks, in
    order. -/
theorem compile_expands {loader : Loader} {g : TypeGraph} {root dir : Path}
    {c : InstanceCompilation} (h : compile loader Block.check g root dir = .ok c) :
    ∃ closure, Closure.walk loader Block.check .instances root dir = .ok closure ∧
      (Diagnostic.anySevere (early g closure) = false → ∃ locate,
        Expands c.forest closure.blocks InstanceDeclaration.copies InstanceDeclaration.copyBody
          locate) ∧
      (Diagnostic.anySevere (early g closure) = true →
        (∃ locate, Expands c.forest closure.blocks (fun _ => 1) (fun b _ => b.draft.body) locate) ∧
        c.forest.toTrees = mapAll Draft.body (ofBlocks closure.blocks)) := by
  obtain ⟨closure, hwalk, rfl⟩ := exists_of_map_eq_ok h
  refine ⟨closure, hwalk, fun hearly => ?_, fun hearly => ?_⟩
  · obtain ⟨locate, hexpands, -⟩ := expands_of_mild (Closure.visits_of_walk hwalk) hearly
    exact ⟨locate, hexpands⟩
  · exact ⟨expands_of_severe hearly, toTrees_of_severe hearly⟩

/-- An application with two copies. -/
def replicated : InstanceDeclaration :=
  let site : Site := ⟨⟨"nested.instances"⟩, 4⟩
  ⟨site, "App", [.property site "name" "app", .property site "count" "2"]⟩

/-- Two machines with it on each. -/
def replicating : InstanceDeclaration :=
  let site : Site := ⟨⟨"nested.instances"⟩, 1⟩
  ⟨site, "VM", [.property site "name" "vm", .property site "count" "2",
    .declaration replicated.site .instanceOf replicated.component replicated.inner]⟩

/-- The file with these machines. -/
def nesting : FileDefinition := .ofBlocks ⟨"nested.instances"⟩
  [.declaration replicating.site .instanceOf replicating.component replicating.inner]

theorem compile_expands_nested :
    ∃ c, compile (FileStore.empty.insert nesting).loader Block.check { TypeGraph.empty with
        components := .ofList [("VM", .named "VM"), ("App", .named "App")] }
        ⟨"nested.instances"⟩ ⟨""⟩ = .ok c ∧
      ∃ id ∈ c.forest.all, c.forest.path id = "/vm2/app1" := by
  have himports : nesting.imports = [] := rfl
  have h := compile_single himports Block.check { TypeGraph.empty with
    components := .ofList [("VM", .named "VM"), ("App", .named "App")] } ⟨""⟩
  refine ⟨_, h, ?_⟩
  obtain ⟨closure, hwalk, hmild, -⟩ := compile_expands h
  rw [FileStore.walk_single nesting Block.check .instances ⟨""⟩ himports] at hwalk
  obtain rfl := Except.ok.inj hwalk
  obtain ⟨locate, hexpands⟩ := hmild (by decide +kernel)
  have hchain : Chain InstanceDeclaration.copies
      (Closure.blocks (.single Block.check .instances nesting))
      [(⟨0, 2⟩, replicating), (⟨0, 1⟩, replicated)] :=
    .step ⟨rfl, by decide, by decide +kernel⟩ (.last ⟨rfl, by decide, by decide +kernel⟩)
  refine ⟨locate _, hexpands.bijOn.mapsTo hchain, ?_⟩
  rw [hexpands.path _ hchain]
  decide +kernel

end InstanceCompilation

end Deployment

import Deployment.Proofs.Write.Instances
import Deployment.Proofs.Write.Paragraphs

/-!
# Written forests

The file of a forest of valid instances. A tree is written as nested declarations; wherever these
are placed in the file, and whatever comments stand between them, they draft the instances as they
are read again, one copy of each (`Forest.drafts_written`).

* `Write.Drafts`: what some blocks draft, wherever they are placed;
* `Write.drafts_tree`, `Write.checkInner_tree_iff`: what a written tree drafts, and when nothing is
  wrong with it;
* `Forest.drafts_written`, `Forest.check_toFile_iff`: the same for the file of a forest.
-/

namespace Deployment

open Deployment.Tree Draft

/-- An instance as it is read from what is written of it. -/
def Instance.readBack (options : WriteOptions) (i : Instance) : Instance := (i.kept options).reread

namespace Write

variable {options : WriteOptions} {bs bs' : List Block} {ts ts' : List (Tree Instance)}

/-! ### Drafts of written blocks -/

/-- Wherever they are placed, the blocks draft the instances of some trees, one copy of each. -/
def Drafts (bs : List Block) (ts : List (Tree Instance)) : Prop :=
  ∀ file line,
    (ofBlocks (Block.numberedAll file line bs)).map (Tree.map single) =
        ofBlocks (Block.numberedAll file line bs) ∧
      (ofBlocks (Block.numberedAll file line bs)).map (Tree.map Draft.body) = ts

theorem Drafts.append (h : Drafts bs ts) (h' : Drafts bs' ts') :
    Drafts (bs ++ bs') (ts ++ ts') := by
  intro file line
  rw [Block.numberedAll_append, ofBlocks_append, List.map_append, List.map_append, (h file line).1,
    (h file line).2, (h' file _).1, (h' file _).2]
  exact ⟨rfl, rfl⟩

/-- Properties, comments and blank lines draft nothing. -/
theorem drafts_of_belongs (h : ∀ b ∈ bs, b.Belongs) : Drafts bs [] := by
  intro file line
  have hnone : ofBlocks (Block.numberedAll file line bs) = [] := by
    rw [ofBlocks_eq_map, List.map_eq_nil_iff]
    refine List.filterMap_eq_nil_iff.2 fun b hb => ?_
    obtain ⟨b', hb', n, rfl⟩ := Block.exists_of_mem_numberedAll hb
    rcases h b' hb' with ⟨p, hp⟩ | hcomment | hblank
    · cases b' with
      | property => rfl
      | declaration | importOf | comment | blank => exact nomatch hp
    · cases b' with
      | comment => rfl
      | declaration | importOf | property | blank => exact nomatch hcomment
    · cases b' with
      | blank => rfl
      | declaration | importOf | property | comment => exact nomatch hblank
  rw [hnone]
  exact ⟨rfl, rfl⟩

/-! ### Written trees -/

theorem belongs_instanceProperties (options : WriteOptions) (i : Instance) :
    ∀ b ∈ instanceProperties options i, b.Belongs := by
  have hproperties : ∀ {α : Type} (name value : α → String) (xs : List α),
      ∀ b ∈ xs.map fun x => property (name x) (value x), b.Belongs := by
    intro α name value xs b hb
    obtain ⟨x, -, rfl⟩ := List.mem_map.1 hb
    exact .inl ⟨_, rfl⟩
  intro b hb
  rw [instanceProperties] at hb
  simp only [List.mem_append] at hb
  rcases hb with (((hb | hb) | hb) | hb) | hb
  · rw [List.mem_singleton.1 hb]
    exact .inl ⟨_, rfl⟩
  · exact belongs_listProperty _ _ b hb
  · split_ifs at hb
    · rw [List.mem_singleton.1 hb]
      exact .inl ⟨_, rfl⟩
    · cases hb
  · split_ifs at hb
    · exact hproperties _ _ _ b hb
    · cases hb
  · split_ifs at hb
    · exact hproperties _ _ _ b hb
    · cases hb

theorem trees_eq_map (options : WriteOptions) (ts : List (Tree Instance)) :
    trees options ts = ts.map (tree options) := by
  induction ts with
  | nil => rfl
  | cons t ts ih => rw [trees, ih, List.map_cons]

/-- The properties of a written instance, wherever they are placed. -/
theorem properties_inner (options : WriteOptions) (i : Instance) (cs : List (Tree Instance))
    (file : Path) (line : Nat) :
    Block.properties (Block.numberedAll file line (instanceProperties options i ++
      trees options cs)) = instancePairs (i.kept options) := by
  have htrees : Block.properties (trees options cs) = [] := by
    rw [trees_eq_map]
    refine List.filterMap_eq_nil_iff.2 fun b hb => ?_
    obtain ⟨t, -, rfl⟩ := List.mem_map.1 hb
    cases t
    rfl
  rw [Block.properties_numberedAll, properties_append, properties_instanceProperties, htrees,
    List.append_nil]

theorem drafts_trees_of {f : Instance → Instance}
    (h : ∀ t ∈ ts, Drafts [tree options t] [t.map f]) :
    Drafts (trees options ts) (ts.map (Tree.map f)) := by
  induction ts with
  | nil => exact drafts_of_belongs fun b hb => nomatch hb
  | cons t ts ih =>
    exact (h t List.mem_cons_self).append (ih fun u hu => h u (List.mem_cons_of_mem _ hu))

/-- A written tree of valid instances drafts them as they are read. -/
theorem drafts_tree {t : Tree Instance} (h : ∀ i ∈ t.preorder, i.Valid) :
    Drafts [tree options t] [t.map (Instance.readBack options)] := by
  induction t using Tree.inductionOn with
  | node i cs ih =>
    intro file line
    have hvalid := (h i List.mem_cons_self).kept options
    have hbelow := (drafts_of_belongs (belongs_instanceProperties options i)).append
      (drafts_trees_of fun c hc => ih c hc fun j hj =>
        h j (List.mem_cons_of_mem _ (mem_preorders_of_mem hc hj)))
    obtain ⟨hsingle, hbody⟩ := hbelow file (line + 1)
    have hproperties := properties_inner options i cs file (line + 1)
    have hdrafts : ofBlocks (Block.numberedAll file line [tree options (.node i cs)]) =
        [.node (.read ⟨⟨file, line⟩, i.component, Block.numberedAll file (line + 1)
            (instanceProperties options i ++ trees options cs)⟩)
          (ofBlocks (Block.numberedAll file (line + 1)
            (instanceProperties options i ++ trees options cs)))] :=
      rfl
    rw [hdrafts]
    generalize Block.numberedAll file (line + 1) (instanceProperties options i ++
      trees options cs) = inner at hsingle hbody hproperties
    have hread : Draft.read ⟨⟨file, line⟩, i.component, inner⟩ =
        ⟨i.readBack options, ⟨file, line⟩, none⟩ := by
      rw [Draft.read, hproperties, filter_count_instancePairs hvalid]
      exact congrArg (Draft.mk · _ none) (foldl_instancePairs hvalid)
    rw [hread, List.map_singleton, List.map_singleton, map_node, map_node, map_node, hsingle, hbody]
    exact ⟨rfl, rfl⟩

/-- Nothing is wrong with a written tree of valid instances exactly if every property has a
    value. -/
theorem checkInner_tree_iff {t : Tree Instance} (h : ∀ i ∈ t.preorder, i.Valid) (file : Path)
    (line : Nat) :
    Block.checkInner ((tree options t).numbered file line) = [] ↔
      ∀ i ∈ t.preorder, ∀ p ∈ instancePairs (i.kept options), Text.unquote p.2 ≠ "" := by
  induction t using Tree.inductionOn generalizing line with
  | node i cs ih =>
    have hvalid := (h i List.mem_cons_self).kept options
    have hbelow : ∀ c ∈ cs, ∀ j ∈ c.preorder, j.Valid := fun c hc j hj =>
      h j (List.mem_cons_of_mem _ (mem_preorders_of_mem hc hj))
    have hcheck : Block.checkInner ((tree options (.node i cs)).numbered file line) =
        Block.checkInstance ⟨file, line⟩ i.component (Block.numberedAll file (line + 1)
          (instanceProperties options i ++ trees options cs)) :=
      rfl
    rw [hcheck, Block.checkInstance_eq_nil_iff]
    have hproperties := properties_inner options i cs file (line + 1)
    have hclean : InstanceDeclaration.Clean ⟨⟨file, line⟩, i.component, _⟩ ↔ _ :=
      clean_iff hvalid hproperties
    rw [hclean, preorder, List.forall_mem_cons]
    refine and_congr_right fun _ => ⟨fun hinner j hj => ?_, fun hvalue b hb => ?_⟩
    · rw [preorders_eq_flatMap] at hj
      obtain ⟨c, hc, hj⟩ := List.mem_flatMap.1 hj
      have htree : tree options c ∈ instanceProperties options i ++ trees options cs := by
        rw [trees_eq_map]
        exact List.mem_append_right _ (List.mem_map_of_mem hc)
      obtain ⟨n, hn⟩ := Block.exists_mem_numberedAll htree file (line + 1)
      exact (ih c hc (hbelow c hc) n).1 (hinner _ hn) j hj
    · obtain ⟨b', hb', n, rfl⟩ := Block.exists_of_mem_numberedAll hb
      rcases List.mem_append.1 hb' with hb' | hb'
      · -- A property is found as it was written.
        rcases belongs_instanceProperties options i b' hb' with ⟨p, hp⟩ | hcomment | hblank
        · cases b' with
          | property site name value =>
            have hmem : (name, value) ∈ Block.properties (instanceProperties options i) :=
              Block.mem_properties.2 ⟨site, hb'⟩
            rw [properties_instanceProperties] at hmem
            exact checkInstanceProperty_of_mem hvalid hmem _
          | declaration | importOf | comment | blank => cases hp
        · rcases Block.exists_of_isComment_or_isBlank (.inl hcomment) with ⟨_, _, rfl | rfl⟩ <;> rfl
        · rcases Block.exists_of_isComment_or_isBlank (.inr hblank) with ⟨_, _, rfl | rfl⟩ <;> rfl
      · rw [trees_eq_map] at hb'
        obtain ⟨c, hc, rfl⟩ := List.mem_map.1 hb'
        exact (ih c hc (hbelow c hc) n).2 fun j hj => hvalue j (mem_preorders_of_mem hc hj)

end Write

/-! ### The file of a forest -/

namespace Forest

variable {f : Forest} {path : Path} {options : WriteOptions}

theorem exists_of_mem_toFile {b : Block} (h : b ∈ (f.toFile path options).blocks) :
    ∃ b' ∈ f.written options, ∃ n, b = b'.numbered path n :=
  Block.exists_of_mem_numberedAll (blocks_toFile ▸ h)

theorem mem_written {b : Block} (h : b ∈ f.written options) :
    (∃ t ∈ f.toTrees, b = Write.tree options t) ∨ b.isComment ∨ b.isBlank :=
  Write.mem_paragraphs h

theorem imports_toFile : (f.toFile path options).imports = [] := by
  refine (congrArg Block.imports blocks_toFile).trans ?_
  refine Block.imports_numberedAll (List.filterMap_eq_nil_iff.2 fun b hb => ?_)
  rcases mem_written hb with ⟨t, -, rfl⟩ | hskipped
  · cases t
    rfl
  · rcases Block.exists_of_isComment_or_isBlank hskipped with ⟨site, text, rfl | rfl⟩ <;> rfl

/-- The file of a forest is of a kind that a compilation of instances accepts. -/
theorem kind_toFile : Expectation.instances.accepted.contains (f.toFile path options).kind := by
  refine Expectation.accepted_of_no_type fun b hb => ?_
  obtain ⟨b', hb', n, rfl⟩ := exists_of_mem_toFile hb
  rcases mem_written hb' with ⟨⟨i, cs⟩, -, rfl⟩ | hskipped
  · intro site kind name inner h
    cases h
    rfl
  · rcases Block.exists_of_isComment_or_isBlank hskipped with ⟨site, text, rfl | rfl⟩
    · exact fun h => nomatch h
    · exact fun h => nomatch h

/-- The file of a forest of valid instances drafts them as they are read. -/
theorem drafts_written (h : ∀ i ∈ preorders f.toTrees, i.Valid) (options : WriteOptions) :
    Write.Drafts (f.written options) (f.toTrees.map (Tree.map (Instance.readBack options))) := by
  rw [written]
  revert h
  induction f.toTrees with
  | nil => exact fun _ => Write.drafts_of_belongs fun b hb => nomatch hb
  | cons t ts ih =>
    intro h
    rw [preorders, List.forall_mem_append] at h
    have hheading : Write.Drafts (Write.heading options "instance" t.value.name) [] :=
      Write.drafts_of_belongs fun b hb => .inr (.inl (Write.isComment_of_mem_heading hb))
    have hblank : Write.Drafts [Block.blank Write.nowhere ""] [] :=
      Write.drafts_of_belongs fun b hb => .inr (.inr (by rw [List.mem_singleton.1 hb]; rfl))
    exact (hheading.append ((Write.drafts_tree h.1).append hblank)).append (ih h.2)

/-- Nothing is wrong with the file of a forest of valid instances exactly if every property has a
    value. -/
theorem check_toFile_iff (h : ∀ i ∈ preorders f.toTrees, i.Valid) :
    (f.toFile path options).blocks.flatMap Block.check = [] ↔
      ∀ i ∈ preorders f.toTrees, ∀ p ∈ Write.instancePairs (i.kept options),
        Text.unquote p.2 ≠ "" := by
  have hcheck : ∀ t line, ((Write.tree options t).numbered path line).check =
      Block.checkInner ((Write.tree options t).numbered path line) := fun ⟨_, _⟩ _ => rfl
  have hvalid : ∀ t ∈ f.toTrees, ∀ i ∈ t.preorder, i.Valid := fun t ht i hi =>
    h i (mem_preorders_of_mem ht hi)
  rw [List.flatMap_eq_nil_iff, blocks_toFile]
  constructor
  · intro hnone i hi
    rw [preorders_eq_flatMap] at hi
    obtain ⟨t, ht, hi⟩ := List.mem_flatMap.1 hi
    have htree : Write.tree options t ∈ f.written options :=
      List.mem_flatMap.2 ⟨t, ht, List.mem_append_right _ List.mem_cons_self⟩
    obtain ⟨n, hn⟩ := Block.exists_mem_numberedAll htree path 1
    exact (Write.checkInner_tree_iff (hvalid t ht) path n).1 (hcheck t n ▸ hnone _ hn) i hi
  · intro hvalue b hb
    obtain ⟨b', hb', n, rfl⟩ := Block.exists_of_mem_numberedAll hb
    rcases mem_written hb' with ⟨t, ht, rfl⟩ | hskipped
    · rw [hcheck, Write.checkInner_tree_iff (hvalid t ht)]
      exact fun i hi => hvalue i (mem_preorders_of_mem ht hi)
    · rcases Block.exists_of_isComment_or_isBlank hskipped with ⟨site, text, rfl | rfl⟩ <;> rfl

end Forest

end Deployment

import Deployment.Catalogue.Resolution
import Deployment.Proofs.Table
import Mathlib.Data.List.Nodup

/-!
# What types mention

Types mention each other in five ways. Whatever gives names a component and a facet — a graph, a
catalogue, the first declarations among some blocks — thereby holds *mentions*.

* `Mention.HeldBy`: the mentions among some components and facets;
* `nodup_mentions`, `mem_mentions_iff`: a catalogue lists each of its mentions once;
* `holds_dropMention`: dropping a reference drops one mention and nothing else;
* `holds_ofBlocks`: a catalogue holds what the first declarations of its blocks mention.
-/

namespace Deployment

/-- One type mentions another in some way. -/
structure Mention where
  /-- The type that mentions. -/
  owner : String
  /-- How. -/
  bond : Bond
  /-- The name mentioned. -/
  target : String
deriving DecidableEq

namespace Mention

/-- The two names of a mention. -/
def edge (m : Mention) : String × String := (m.owner, m.target)

/-- A mention among components and facets given by name. -/
def HeldBy (component? : String → Option Component) (facet? : String → Option Facet)
    (m : Mention) : Prop :=
  match m.bond with
  | .extendsComponent => ∃ c, component? m.owner = some c ∧ c.base = some m.target
  | .carries => ∃ c, component? m.owner = some c ∧ m.target ∈ c.facets.toList
  | .componentChild => ∃ c, component? m.owner = some c ∧ m.target ∈ c.children.toList
  | .extendsFacet => ∃ f, facet? m.owner = some f ∧ m.target ∈ f.bases.toList
  | .facetChild => ∃ f, facet? m.owner = some f ∧ m.target ∈ f.children.toList

end Mention

/-- A reference without the place of its owner. -/
def Reference.mention (r : Reference) : Mention := ⟨r.owner, r.bond, r.target⟩

namespace Catalogue

/-- The component that a catalogue describes under a name. -/
def component? (c : Catalogue) (name : String) : Option Component :=
  (c.components.get? name).map (·.model)

/-- The facet that a catalogue describes under a name. -/
def facet? (c : Catalogue) (name : String) : Option Facet :=
  (c.facets.get? name).map (·.model)

/-- The mentions of a catalogue. -/
def Holds (c : Catalogue) (m : Mention) : Prop := m.HeldBy c.component? c.facet?

/-- The mentions of a catalogue, in order. -/
def mentions (c : Catalogue) : List Mention := c.references.map Reference.mention

variable {c : Catalogue}

/-! ### The list of mentions -/

theorem mem_componentReferences {name : String} {d : Declared Component} {m : Mention} :
    m ∈ (componentReferences name d).map Reference.mention ↔
      m.owner = name ∧ m.HeldBy (fun _ => some d.model) fun _ => none := by
  obtain ⟨owner, bond, target⟩ := m
  cases bond <;> simp [componentReferences, Reference.mention, Mention.HeldBy, eq_comm, and_comm]

theorem mem_facetReferences {name : String} {d : Declared Facet} {m : Mention} :
    m ∈ (facetReferences name d).map Reference.mention ↔
      m.owner = name ∧ m.HeldBy (fun _ => none) fun _ => some d.model := by
  obtain ⟨owner, bond, target⟩ := m
  cases bond <;> simp [facetReferences, Reference.mention, Mention.HeldBy, eq_comm, and_comm]

/-- A catalogue lists what it holds. -/
theorem mem_mentions_iff {m : Mention} : m ∈ c.mentions ↔ c.Holds m := by
  have hcomponents : m ∈ (c.components.entries.flatMap fun p =>
      componentReferences p.1 p.2).map Reference.mention ↔
        ∃ d, c.components.get? m.owner = some d ∧
          m.HeldBy (fun _ => some d.model) fun _ => none := by
    rw [List.map_flatMap, List.mem_flatMap]
    constructor
    · rintro ⟨⟨name, d⟩, hd, hm⟩
      obtain ⟨rfl, hheld⟩ := mem_componentReferences.1 hm
      exact ⟨d, Table.get?_eq_some_iff.2 hd, hheld⟩
    · rintro ⟨d, hd, hheld⟩
      exact ⟨_, Table.get?_eq_some_iff.1 hd, mem_componentReferences.2 ⟨rfl, hheld⟩⟩
  have hfacets : m ∈ (c.facets.entries.flatMap fun p =>
      facetReferences p.1 p.2).map Reference.mention ↔
        ∃ d, c.facets.get? m.owner = some d ∧
          m.HeldBy (fun _ => none) fun _ => some d.model := by
    rw [List.map_flatMap, List.mem_flatMap]
    constructor
    · rintro ⟨⟨name, d⟩, hd, hm⟩
      obtain ⟨rfl, hheld⟩ := mem_facetReferences.1 hm
      exact ⟨d, Table.get?_eq_some_iff.2 hd, hheld⟩
    · rintro ⟨d, hd, hheld⟩
      exact ⟨_, Table.get?_eq_some_iff.1 hd, mem_facetReferences.2 ⟨rfl, hheld⟩⟩
  rw [mentions, references, List.map_append, List.mem_append, hcomponents, hfacets]
  obtain ⟨owner, bond, target⟩ := m
  cases bond <;> simp [Holds, Mention.HeldBy, component?, facet?]

theorem nodup_componentReferences (name : String) (d : Declared Component) :
    ((componentReferences name d).map Reference.mention).Nodup := by
  have hinj : ∀ bond : Bond, Function.Injective fun target => (⟨name, bond, target⟩ : Mention) :=
    fun _ _ _ h => congrArg Mention.target h
  have hbase : d.model.base.toList.Nodup := by cases d.model.base <;> simp
  simp only [componentReferences, List.map_append, List.map_map, List.nodup_append']
  refine ⟨⟨hbase.map (hinj _), d.model.facets.nodup.map (hinj _), ?_⟩,
    d.model.children.nodup.map (hinj _), ?_⟩
  · simp [List.disjoint_left, Reference.mention]
  · simp [List.disjoint_left, Reference.mention]
    rintro _ (⟨_, _, rfl⟩ | ⟨_, _, rfl⟩) <;> simp

theorem nodup_facetReferences (name : String) (d : Declared Facet) :
    ((facetReferences name d).map Reference.mention).Nodup := by
  have hinj : ∀ bond : Bond, Function.Injective fun target => (⟨name, bond, target⟩ : Mention) :=
    fun _ _ _ h => congrArg Mention.target h
  simp only [facetReferences, List.map_append, List.map_map, List.nodup_append']
  refine ⟨d.model.bases.nodup.map (hinj _), d.model.children.nodup.map (hinj _), ?_⟩
  simp [List.disjoint_left, Reference.mention]

/-- Entries with different keys contribute different mentions, if each contributes its own. -/
theorem nodup_flatMap_entries {α : Type} (t : Table String α) (f : String → α → List Mention)
    (hnodup : ∀ name v, (f name v).Nodup) (howner : ∀ name v, ∀ m ∈ f name v, m.owner = name) :
    (t.entries.flatMap fun (name, v) => f name v).Nodup := by
  refine List.nodup_flatMap.2 ⟨fun e _ => hnodup e.1 e.2, ?_⟩
  refine (List.pairwise_map.1 t.nodup).imp fun {e e'} hne => ?_
  intro m hm hm'
  exact hne ((howner _ _ m hm).symm.trans (howner _ _ m hm'))

/-- A catalogue lists every mention once. -/
theorem nodup_mentions (c : Catalogue) : c.mentions.Nodup := by
  rw [mentions, references, List.map_append, List.map_flatMap, List.map_flatMap, List.nodup_append']
  refine ⟨?_, ?_, ?_⟩
  · exact nodup_flatMap_entries c.components
      (fun name d => (componentReferences name d).map Reference.mention)
      nodup_componentReferences fun _ _ _ hm => (mem_componentReferences.1 hm).1
  · exact nodup_flatMap_entries c.facets
      (fun name d => (facetReferences name d).map Reference.mention)
      nodup_facetReferences fun _ _ _ hm => (mem_facetReferences.1 hm).1
  · -- Components and facets mention in different ways.
    intro m hm hm'
    obtain ⟨e, -, hm⟩ := List.mem_flatMap.1 hm
    obtain ⟨e', -, hm'⟩ := List.mem_flatMap.1 hm'
    have h := (mem_componentReferences.1 hm).2
    have h' := (mem_facetReferences.1 hm').2
    obtain ⟨owner, bond, target⟩ := m
    cases bond <;> simp [Mention.HeldBy] at h h'

/-! ### Dropped references -/

/-- The catalogue without a mention. -/
def dropMention (c : Catalogue) (m : Mention) : Catalogue := c.drop m.owner m.bond m.target

theorem component?_modifyComponent (name n : String) (f : Component → Component) :
    (c.modifyComponent name f).component? n =
      if n = name then (c.component? n).map f else c.component? n := by
  rw [component?, component?, modifyComponent, Table.get?_modify]
  split
  · cases c.components.get? n <;> rfl
  · rfl

theorem facet?_modifyFacet (name n : String) (f : Facet → Facet) :
    (c.modifyFacet name f).facet? n = if n = name then (c.facet? n).map f else c.facet? n := by
  rw [facet?, facet?, modifyFacet, Table.get?_modify]
  split
  · cases c.facets.get? n <;> rfl
  · rfl

@[simp] theorem facet?_modifyComponent (name n : String) (f : Component → Component) :
    (c.modifyComponent name f).facet? n = c.facet? n :=
  rfl

@[simp] theorem component?_modifyFacet (name n : String) (f : Facet → Facet) :
    (c.modifyFacet name f).component? n = c.component? n :=
  rfl

theorem mem_erase {s : NameSet} {name n : String} :
    n ∈ (s.erase name).toList ↔ n ≠ name ∧ n ∈ s.toList :=
  s.nodup.mem_erase_iff

/-- Dropping a mention drops it and nothing else. -/
theorem holds_dropMention {m n : Mention} :
    (c.dropMention n).Holds m ↔ c.Holds m ∧ m ≠ n := by
  obtain ⟨owner, bond, target⟩ := m
  obtain ⟨name, way, dropped⟩ := n
  by_cases howner : owner = name
  · -- The owner changes in one of its fields, which only mentions of this kind read.
    subst howner
    cases way with
    | extendsComponent =>
      cases hc : c.component? owner with
      | none => cases bond <;> simp [Holds, Mention.HeldBy, dropMention, drop,
          component?_modifyComponent, hc]
      | some model =>
        by_cases hbase : model.base = some dropped
        · cases bond <;> simp [Holds, Mention.HeldBy, dropMention, drop,
            component?_modifyComponent, hc, hbase, eq_comm]
        · cases bond <;> simp [Holds, Mention.HeldBy, dropMention, drop,
            component?_modifyComponent, hc, hbase]
          rintro htarget rfl
          exact hbase htarget
    | carries =>
      cases hc : c.component? owner <;> cases bond <;>
        simp [Holds, Mention.HeldBy, dropMention, drop, component?_modifyComponent, mem_erase, hc,
          and_comm]
    | componentChild =>
      cases hc : c.component? owner <;> cases bond <;>
        simp [Holds, Mention.HeldBy, dropMention, drop, component?_modifyComponent, mem_erase, hc,
          and_comm]
    | extendsFacet =>
      cases hf : c.facet? owner <;> cases bond <;>
        simp [Holds, Mention.HeldBy, dropMention, drop, facet?_modifyFacet, mem_erase, hf, and_comm]
    | facetChild =>
      cases hf : c.facet? owner <;> cases bond <;>
        simp [Holds, Mention.HeldBy, dropMention, drop, facet?_modifyFacet, mem_erase, hf, and_comm]
  · have hne : (⟨owner, bond, target⟩ : Mention) ≠ ⟨name, way, dropped⟩ := fun e =>
      howner (congrArg Mention.owner e)
    rw [and_iff_left hne]
    cases way <;> cases bond <;>
      simp [Holds, Mention.HeldBy, dropMention, drop, component?_modifyComponent,
        facet?_modifyFacet, facet?_modifyComponent, component?_modifyFacet, howner]

/-- The catalogue without some mentions. -/
def dropAll (c : Catalogue) (ms : List Mention) : Catalogue := ms.foldl dropMention c

/-- Dropping mentions drops them and nothing else. -/
theorem holds_dropAll {ms : List Mention} {m : Mention} :
    (c.dropAll ms).Holds m ↔ c.Holds m ∧ m ∉ ms := by
  induction ms generalizing c with
  | nil => simp [dropAll]
  | cons n ms ih =>
    have hstep := ih (c := c.dropMention n)
    rw [holds_dropMention] at hstep
    rw [List.mem_cons, not_or, ← and_assoc]
    exact hstep

/-- Dropping mentions drops no type. -/
theorem keys_dropMention (n : Mention) :
    (c.dropMention n).components.keys = c.components.keys ∧
      (c.dropMention n).facets.keys = c.facets.keys := by
  obtain ⟨owner, bond, target⟩ := n
  cases bond
  all_goals simp [dropMention, drop, modifyComponent, modifyFacet]

theorem keys_dropAll (ms : List Mention) :
    (c.dropAll ms).components.keys = c.components.keys ∧
      (c.dropAll ms).facets.keys = c.facets.keys := by
  induction ms generalizing c with
  | nil => exact ⟨rfl, rfl⟩
  | cons n ms ih =>
    obtain ⟨hcomponents, hfacets⟩ := ih (c := c.dropMention n)
    obtain ⟨hcomponents', hfacets'⟩ := c.keys_dropMention n
    exact ⟨hcomponents.trans hcomponents', hfacets.trans hfacets'⟩

end Catalogue

/-! ### First declarations -/

/-- The component that a block declares under a name. -/
def Block.component? (name : String) : Block → Option Component
  | .declaration _ .component n inner => if n = name then some (.ofBlocks n inner) else none
  | _ => none

/-- The facet that a block declares under a name. -/
def Block.facet? (name : String) : Block → Option Facet
  | .declaration _ .facet n inner => if n = name then some (.ofBlocks n inner) else none
  | _ => none

/-- The component that the first declaration of a name describes. -/
def firstComponent (blocks : List Block) (name : String) : Option Component :=
  blocks.findSome? (Block.component? name)

/-- The facet that the first declaration of a name describes. -/
def firstFacet (blocks : List Block) (name : String) : Option Facet :=
  blocks.findSome? (Block.facet? name)

theorem exists_of_firstComponent {bs : List Block} {name : String} {c : Component}
    (h : firstComponent bs name = some c) :
    ∃ site inner, Block.declaration site .component name inner ∈ bs ∧ c = .ofBlocks name inner := by
  obtain ⟨b, hb, hdeclared⟩ := List.exists_of_findSome?_eq_some h
  unfold Block.component? at hdeclared
  split at hdeclared
  · split_ifs at hdeclared with hname
    subst hname
    exact ⟨_, _, hb, (Option.some.inj hdeclared).symm⟩
  · exact nomatch hdeclared

theorem exists_of_firstFacet {bs : List Block} {name : String} {f : Facet}
    (h : firstFacet bs name = some f) :
    ∃ site inner, Block.declaration site .facet name inner ∈ bs ∧ f = .ofBlocks name inner := by
  obtain ⟨b, hb, hdeclared⟩ := List.exists_of_findSome?_eq_some h
  unfold Block.facet? at hdeclared
  split at hdeclared
  · split_ifs at hdeclared with hname
    subst hname
    exact ⟨_, _, hb, (Option.some.inj hdeclared).symm⟩
  · exact nomatch hdeclared

/-- A mention in the first declaration of its owner. -/
def FirstMention (blocks : List Block) (m : Mention) : Prop :=
  m.HeldBy (firstComponent blocks) (firstFacet blocks)

namespace Catalogue

/-- A declaration describes its type unless one did before. -/
theorem get?_declare {α : Type} (t : Table String (Declared α)) (n name : String) (model : α)
    (site : Site) :
    ((declare t n model site).get? name).map (·.model) =
      ((t.get? name).map (·.model)).or (if n = name then some model else none) := by
  rw [declare]
  cases hget : t.get? n with
  | none =>
    dsimp only
    rw [Table.get?_insert]
    by_cases hn : n = name
    · subst hn
      simp [hget]
    · simp [hn]
  | some d =>
    dsimp only
    rw [Table.get?_insert]
    by_cases hn : n = name
    · subst hn
      simp [hget]
    · simp [hn]

theorem component?_add (c : Catalogue) (b : Block) (name : String) :
    (c.add b).component? name = (c.component? name).or (b.component? name) := by
  rw [component?, component?]
  cases b with
  | declaration site kind n inner =>
    cases kind with
    | component => exact get?_declare ..
    | facet => simp [add, Block.component?]
    | instanceOf => simp [add, Block.component?]
  | importOf | property | comment | blank => simp [add, Block.component?]

theorem facet?_add (c : Catalogue) (b : Block) (name : String) :
    (c.add b).facet? name = (c.facet? name).or (b.facet? name) := by
  rw [facet?, facet?]
  cases b with
  | declaration site kind n inner =>
    cases kind with
    | component => simp [add, Block.facet?]
    | facet => exact get?_declare ..
    | instanceOf => simp [add, Block.facet?]
  | importOf | property | comment | blank => simp [add, Block.facet?]

/-- What accumulates block by block is what the first block with a value says. -/
theorem foldl_or {β : Type} (read : Catalogue → Option β) {look : Block → Option β}
    (hadd : ∀ (c : Catalogue) b, read (c.add b) = (read c).or (look b)) (blocks : List Block)
    (c : Catalogue) : read (blocks.foldl add c) = (read c).or (blocks.findSome? look) := by
  induction blocks generalizing c with
  | nil => simp
  | cons b blocks ih =>
    rw [List.foldl_cons, ih, hadd, List.findSome?_cons, Option.or_assoc]
    cases look b <;> rfl

/-- A catalogue describes the components of the first declarations. -/
theorem component?_ofBlocks (blocks : List Block) :
    (ofBlocks blocks).component? = firstComponent blocks := by
  funext name
  exact foldl_or (fun c => c.component? name) (fun c b => component?_add c b name) blocks
    empty

/-- A catalogue describes the facets of the first declarations. -/
theorem facet?_ofBlocks (blocks : List Block) : (ofBlocks blocks).facet? = firstFacet blocks := by
  funext name
  exact foldl_or (fun c => c.facet? name) (fun c b => facet?_add c b name) blocks empty

/-- A catalogue holds what the first declarations mention. -/
theorem holds_ofBlocks {blocks : List Block} {m : Mention} :
    (ofBlocks blocks).Holds m ↔ FirstMention blocks m := by
  rw [Holds, component?_ofBlocks, facet?_ofBlocks]
  exact Iff.rfl

end Catalogue

end Deployment

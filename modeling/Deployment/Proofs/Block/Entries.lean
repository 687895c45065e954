import Deployment.Catalogue
import Deployment.Proofs.Draft.Body

/-!
# Entries of list values

The check of a block and the aggregation of what it declares read list values independently of each
other: whatever the aggregation passes over, the check should have reported. It reports entries of
types that cannot be read, and all but the first of several properties of one name. It does not
report an entry of `data` that says nothing for want of `=`, nor one that another takes the place of
because it says something else under the same name.

* `lastUnder`: what stands last under a name;
* `Component.represents`, `Facet.represents`, `Instance.represents`: whether an entry is represented
  in what a declaration describes;
* `Block.standsInType`, `Block.standsInInstance`: whether an entry is readable and not replaced;
* `Block.represents_eq_of_check`: in blocks in which nothing is found, these are the same.
-/

namespace Deployment

/-! ### Tables of what was said last -/

/-- What stands last under a name in a list. -/
def lastUnder {α : Type} (name : String) (said : List (String × α)) : Option α :=
  (said.filter (·.1 = name)).getLast?.map Prod.snd

theorem lastUnder_cons {α : Type} (name : String) (p : String × α) (said : List (String × α)) :
    lastUnder name (p :: said) =
      (lastUnder name said).or (if p.1 = name then some p.2 else none) := by
  rw [lastUnder, lastUnder]
  by_cases hp : p.1 = name
  · rw [List.filter_cons_of_pos (by simpa using hp), List.getLast?_cons, if_pos hp]
    cases (said.filter (·.1 = name)).getLast? <;> rfl
  · rw [List.filter_cons_of_neg (by simpa using hp), if_neg hp, Option.or_none]

/-- A table has under a name what was inserted last under it. -/
theorem Table.get?_foldl_insert {α : Type} (said : List (String × α)) (t : Table String α)
    (name : String) :
    (said.foldl (fun t p => t.insert p.1 p.2) t).get? name =
      (lastUnder name said).or (t.get? name) := by
  induction said generalizing t with
  | nil => rfl
  | cons p said ih =>
    rw [List.foldl_cons, ih, Table.get?_insert, lastUnder_cons, Option.or_assoc]
    split <;> rfl

/-- Whether a table has what an entry says under the name under which it says it; what cannot be
    read says nothing. -/
def Table.records {α : Type} [DecidableEq α] (t : Table String α) (entry : Option (String × α)) :
    Bool :=
  entry.any fun p => t.get? p.1 = some p.2

/-- Whether an entry can be read and what it says is the last that is said under its name. -/
def stands {α : Type} [DecidableEq α] (said : List (String × α)) (entry : Option (String × α)) :
    Bool :=
  entry.any fun p => lastUnder p.1 said = some p.2

/-- A table made of what was said has what stands. -/
theorem records_foldl_insert {α : Type} [DecidableEq α] (said : List (String × α))
    (entry : Option (String × α)) :
    (said.foldl (fun t p => t.insert p.1 p.2) Table.empty).records entry = stands said entry := by
  have hempty : ∀ name, (Table.empty : Table String α).get? name = none := fun _ => rfl
  simp only [Table.records, stands, Table.get?_foldl_insert, hempty, Option.or_none]

/-! ### Types -/

/-- What an entry of `exports` declares, with its name. -/
def ExportedVariable.named (entry : String) : Option (String × ExportedVariable) :=
  (parse entry).map fun v => (v.name, v)

/-- What an entry of `imports` declares, with its name. -/
def ImportedVariable.named (entry : String) : Option (String × ImportedVariable) :=
  (parse entry).map fun v => (v.name, v)

/-- A table of what can be read is a table of what was said. -/
theorem foldl_insert_filterMap {α : Type} (read : String → Option α) (name : α → String)
    (entries : List String) (t : Table String α) :
    (entries.filterMap read).foldl (fun t v => t.insert (name v) v) t =
      (entries.filterMap fun entry => (read entry).map fun v => (name v, v)).foldl
        (fun t p => t.insert p.1 p.2) t := by
  rw [← List.map_filterMap, List.foldl_map]

/-- The table of exported variables has the entries that stand. -/
theorem records_exportsOf (value entry : String) :
    (exportsOf Table.empty value).records (ExportedVariable.named entry) =
      stands ((Text.entries value).filterMap ExportedVariable.named)
        (ExportedVariable.named entry) := by
  rw [exportsOf, foldl_insert_filterMap]
  exact records_foldl_insert _ _

/-- The table of imported variables has the entries that stand. -/
theorem records_importsOf (value entry : String) :
    (importsOf Table.empty value).records (ImportedVariable.named entry) =
      stands ((Text.entries value).filterMap ImportedVariable.named)
        (ImportedVariable.named entry) := by
  rw [importsOf, foldl_insert_filterMap]
  exact records_foldl_insert _ _

/-- The set that a list of names makes has the name of every entry. -/
theorem contains_insertMany_names {value entry : String} (h : entry ∈ Text.entries value) :
    (NameSet.empty.insertMany (Text.names value)).contains (Text.unquote entry) = true := by
  rw [NameSet.contains, List.contains_iff_mem, NameSet.mem_insertMany, Text.names_eq_map]
  exact .inr (List.mem_map_of_mem h)

/-- Whether an entry of a property of a type can be read. -/
def Block.isReadable (p : String × String) (entry : String) : Bool :=
  match p.1 with
  | "exports" => (ExportedVariable.named entry).isSome
  | "imports" => (ImportedVariable.named entry).isSome
  | _ => true

/-- Whether an entry of a property of a type is readable and not replaced by a later one. -/
def Block.standsInType (p : String × String) (entry : String) : Bool :=
  match p.1 with
  | "exports" => stands ((Text.entries p.2).filterMap ExportedVariable.named)
      (ExportedVariable.named entry)
  | "imports" => stands ((Text.entries p.2).filterMap ImportedVariable.named)
      (ImportedVariable.named entry)
  | _ => true

/-- A property that is not one of a name has another name. -/
theorem ne_of_forall {p : String × String} {name : String}
    (h : ∀ value, p = (name, value) → False) : p.1 ≠ name :=
  fun hname => h p.2 (Prod.ext hname rfl)

namespace Component

/-- The properties of a component that are lists. -/
def listProperties : List String := ["exports", "imports", "extends", "facets", "children"]

/-- Whether an entry of a list is represented in a component. -/
def represents (c : Component) (property entry : String) : Bool :=
  match property with
  | "exports" => c.exports.records (ExportedVariable.named entry)
  | "imports" => c.imports.records (ImportedVariable.named entry)
  | "extends" => c.base == some (Text.unquote entry)
  | "facets" => c.facets.contains (Text.unquote entry)
  | "children" => c.children.contains (Text.unquote entry)
  | _ => false

/-- A property changes what is its own. -/
theorem addProperty_eq (c : Component) (p : String × String) :
    c.addProperty p =
      { name := c.name
        installer := if p.1 = "installer" then some (Text.unquote p.2) else c.installer
        exports := if p.1 = "exports" then exportsOf c.exports p.2 else c.exports
        imports := if p.1 = "imports" then importsOf c.imports p.2 else c.imports
        base := if p.1 = "extends" then (Text.names p.2).head? else c.base
        facets := if p.1 = "facets" then c.facets.insertMany (Text.names p.2) else c.facets
        children := if p.1 = "children" then c.children.insertMany (Text.names p.2)
          else c.children } := by
  unfold addProperty
  split
  case h_7 hinstaller hextends hfacets hchildren himports hexports =>
    rw [if_neg (ne_of_forall hinstaller), if_neg (ne_of_forall hexports),
      if_neg (ne_of_forall himports), if_neg (ne_of_forall hextends),
      if_neg (ne_of_forall hfacets), if_neg (ne_of_forall hchildren)]
  all_goals rfl

variable {name : String} {inner : List Block} {property value entry : String}

/-- Of the entries of a component in which nothing is found, those that stand are represented. -/
theorem represents_ofBlocks (hnodup : ((Block.properties inner).map Prod.fst).Nodup)
    (hfine : ∀ p ∈ Block.properties inner, Block.FineProperty .component componentProperties p)
    (hmem : (property, value) ∈ Block.properties inner) (hproperty : property ∈ listProperties)
    (hentry : entry ∈ Text.entries value) :
    (ofBlocks name inner).represents property entry =
      Block.standsInType (property, value) entry := by
  have hread : ∀ {β : Type} (read : Component → β) (change : β → String → β),
      (∀ c p, read (addProperty c p) = if p.1 = property then change (read c) p.2 else read c) →
        read (ofBlocks name inner) = change (read (.named name)) value := by
    intro β read change hstep
    exact InstanceDeclaration.read_foldl_of_nodup read change hstep hnodup hmem _
  simp only [listProperties, List.mem_cons, List.not_mem_nil, or_false] at hproperty
  rcases hproperty with rfl | rfl | rfl | rfl | rfl
  · have hexports := hread exports exportsOf fun c p => congrArg exports (c.addProperty_eq p)
    change (ofBlocks name inner).exports.records _ = _
    rw [hexports]
    exact records_exportsOf value entry
  · have himports := hread imports importsOf fun c p => congrArg imports (c.addProperty_eq p)
    change (ofBlocks name inner).imports.records _ = _
    rw [himports]
    exact records_importsOf value entry
  · have hbase := hread base (fun _ value => (Text.names value).head?) fun c p =>
      congrArg base (c.addProperty_eq p)
    -- A component names one component to extend.
    obtain ⟨only, hone⟩ := List.length_eq_one_iff.1
      (Nat.le_antisymm ((hfine _ hmem).single rfl rfl) (List.length_pos_of_mem hentry))
    rw [hone, List.mem_singleton] at hentry
    subst hentry
    change ((ofBlocks name inner).base == _) = _
    rw [hbase, Text.names_eq_map, hone]
    exact beq_self_eq_true _
  · have hfacets := hread facets (fun s value => s.insertMany (Text.names value))
      fun c p => congrArg facets (c.addProperty_eq p)
    change (ofBlocks name inner).facets.contains _ = _
    rw [hfacets]
    exact contains_insertMany_names hentry
  · have hchildren := hread children (fun s value => s.insertMany (Text.names value))
      fun c p => congrArg children (c.addProperty_eq p)
    change (ofBlocks name inner).children.contains _ = _
    rw [hchildren]
    exact contains_insertMany_names hentry

end Component

namespace Facet

/-- The properties of a facet that are lists. -/
def listProperties : List String := ["exports", "extends", "children"]

/-- Whether an entry of a list is represented in a facet. -/
def represents (f : Facet) (property entry : String) : Bool :=
  match property with
  | "exports" => f.exports.records (ExportedVariable.named entry)
  | "extends" => f.bases.contains (Text.unquote entry)
  | "children" => f.children.contains (Text.unquote entry)
  | _ => false

/-- A property changes what is its own. -/
theorem addProperty_eq (f : Facet) (p : String × String) :
    f.addProperty p =
      { name := f.name
        exports := if p.1 = "exports" then exportsOf f.exports p.2 else f.exports
        bases := if p.1 = "extends" then f.bases.insertMany (Text.names p.2) else f.bases
        children := if p.1 = "children" then f.children.insertMany (Text.names p.2)
          else f.children } := by
  unfold addProperty
  split
  case h_4 hextends hchildren hexports =>
    rw [if_neg (ne_of_forall hexports), if_neg (ne_of_forall hextends),
      if_neg (ne_of_forall hchildren)]
  all_goals rfl

variable {name : String} {inner : List Block} {property value entry : String}

/-- Of the entries of a facet in which nothing is found, those that stand are represented. -/
theorem represents_ofBlocks (hnodup : ((Block.properties inner).map Prod.fst).Nodup)
    (hmem : (property, value) ∈ Block.properties inner) (hproperty : property ∈ listProperties)
    (hentry : entry ∈ Text.entries value) :
    (ofBlocks name inner).represents property entry =
      Block.standsInType (property, value) entry := by
  have hread : ∀ {β : Type} (read : Facet → β) (change : β → String → β),
      (∀ f p, read (addProperty f p) = if p.1 = property then change (read f) p.2 else read f) →
        read (ofBlocks name inner) = change (read (.named name)) value := by
    intro β read change hstep
    exact InstanceDeclaration.read_foldl_of_nodup read change hstep hnodup hmem _
  simp only [listProperties, List.mem_cons, List.not_mem_nil, or_false] at hproperty
  rcases hproperty with rfl | rfl | rfl
  · have hexports := hread exports exportsOf fun f p => congrArg exports (f.addProperty_eq p)
    change (ofBlocks name inner).exports.records _ = _
    rw [hexports]
    exact records_exportsOf value entry
  · have hbases := hread bases (fun s value => s.insertMany (Text.names value))
      fun f p => congrArg bases (f.addProperty_eq p)
    change (ofBlocks name inner).bases.contains _ = _
    rw [hbases]
    exact contains_insertMany_names hentry
  · have hchildren := hread children (fun s value => s.insertMany (Text.names value))
      fun f p => congrArg children (f.addProperty_eq p)
    change (ofBlocks name inner).children.contains _ = _
    rw [hchildren]
    exact contains_insertMany_names hentry

end Facet

/-! ### Instances -/

namespace Instance

/-- The properties of an instance that are lists. -/
def listProperties : List String := ["channels", "data"]

/-- Whether an entry of a list is represented in an instance. -/
def represents (i : Instance) (property entry : String) : Bool :=
  match property with
  | "channels" => i.channels.contains (Text.unquote entry)
  | "data" => i.data.records (dataEntry entry)
  | _ => false

/-- The data that a property gives, in order. -/
def dataOf (p : String × String) : List (String × String) :=
  if p.1 = "data" then (Text.entries p.2).filterMap dataEntry
  else ((Text.after? "data." p.1).map fun key => (key, Text.unquote p.2)).toList

theorem dataOf_of_own {key : String} (hown : key ∈ ownProperties) (hdata : key ≠ "data")
    (value : String) : dataOf (key, value) = [] := by
  rw [dataOf, if_neg hdata, after?_of_mem_ownProperties hown]
  rfl

/-- Every property adds its data, be it a list of them or one. -/
theorem data_addProperty (i : Instance) (p : String × String) :
    (i.addProperty p).data = insertAll i.data (dataOf p) := by
  unfold addProperty
  split
  case h_5 =>
    rw [dataOf, if_pos rfl]
  case h_6 key _ _ _ _ _ hdata =>
    rw [dataOf, if_neg hdata]
    dsimp only
    cases Text.after? "data." key <;> rfl
  all_goals
    rw [dataOf_of_own (by decide) (by decide)]
    rfl

theorem data_foldl_addProperty (props : List (String × String)) (i : Instance) :
    (props.foldl addProperty i).data = insertAll i.data (props.flatMap dataOf) := by
  induction props generalizing i with
  | nil => rfl
  | cons p props ih =>
    rw [List.foldl_cons, ih, data_addProperty, List.flatMap_cons, insertAll, insertAll, insertAll,
      List.foldl_append]

end Instance

/-- Whether an entry of a property of an instance is readable and not replaced by a later one, of
    the same property or another. -/
def Block.standsInInstance (inner : List Block) (p : String × String) (entry : String) : Bool :=
  match p.1 with
  | "data" => stands ((Block.properties inner).flatMap Instance.dataOf) (Instance.dataEntry entry)
  | _ => true

/-- Of the entries of a declaration in which nothing is found, those that stand are represented. -/
theorem InstanceDeclaration.Clean.represents_draft {b : InstanceDeclaration} (h : b.Clean)
    {property value entry : String} (hmem : (property, value) ∈ Block.properties b.inner)
    (hproperty : property ∈ Instance.listProperties) (hentry : entry ∈ Text.entries value) :
    b.draft.body.represents property entry =
      Block.standsInInstance b.inner (property, value) entry := by
  simp only [Instance.listProperties, List.mem_cons, List.not_mem_nil, or_false] at hproperty
  rcases hproperty with rfl | rfl
  · have hchannels : b.draft.body.channels = _ := read_foldl_of_nodup Instance.channels
      (fun s value => s.insertMany (Text.names value)) Instance.channels_addProperty h.nodup hmem
      (.named "" b.component)
    change b.draft.body.channels.contains _ = _
    rw [hchannels]
    exact contains_insertMany_names hentry
  · have hdata : b.draft.body.data = _ := Instance.data_foldl_addProperty
      (Block.properties b.inner) (.named "" b.component)
    change b.draft.body.data.records _ = _
    rw [hdata]
    exact records_foldl_insert _ _

/-! ### Blocks in which nothing is found -/

namespace Block

theorem isReadable_of_fine {kind : DeclarationKind} {allowed : List String} {p : String × String}
    (h : FineProperty kind allowed p) {entry : String} (hentry : entry ∈ Text.entries p.2) :
    isReadable p entry = true := by
  unfold isReadable
  split
  · next hp => exact Option.isSome_map.trans (h.exports hp entry hentry)
  · next hp => exact Option.isSome_map.trans (h.imports hp entry hentry)
  · rfl

theorem clean_of_within_single {b : Block} (h : b.check = []) {d : InstanceDeclaration}
    (hd : Within [b] d) : d.Clean := by
  refine InstanceDeclaration.clean_of_within (fun c hc => ?_) hd
  obtain rfl := List.mem_singleton.1 (mem_instances.1 hc)
  exact h

/-- In a block in which nothing is found, every entry of a list that belongs to a type is readable.
    Represented in what is declared are exactly those entries, of types and of instances at any
    depth, that are readable and that no later one replaces. -/
theorem represents_eq_of_check {b : Block} (h : b.check = []) :
    (∀ site name inner, b = .declaration site .component name inner →
      ∀ p ∈ properties inner, p.1 ∈ Component.listProperties → ∀ entry ∈ Text.entries p.2,
        isReadable p entry = true ∧
          (Component.ofBlocks name inner).represents p.1 entry = standsInType p entry) ∧
    (∀ site name inner, b = .declaration site .facet name inner →
      ∀ p ∈ properties inner, p.1 ∈ Facet.listProperties → ∀ entry ∈ Text.entries p.2,
        isReadable p entry = true ∧
          (Facet.ofBlocks name inner).represents p.1 entry = standsInType p entry) ∧
    ∀ d, Within [b] d →
      ∀ p ∈ properties d.inner, p.1 ∈ Instance.listProperties → ∀ entry ∈ Text.entries p.2,
        d.draft.body.represents p.1 entry = standsInInstance d.inner p entry := by
  refine ⟨?_, ?_, fun d hd p hp hlist entry hentry => ?_⟩
  · rintro site name inner rfl p hp hlist entry hentry
    obtain ⟨-, hnodup, hfine, -⟩ := checkType_eq_nil_iff.1 h
    exact ⟨isReadable_of_fine (hfine p hp) hentry,
      Component.represents_ofBlocks hnodup hfine hp hlist hentry⟩
  · rintro site name inner rfl p hp hlist entry hentry
    obtain ⟨-, hnodup, hfine, -⟩ := checkType_eq_nil_iff.1 h
    exact ⟨isReadable_of_fine (hfine p hp) hentry,
      Facet.represents_ofBlocks hnodup hp hlist hentry⟩
  · exact (clean_of_within_single h hd).represents_draft hp hlist hentry

/-- A machine with two data entries, of which one has no `=`. -/
def loose : InstanceDeclaration where
  site := ⟨⟨"loose.instances"⟩, 3⟩
  component := "VM"
  inner := [.property ⟨⟨"loose.instances"⟩, 4⟩ "name" "vm",
    .property ⟨⟨"loose.instances"⟩, 5⟩ "data" "k, a = 1"]

/-- A rack with the machine. -/
def looseRack : InstanceDeclaration where
  site := ⟨⟨"loose.instances"⟩, 1⟩
  component := "Rack"
  inner := [.property ⟨⟨"loose.instances"⟩, 2⟩ "name" "rack",
    .declaration loose.site .instanceOf loose.component loose.inner]

theorem represents_eq_of_check_loose :
    check (.declaration looseRack.site .instanceOf looseRack.component looseRack.inner) = [] ∧
      loose.draft.body.represents "data" "a = 1" = true ∧
      loose.draft.body.represents "data" "k" = false := by
  have hcheck : check (.declaration looseRack.site .instanceOf looseRack.component
      looseRack.inner) = [] := by
    decide +kernel
  have hrack : looseRack ∈ instances
      [.declaration looseRack.site .instanceOf looseRack.component looseRack.inner] :=
    mem_instances.2 (List.mem_singleton_self _)
  have hloose : loose ∈ instances looseRack.inner :=
    mem_instances.2 (List.mem_cons_of_mem _ List.mem_cons_self)
  have hwithin := Within.inside hrack (.here hloose)
  have hstands := (represents_eq_of_check hcheck).2.2 loose hwithin ("data", "k, a = 1")
    (List.mem_cons_of_mem _ List.mem_cons_self) (by decide)
  refine ⟨hcheck, (hstands "a = 1" (by decide +kernel)).trans ?_,
    (hstands "k" (by decide +kernel)).trans ?_⟩
  · decide +kernel
  · decide +kernel

/-- A component that declares a variable twice, and imports one twice. -/
def twofold : List Block :=
  [.property ⟨⟨"twofold.graph"⟩, 2⟩ "exports" "port = 80, port = 8080",
    .property ⟨⟨"twofold.graph"⟩, 3⟩ "imports" "Db.port, Db.port (optional)"]

/-- Nothing is found about entries that say nothing, or something else than a later one, and they
    are not represented. -/
theorem entries_dropped :
    (check (.declaration ⟨⟨"loose.instances"⟩, 3⟩ .instanceOf "VM" loose.inner) = [] ∧
      "k" ∈ Text.entries "k, a = 1" ∧ loose.draft.body.represents "data" "k" = false) ∧
    check (.declaration ⟨⟨"twofold.graph"⟩, 1⟩ .component "VM" twofold) = [] ∧
      "port = 80" ∈ Text.entries "port = 80, port = 8080" ∧
      (Component.ofBlocks "VM" twofold).represents "exports" "port = 80" = false ∧
      "Db.port" ∈ Text.entries "Db.port, Db.port (optional)" ∧
      (Component.ofBlocks "VM" twofold).represents "imports" "Db.port" = false := by
  decide +kernel

end Block

end Deployment

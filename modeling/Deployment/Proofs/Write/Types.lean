import Deployment.Proofs.TypeGraph
import Deployment.Proofs.Write.Exports
import Deployment.Proofs.Write.Written

/-!
# Written types

The declaration of a component or a facet that was read from a declaration without diagnostics. It
is read as what it was, up to its installer, which is written without quotes, and its exports
(`ofBlocks_component`, `ofBlocks_facet`), and these two are also all that its check may find
something wrong with (`check_component_eq_nil_iff`, `check_facet_eq_nil_iff`).

* `Component.Valid`, `Facet.Valid`: what a declaration without diagnostics describes;
* `Component.reread`, `Facet.reread`: what is read from the written declaration.
-/

namespace Deployment

/-- A component as a declaration without diagnostics describes it. -/
structure Component.Valid (c : Component) : Prop where
  name : isTypeName c.name
  installer : ∀ s, c.installer = some s → s ≠ ""
  base : ∀ n ∈ c.base.toList, isTypeName n
  facets : ∀ n ∈ c.facets.toList, isTypeName n
  children : ∀ n ∈ c.children.toList, isTypeName n
  imports : ImportsValid c.imports
  exports : ExportsValid c.exports

/-- A facet as a declaration without diagnostics describes it. -/
structure Facet.Valid (f : Facet) : Prop where
  name : isTypeName f.name
  bases : ∀ n ∈ f.bases.toList, isTypeName n
  children : ∀ n ∈ f.children.toList, isTypeName n
  exports : ExportsValid f.exports

/-- The component that is read where one was written. -/
def Component.reread (c : Component) : Component :=
  { c with installer := c.installer.map Text.unquote
           exports := exportsOf .empty (exportsText c.exports.values) }

/-- The facet that is read where one was written. -/
def Facet.reread (f : Facet) : Facet :=
  { f with exports := exportsOf .empty (exportsText f.exports.values) }

/-! ### Declarations without diagnostics -/

theorem isTypeName_of_mem_insertMany {s : NameSet} {names : List String}
    (hs : ∀ n ∈ s.toList, isTypeName n) (hnames : ∀ n ∈ names, isTypeName n) :
    ∀ n ∈ (s.insertMany names).toList, isTypeName n := by
  intro n hn
  rcases NameSet.mem_insertMany.1 hn with hn | hn
  · exact hs n hn
  · exact hnames n hn

namespace Component

variable {c : Component}

theorem valid_addProperty (h : c.Valid) {p : String × String}
    (hp : Block.FineProperty .component componentProperties p) : (c.addProperty p).Valid := by
  unfold addProperty
  split
  · exact { h with installer := fun s hs => Option.some.inj hs ▸ hp.value }
  · next value =>
    refine { h with base := fun n hn => hp.names (.inl rfl) n ?_ }
    exact List.mem_of_mem_head? (Option.mem_def.2 (Option.mem_toList.1 hn))
  · exact { h with facets := isTypeName_of_mem_insertMany h.facets (hp.names (.inr (.inl rfl))) }
  · exact { h with
      children := isTypeName_of_mem_insertMany h.children (hp.names (.inr (.inr rfl))) }
  · exact { h with imports := importsValid_importsOf h.imports _ }
  · exact { h with exports := exportsValid_exportsOf h.exports _ }
  · exact h

theorem valid_ofBlocks {site : Site} {name : String} {inner : List Block}
    (h : (Block.declaration site .component name inner).check = []) :
    (ofBlocks name inner).Valid := by
  obtain ⟨hname, -, hfine, -⟩ := Block.checkType_eq_nil_iff.1 h
  have hnamed : (named name).Valid :=
    ⟨hname, fun _ h => (nomatch h), fun _ h => (nomatch h), fun _ h => (nomatch h),
      fun _ h => (nomatch h), Table.filed_empty, Table.filed_empty⟩
  exact List.foldlRecOn _ _ hnamed fun c hc p hp => valid_addProperty hc (hfine p hp)

end Component

namespace Facet

variable {f : Facet}

theorem valid_addProperty (h : f.Valid) {p : String × String}
    (hp : Block.FineProperty .facet facetProperties p) : (f.addProperty p).Valid := by
  unfold addProperty
  split
  · exact { h with bases := isTypeName_of_mem_insertMany h.bases (hp.names (.inl rfl)) }
  · exact { h with
      children := isTypeName_of_mem_insertMany h.children (hp.names (.inr (.inr rfl))) }
  · exact { h with exports := exportsValid_exportsOf h.exports _ }
  · exact h

theorem valid_ofBlocks {site : Site} {name : String} {inner : List Block}
    (h : (Block.declaration site .facet name inner).check = []) : (ofBlocks name inner).Valid := by
  obtain ⟨hname, -, hfine, -⟩ := Block.checkType_eq_nil_iff.1 h
  have hnamed : (named name).Valid :=
    ⟨hname, fun _ h => (nomatch h), fun _ h => (nomatch h), Table.filed_empty⟩
  exact List.foldlRecOn _ _ hnamed fun f hf p hp => valid_addProperty hf (hfine p hp)

end Facet

/-! ### Properties of written declarations -/

/-- The inner blocks of a declaration. -/
def Block.inner : Block → List Block
  | .declaration _ _ _ inner => inner
  | _ => []

namespace Write

/-- The property that a list of entries is written as, if there are any. -/
def listPairs (name : String) (entries : List String) : List (String × String) :=
  if entries = [] then [] else [(name, Text.join ", " entries)]

theorem properties_listProperty (name : String) (entries : List String) :
    Block.properties (listProperty name entries) = listPairs name entries := by
  rw [listProperty, listPairs]
  split <;> rfl

theorem join_singleton (value : String) : Text.join ", " [value] = value := by
  rw [Text.join, List.map_cons, List.map_nil, List.intercalate_singleton, String.ofList_toList]

/-- A single value is written like a list of one entry. -/
theorem properties_optionalProperty (name : String) (value : Option String) :
    Block.properties (optionalProperty name value) = listPairs name value.toList := by
  cases value with
  | none => rfl
  | some value =>
    rw [Option.toList_some, listPairs, if_neg (List.cons_ne_nil _ _), join_singleton]
    rfl

theorem properties_append (bs bs' : List Block) :
    Block.properties (bs ++ bs') = Block.properties bs ++ Block.properties bs' :=
  List.filterMap_append

/-- A written list is read as one property, if a property without entries changes nothing. -/
theorem foldl_listPairs {α : Type} {add : α → String × String → α} {a : α} {name : String}
    (hnil : add a (name, Text.join ", " []) = a) (entries : List String) :
    (listPairs name entries).foldl add a = add a (name, Text.join ", " entries) := by
  rw [listPairs]
  split
  · next h =>
    rw [h, hnil]
    rfl
  · rfl

theorem map_fst_listPairs (name : String) (entries : List String) :
    ((listPairs name entries).map Prod.fst).Sublist [name] := by
  rw [listPairs]
  split
  · exact List.nil_sublist _
  · exact List.Sublist.refl _

theorem forall_mem_listPairs {P : String × String → Prop} {name : String} {entries : List String} :
    (∀ p ∈ listPairs name entries, P p) ↔ (entries ≠ [] → P (name, Text.join ", " entries)) := by
  rw [listPairs]
  split
  · next h => exact ⟨fun _ hne => absurd h hne, fun _ p hp => nomatch hp⟩
  · next h => exact ⟨fun hp _ => hp _ List.mem_cons_self,
      fun hp q hq => List.mem_singleton.1 hq ▸ hp h⟩

theorem belongs_listProperty (name : String) (entries : List String) :
    ∀ b ∈ listProperty name entries, b.Belongs := by
  rw [listProperty]
  split
  · exact fun b hb => absurd hb List.not_mem_nil
  · intro b hb
    rw [List.mem_singleton.1 hb]
    exact .inl ⟨_, rfl⟩

theorem belongs_optionalProperty (name : String) (value : Option String) :
    ∀ b ∈ optionalProperty name value, b.Belongs := by
  intro b hb
  obtain ⟨v, -, rfl⟩ := List.mem_map.1 hb
  exact .inl ⟨_, rfl⟩

theorem properties_component (c : Component) :
    Block.properties (component c).inner =
      listPairs "installer" c.installer.toList ++ listPairs "extends" c.base.toList ++
        listPairs "facets" c.facets.toList ++
        listPairs "imports" (c.imports.values.map ImportedVariable.text) ++
        listPairs "exports" (c.exports.values.map ExportedVariable.text) ++
        listPairs "children" c.children.toList := by
  simp only [component, Block.inner, properties_append, properties_optionalProperty,
    properties_listProperty]

theorem properties_facet (f : Facet) :
    Block.properties (facet f).inner =
      listPairs "extends" f.bases.toList ++
        listPairs "exports" (f.exports.values.map ExportedVariable.text) ++
        listPairs "children" f.children.toList := by
  simp only [facet, Block.inner, properties_append, properties_listProperty]

/-! ### What is read -/

theorem names_join {names : List String} (h : ∀ n ∈ names, isTypeName n) :
    Text.names (Text.join ", " names) = names :=
  Text.names_join fun n hn => plainText_of_isTypeName (h n hn)

/-- A written component is read as it was, up to its installer and its exports. -/
theorem ofBlocks_component {c : Component} (h : c.Valid) :
    Component.ofBlocks c.name (component c).inner = c.reread := by
  have hinstaller : (listPairs "installer" c.installer.toList).foldl Component.addProperty
      (.named c.name) =
        { Component.named c.name with installer := c.installer.map Text.unquote } := by
    cases c.installer with
    | none => rfl
    | some value =>
      rw [Option.toList_some, listPairs, if_neg (List.cons_ne_nil _ _), join_singleton]
      rfl
  rw [Component.ofBlocks, properties_component]
  simp only [List.foldl_append]
  rw [hinstaller, foldl_listPairs rfl, foldl_listPairs rfl, foldl_listPairs rfl,
    foldl_listPairs rfl, foldl_listPairs rfl]
  simp only [Component.addProperty, Component.named, names_join h.base, names_join h.facets,
    names_join h.children, importsOf_join h.imports, NameSet.insertMany_toList, Component.reread,
    exportsText]
  cases c.base <;> rfl

/-- A written facet is read as it was, up to its exports. -/
theorem ofBlocks_facet {f : Facet} (h : f.Valid) :
    Facet.ofBlocks f.name (facet f).inner = f.reread := by
  rw [Facet.ofBlocks, properties_facet]
  simp only [List.foldl_append]
  rw [foldl_listPairs rfl, foldl_listPairs rfl, foldl_listPairs rfl]
  simp only [Facet.addProperty, Facet.named, names_join h.bases, names_join h.children,
    NameSet.insertMany_toList, Facet.reread, exportsText]

/-! ### What is checked -/

section Check

variable {kind : DeclarationKind} {allowed : List String} {name : String} {entries : List String}

theorem fine_names (hallowed : name ∈ allowed)
    (hname : name = "extends" ∨ name = "facets" ∨ name = "children")
    (h : ∀ n ∈ entries, isTypeName n) (hne : entries ≠ [])
    (hsingle : name = "extends" → kind = .component → entries.length ≤ 1) :
    Block.FineProperty kind allowed (name, Text.join ", " entries) := by
  have hinert : ∀ n ∈ entries, Inert n.toList := fun n hn =>
    (plainText_of_isTypeName (h n hn)).inert
  constructor
  case allowed => exact hallowed
  case value => exact Text.unquote_join_ne hne fun n hn => (hinert n hn).exists_cons
  case exports =>
    rintro rfl
    simp at hname
  case imports =>
    rintro rfl
    simp at hname
  case names =>
    intro _
    rw [names_join h]
    exact h
  case single =>
    rw [Text.entries_join_of_inert hinert]
    exact hsingle

theorem fine_imports (hallowed : "imports" ∈ allowed) {vs : List ImportedVariable}
    (h : ∀ v ∈ vs, ImportedVariable.isQualified v.name) (hne : vs ≠ []) :
    Block.FineProperty kind allowed ("imports", Text.join ", " (vs.map ImportedVariable.text)) := by
  have hinert : ∀ e ∈ vs.map ImportedVariable.text, Inert e.toList :=
    List.forall_mem_map.2 fun v hv => ImportedVariable.inert_text (h v hv)
  constructor
  case allowed => exact hallowed
  case value =>
    exact Text.unquote_join_ne (by simpa using hne) fun e he => (hinert e he).exists_cons
  case exports => simp
  case imports =>
    intro _
    rw [Text.entries_join_of_inert hinert]
    exact List.forall_mem_map.2 fun v hv => by rw [ImportedVariable.parse_text (h v hv)]; rfl
  case names => simp
  case single => simp

theorem fine_exports_iff (hallowed : "exports" ∈ allowed) {vs : List ExportedVariable}
    (h : ∀ v ∈ vs, v.Valid) (hne : vs ≠ []) :
    Block.FineProperty kind allowed ("exports", Text.join ", " (vs.map ExportedVariable.text)) ↔
      ∀ e ∈ Text.entries (exportsText vs), (ExportedVariable.parse e).isSome := by
  constructor
  · exact fun hfine => hfine.exports rfl
  · intro hread
    constructor
    case allowed => exact hallowed
    case value =>
      refine Text.unquote_join_ne (by simpa using hne) (List.forall_mem_map.2 fun v hv => ?_)
      obtain ⟨c, s, hs⟩ := List.exists_cons_of_ne_nil (h v hv).declaration_ne_nil
      refine ⟨c, s ++ v.setting, by rw [ExportedVariable.toList_text, hs]; rfl,
        (h v hv).trimmed_declaration.head c (by rw [hs]; rfl), ?_⟩
      rintro rfl
      refine (h v hv).not_mem_declaration (c := '"') (by decide) (by decide) ?_
      rw [hs]
      exact List.mem_cons_self
    case exports => exact fun _ => hread
    case imports => simp
    case names => simp
    case single => simp

end Check

variable {file : Path} {line : Nat}

theorem belongs_component (c : Component) : ∀ b ∈ (component c).inner, b.Belongs := by
  simp only [component, Block.inner, List.mem_append]
  rintro b (((((hb | hb) | hb) | hb) | hb) | hb)
  · exact belongs_optionalProperty _ _ b hb
  · exact belongs_optionalProperty _ _ b hb
  · exact belongs_listProperty _ _ b hb
  · exact belongs_listProperty _ _ b hb
  · exact belongs_listProperty _ _ b hb
  · exact belongs_listProperty _ _ b hb

theorem nodup_properties_component (c : Component) :
    ((Block.properties (component c).inner).map Prod.fst).Nodup := by
  have hsub : ((Block.properties (component c).inner).map Prod.fst).Sublist
      ["installer", "extends", "facets", "imports", "exports", "children"] := by
    simp only [properties_component, List.map_append]
    exact (((((map_fst_listPairs ..).append (map_fst_listPairs ..)).append
      (map_fst_listPairs ..)).append (map_fst_listPairs ..)).append (map_fst_listPairs ..)).append
      (map_fst_listPairs ..)
  exact hsub.nodup (by decide)

/-- If there is something to export, it is fine exactly if it can be read. -/
theorem fine_exports_of_valid_iff {t : Table String ExportedVariable} (h : ExportsValid t)
    (kind : DeclarationKind) {allowed : List String} (hallowed : "exports" ∈ allowed) :
    (t.values.map ExportedVariable.text ≠ [] → Block.FineProperty kind allowed
        ("exports", Text.join ", " (t.values.map ExportedVariable.text))) ↔
      ∀ e ∈ Text.entries (exportsText t.values), (ExportedVariable.parse e).isSome := by
  have hvalid : ∀ v ∈ t.values, v.Valid := fun v hv => h.of_mem_values hv
  by_cases hne : t.values = []
  · rw [hne]
    exact iff_of_true (fun hnot => absurd rfl hnot) fun e he => nomatch he
  · rw [imp_iff_right (by simpa using hne)]
    exact fine_exports_iff hallowed hvalid hne

/-- The check of a written component may find its installer missing or an export unreadable, and
    nothing else. -/
theorem check_component_eq_nil_iff {c : Component} (h : c.Valid) :
    ((component c).numbered file line).check = [] ↔
      (∀ s, c.installer = some s → Text.unquote s ≠ "") ∧
        ∀ e ∈ Text.entries (exportsText c.exports.values), (ExportedVariable.parse e).isSome := by
  change Block.checkType _ _ _ _ (Block.numberedAll file (line + 1) (component c).inner) = [] ↔ _
  rw [Block.checkType_numberedAll_iff (belongs_component c),
    ← fine_exports_of_valid_iff h.exports .component
      (show "exports" ∈ componentProperties by decide),
    and_iff_right h.name, and_iff_right (nodup_properties_component c), properties_component]
  simp only [List.forall_mem_append, forall_mem_listPairs]
  constructor
  · rintro ⟨⟨⟨⟨⟨hinstaller, -⟩, -⟩, -⟩, hexports⟩, -⟩
    refine ⟨fun s hs => ?_, hexports⟩
    have hfine := hinstaller (by rw [hs]; exact List.cons_ne_nil _ _)
    rw [hs, Option.toList_some, join_singleton] at hfine
    exact hfine.value
  · rintro ⟨hinstaller, hexports⟩
    refine ⟨⟨⟨⟨⟨fun hne => ?_, fun hne => ?_⟩, fun hne => ?_⟩, fun hne => ?_⟩, hexports⟩,
      fun hne => ?_⟩
    · cases hs : c.installer with
      | none =>
        rw [hs] at hne
        exact absurd rfl hne
      | some s =>
        rw [Option.toList_some, join_singleton]
        have hallowed : "installer" ∈ componentProperties := by decide
        exact ⟨hallowed, hinstaller s hs, by simp, by simp, by simp, by simp⟩
    · refine fine_names (by decide) (.inl rfl) h.base hne fun _ _ => ?_
      cases c.base <;> simp
    · exact fine_names (by decide) (.inr (.inl rfl)) h.facets hne (by simp)
    · exact fine_imports (by decide) (fun v hv => h.imports.of_mem_values hv) (by simpa using hne)
    · exact fine_names (by decide) (.inr (.inr rfl)) h.children hne (by simp)

theorem belongs_facet (f : Facet) : ∀ b ∈ (facet f).inner, b.Belongs := by
  simp only [facet, Block.inner, List.mem_append]
  rintro b ((hb | hb) | hb)
  · exact belongs_listProperty _ _ b hb
  · exact belongs_listProperty _ _ b hb
  · exact belongs_listProperty _ _ b hb

theorem nodup_properties_facet (f : Facet) :
    ((Block.properties (facet f).inner).map Prod.fst).Nodup := by
  have hsub : ((Block.properties (facet f).inner).map Prod.fst).Sublist
      ["extends", "exports", "children"] := by
    simp only [properties_facet, List.map_append]
    exact ((map_fst_listPairs ..).append (map_fst_listPairs ..)).append (map_fst_listPairs ..)
  exact hsub.nodup (by decide)

/-- The check of a written facet may find an export unreadable, and nothing else. -/
theorem check_facet_eq_nil_iff {f : Facet} (h : f.Valid) :
    ((facet f).numbered file line).check = [] ↔
      ∀ e ∈ Text.entries (exportsText f.exports.values), (ExportedVariable.parse e).isSome := by
  change Block.checkType _ _ _ _ (Block.numberedAll file (line + 1) (facet f).inner) = [] ↔ _
  rw [Block.checkType_numberedAll_iff (belongs_facet f),
    ← fine_exports_of_valid_iff h.exports .facet (show "exports" ∈ facetProperties by decide),
    and_iff_right h.name, and_iff_right (nodup_properties_facet f), properties_facet]
  simp only [List.forall_mem_append, forall_mem_listPairs]
  constructor
  · rintro ⟨⟨-, hexports⟩, -⟩
    exact hexports
  · intro hexports
    refine ⟨⟨fun hne => ?_, hexports⟩, fun hne => ?_⟩
    · exact fine_names (by decide) (.inl rfl) h.bases hne (by simp)
    · exact fine_names (by decide) (.inr (.inr rfl)) h.children hne (by simp)

end Write

/-! ### What is read as it was -/

/-- A component that is read as it was written: its installer is read as it is, and the values of
    its exports are writable. -/
structure Component.Writable (c : Component) : Prop where
  installer : ∀ s, c.installer = some s → Text.unquote s = s
  exports : WritableValues c.exports.values

namespace Component

variable {c : Component}

theorem reread_of_writable (h : c.Valid) (hw : c.Writable) : c.reread = c := by
  have hinstaller : c.installer.map Text.unquote = c.installer := by
    cases hs : c.installer with
    | none => rfl
    | some s => rw [Option.map_some, hw.installer s hs]
  rw [reread, hinstaller, exportsOf_exportsText h.exports hw.exports]

/-- A component is the same after it was written and read exactly if it is writable. -/
theorem same_reread_iff (h : c.Valid) : c.same c.reread = true ↔ c.Writable := by
  constructor
  · intro hsame
    simp only [same, reread, Bool.and_eq_true, beq_iff_eq] at hsame
    obtain ⟨⟨⟨⟨⟨⟨-, hinstaller⟩, hexports⟩, -⟩, -⟩, -⟩, -⟩ := hsame
    refine ⟨fun s hs => ?_, (same_exportsOf_iff h.exports).1 hexports⟩
    rw [hs, Option.map_some, Option.some.injEq] at hinstaller
    exact hinstaller.symm
  · intro hw
    rw [reread_of_writable h hw]
    exact same_refl c

/-- Nothing is wrong with such a component once it is written. -/
theorem readable_of_writable (h : c.Valid) (hw : c.Writable) :
    (∀ s, c.installer = some s → Text.unquote s ≠ "") ∧
      ∀ e ∈ Text.entries (exportsText c.exports.values), (ExportedVariable.parse e).isSome := by
  refine ⟨fun s hs => ?_, parse_of_writable h.exports hw.exports⟩
  rw [hw.installer s hs]
  exact h.installer s hs

end Component

namespace Facet

variable {f : Facet}

theorem reread_of_writable (h : f.Valid) (hw : WritableValues f.exports.values) : f.reread = f := by
  rw [reread, exportsOf_exportsText h.exports hw]

/-- A facet is the same after it was written and read exactly if its exports are writable. -/
theorem same_reread_iff (h : f.Valid) :
    f.same f.reread = true ↔ WritableValues f.exports.values := by
  constructor
  · intro hsame
    simp only [same, reread, Bool.and_eq_true] at hsame
    exact (same_exportsOf_iff h.exports).1 hsame.1.1.2
  · intro hw
    rw [reread_of_writable h hw]
    exact same_refl f

end Facet

end Deployment

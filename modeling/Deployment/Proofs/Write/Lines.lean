import Deployment.Proofs.Block.Render
import Deployment.Proofs.Forest.Trees
import Deployment.Proofs.Path
import Deployment.Proofs.Write.Forest
import Deployment.Proofs.Write.Graph

/-!
# Lines of written models

A model whose names, keys and values have no line feeds is written as blocks of which every one, at
whatever depth, is on the line that its place says (`linesMatch_toFile`). Remarks may have any
number of lines: they are written line by line.

* `FileDefinition.LinesMatch`: the places of the blocks of a file agree with its text;
* `TypeGraph.OneLine`, `Forest.OneLine`: models without line feeds.
-/

namespace Deployment

open Deployment.Tree

/-! ### Texts without line feeds -/

namespace Chars

/-- A line has no line feed. -/
theorem not_mem_of_mem_lines {s l : List Char} (h : l ∈ lines s) : '\n' ∉ l := by
  have hended : ∀ l ∈ (splitAll '\n' s).dropLast.map fun l => (before? ['\r'] l).getD l,
      '\n' ∉ l := by
    intro l hl hmem
    obtain ⟨p, hp, rfl⟩ := List.mem_map.1 hl
    have hpart := not_mem_of_mem_splitAll (List.dropLast_subset _ hp)
    cases hbefore : before? ['\r'] p with
    | none => exact hpart (by rwa [hbefore] at hmem)
    | some q =>
      rw [hbefore] at hmem
      rw [before?_eq_some_iff.1 hbefore] at hpart
      exact hpart (List.mem_append_left _ hmem)
  unfold lines at h
  dsimp only at h
  split at h
  · exact hended l h
  · exact hended l h
  · next hlast =>
    rcases List.mem_append.1 h with h | h
    · exact hended l h
    · rw [List.mem_singleton.1 h]
      exact not_mem_of_mem_splitAll (List.mem_of_getLast? hlast)

end Chars

namespace Text

theorem oneLine_of_mem_lines {s l : String} (h : l ∈ lines s) : OneLine l := by
  obtain ⟨chars, hchars, rfl⟩ := List.mem_map.1 h
  rw [OneLine, String.toList_ofList]
  exact Chars.not_mem_of_mem_lines hchars

theorem OneLine.quoted {s : String} (h : OneLine s) : OneLine (quoted s) := by
  rw [OneLine, Text.quoted, String.toList_ofList, Chars.quoted]
  split
  · simpa [OneLine] using h
  · exact h

theorem oneLine_join {parts : List String} (h : ∀ p ∈ parts, OneLine p) :
    OneLine (join ", " parts) := by
  rw [OneLine, toList_join]
  induction parts with
  | nil => exact List.not_mem_nil
  | cons p parts ih =>
    obtain ⟨hp, hparts⟩ := List.forall_mem_cons.1 h
    cases parts with
    | nil =>
      rw [List.map_singleton, List.intercalate_singleton]
      exact hp
    | cons q parts =>
      rw [List.map_cons, List.map_cons, List.intercalate_cons_cons, List.mem_append,
        List.mem_append, not_or, not_or]
      exact ⟨⟨hp, by decide⟩, ih hparts⟩

end Text

open Text

/-! ### Models without line feeds -/

/-- No name and no value of an exported variable breaks a line. -/
structure ExportedVariable.OneLine (v : ExportedVariable) : Prop where
  name : Text.OneLine v.name
  value : ∀ value ∈ v.value, Text.OneLine value

instance : DecidablePred ExportedVariable.OneLine := fun v =>
  decidable_of_iff (Text.OneLine v.name ∧ ∀ value ∈ v.value, Text.OneLine value)
    ⟨fun ⟨hname, hvalue⟩ => ⟨hname, hvalue⟩, fun h => ⟨h.name, h.value⟩⟩

/-- No name and no value of a component breaks a line. -/
structure Component.OneLine (c : Component) : Prop where
  name : Text.OneLine c.name
  installer : ∀ installer ∈ c.installer, Text.OneLine installer
  base : ∀ base ∈ c.base, Text.OneLine base
  facets : ∀ n ∈ c.facets.toList, Text.OneLine n
  imports : ∀ v ∈ c.imports.values, Text.OneLine v.name
  exports : ∀ v ∈ c.exports.values, v.OneLine
  children : ∀ n ∈ c.children.toList, Text.OneLine n

instance : DecidablePred Component.OneLine := fun c =>
  decidable_of_iff (Text.OneLine c.name ∧ (∀ installer ∈ c.installer, Text.OneLine installer) ∧
      (∀ base ∈ c.base, Text.OneLine base) ∧ (∀ n ∈ c.facets.toList, Text.OneLine n) ∧
      (∀ v ∈ c.imports.values, Text.OneLine v.name) ∧ (∀ v ∈ c.exports.values, v.OneLine) ∧
      ∀ n ∈ c.children.toList, Text.OneLine n)
    ⟨fun ⟨hname, hinstaller, hbase, hfacets, himports, hexports, hchildren⟩ =>
        ⟨hname, hinstaller, hbase, hfacets, himports, hexports, hchildren⟩,
      fun h => ⟨h.name, h.installer, h.base, h.facets, h.imports, h.exports, h.children⟩⟩

/-- No name and no value of a facet breaks a line. -/
structure Facet.OneLine (f : Facet) : Prop where
  name : Text.OneLine f.name
  bases : ∀ n ∈ f.bases.toList, Text.OneLine n
  exports : ∀ v ∈ f.exports.values, v.OneLine
  children : ∀ n ∈ f.children.toList, Text.OneLine n

instance : DecidablePred Facet.OneLine := fun f =>
  decidable_of_iff (Text.OneLine f.name ∧ (∀ n ∈ f.bases.toList, Text.OneLine n) ∧
      (∀ v ∈ f.exports.values, v.OneLine) ∧ ∀ n ∈ f.children.toList, Text.OneLine n)
    ⟨fun ⟨hname, hbases, hexports, hchildren⟩ => ⟨hname, hbases, hexports, hchildren⟩,
      fun h => ⟨h.name, h.bases, h.exports, h.children⟩⟩

/-- No name and no value of a graph breaks a line. -/
structure TypeGraph.OneLine (g : TypeGraph) : Prop where
  components : ∀ c ∈ g.components.values, c.OneLine
  facets : ∀ f ∈ g.facets.values, f.OneLine

instance : DecidablePred TypeGraph.OneLine := fun g =>
  decidable_of_iff ((∀ c ∈ g.components.values, c.OneLine) ∧ ∀ f ∈ g.facets.values, f.OneLine)
    ⟨fun ⟨hcomponents, hfacets⟩ => ⟨hcomponents, hfacets⟩, fun h => ⟨h.components, h.facets⟩⟩

/-- No name, no key and no value of an instance breaks a line. -/
structure Instance.OneLine (i : Instance) : Prop where
  name : Text.OneLine i.name
  component : Text.OneLine i.component
  channels : ∀ n ∈ i.channels.toList, Text.OneLine n
  data : ∀ p ∈ i.data.entries, Text.OneLine p.1 ∧ Text.OneLine p.2
  overrides : ∀ p ∈ i.overrides.entries, Text.OneLine p.1 ∧ Text.OneLine p.2

instance : DecidablePred Instance.OneLine := fun i =>
  decidable_of_iff (Text.OneLine i.name ∧ Text.OneLine i.component ∧
      (∀ n ∈ i.channels.toList, Text.OneLine n) ∧
      (∀ p ∈ i.data.entries, Text.OneLine p.1 ∧ Text.OneLine p.2) ∧
      ∀ p ∈ i.overrides.entries, Text.OneLine p.1 ∧ Text.OneLine p.2)
    ⟨fun ⟨hname, hcomponent, hchannels, hdata, hoverrides⟩ =>
        ⟨hname, hcomponent, hchannels, hdata, hoverrides⟩,
      fun h => ⟨h.name, h.component, h.channels, h.data, h.overrides⟩⟩

/-- No name, no key and no value of the instances below the roots breaks a line. -/
def Forest.OneLine (f : Forest) : Prop := ∀ id ∈ f.all, ∀ i ∈ f.get? id, i.OneLine

instance : DecidablePred Forest.OneLine := fun f =>
  inferInstanceAs (Decidable (∀ id ∈ f.all, ∀ i ∈ f.get? id, i.OneLine))

/-! ### Written blocks without line feeds -/

namespace Write

theorem oneLine_importText {v : ImportedVariable} (h : Text.OneLine v.name) :
    Text.OneLine v.text := by
  have hmark : ∀ (written : Bool) (mark : String), Text.OneLine mark →
      Text.OneLine (if written then mark else "") := by
    intro written mark hmark
    cases written with
    | false => exact List.not_mem_nil
    | true => exact hmark
  exact ((hmark _ _ (by decide)).append h).append (hmark _ _ (by decide))

theorem oneLine_exportText {v : ExportedVariable} (h : v.OneLine) : Text.OneLine v.text := by
  obtain ⟨name, value, random⟩ := v
  have hvalue := h.value
  refine OneLine.append (OneLine.append ?_ h.name) ?_
  · rcases random with _ | ⟨⟨⟩⟩
    all_goals
      dsimp only
      decide
  · cases value with
    | none => exact List.not_mem_nil
    | some value => exact OneLine.append (by decide) (hvalue value rfl).quoted

theorem oneLine_property {name value : String} (hname : Text.OneLine name)
    (hvalue : Text.OneLine value) : (property name value).OneLine :=
  .property hname hvalue

theorem oneLine_listProperty {name : String} {entries : List String} (hname : Text.OneLine name)
    (h : ∀ e ∈ entries, Text.OneLine e) : ∀ b ∈ listProperty name entries, b.OneLine := by
  intro b hb
  rw [listProperty] at hb
  split at hb
  · cases hb
  · rw [List.mem_singleton.1 hb]
    exact oneLine_property hname (oneLine_join h)

theorem oneLine_optionalProperty {name : String} {value : Option String}
    (hname : Text.OneLine name) (h : ∀ v ∈ value, Text.OneLine v) :
    ∀ b ∈ optionalProperty name value, b.OneLine := by
  intro b hb
  obtain ⟨v, hv, rfl⟩ := List.mem_map.1 hb
  exact oneLine_property hname (h v (Option.mem_toList.1 hv))

theorem oneLine_component {c : Component} (h : c.OneLine) : (component c).OneLine := by
  refine .declaration h.name ?_
  simp only [List.forall_mem_append]
  exact ⟨⟨⟨⟨⟨oneLine_optionalProperty (by decide) h.installer,
    oneLine_optionalProperty (by decide) h.base⟩,
    oneLine_listProperty (by decide) h.facets⟩,
    oneLine_listProperty (by decide) (List.forall_mem_map.2 fun v hv =>
      oneLine_importText (h.imports v hv))⟩,
    oneLine_listProperty (by decide) (List.forall_mem_map.2 fun v hv =>
      oneLine_exportText (h.exports v hv))⟩,
    oneLine_listProperty (by decide) h.children⟩

theorem oneLine_facet {f : Facet} (h : f.OneLine) : (facet f).OneLine := by
  refine .declaration h.name ?_
  simp only [List.forall_mem_append]
  exact ⟨⟨oneLine_listProperty (by decide) h.bases,
    oneLine_listProperty (by decide) (List.forall_mem_map.2 fun v hv =>
      oneLine_exportText (h.exports v hv))⟩,
    oneLine_listProperty (by decide) h.children⟩

theorem oneLine_instanceProperties (options : WriteOptions) {i : Instance} (h : i.OneLine) :
    ∀ b ∈ instanceProperties options i, b.OneLine := by
  have htable : ∀ (start : String) (written : Bool) (t : Table String String),
      Text.OneLine start → (∀ p ∈ t.entries, Text.OneLine p.1 ∧ Text.OneLine p.2) →
      ∀ b ∈ (if written then
        t.entries.map fun p => property (start ++ p.1) (Text.quoted p.2) else []),
        b.OneLine := by
    intro start written t hstart ht b hb
    cases written with
    | false => cases hb
    | true =>
      obtain ⟨p, hp, rfl⟩ := List.mem_map.1 hb
      exact oneLine_property (hstart.append (ht p hp).1) (ht p hp).2.quoted
  have hstate : ∀ b ∈ (if options.state && i.status != .notDeployed then
      [property "state" i.status.name] else []), b.OneLine := by
    intro b hb
    split at hb
    · rw [List.mem_singleton.1 hb]
      exact oneLine_property (by decide) (by cases i.status <;> decide)
    · cases hb
  have hoverrides := htable "" options.overrides i.overrides (by decide) h.overrides
  simp only [String.empty_append] at hoverrides
  rw [instanceProperties]
  simp only [List.forall_mem_append, List.forall_mem_singleton]
  exact ⟨⟨⟨⟨oneLine_property (by decide) h.name,
    oneLine_listProperty (by decide) h.channels⟩, hstate⟩,
    htable "data." options.data i.data (by decide) h.data⟩, hoverrides⟩

theorem oneLine_tree (options : WriteOptions) {t : Tree Instance}
    (h : ∀ i ∈ t.preorder, i.OneLine) : (tree options t).OneLine := by
  induction t using Tree.inductionOn with
  | node i cs ih =>
    have hi := h i List.mem_cons_self
    refine .declaration hi.component ?_
    rw [List.forall_mem_append, trees_eq_map, List.forall_mem_map]
    exact ⟨oneLine_instanceProperties options hi, fun c hc => ih c hc fun j hj =>
      h j (List.mem_cons_of_mem _ (mem_preorders_of_mem hc hj))⟩

/-- The comments above a declaration have one line each, however many the remark has. -/
theorem oneLine_heading (options : WriteOptions) {what name : String} (hwhat : Text.OneLine what)
    (hname : Text.OneLine name) : ∀ b ∈ heading options what name, b.OneLine := by
  intro b hb
  unfold heading at hb
  split at hb
  · obtain ⟨line, hline, rfl⟩ := List.mem_map.1 hb
    exact .comment (OneLine.append (by decide) (oneLine_of_mem_lines hline))
  · split at hb
    · rw [List.mem_singleton.1 hb]
      exact .comment (OneLine.append (by decide) ((hwhat.append (by decide)).append hname))
    · exact nomatch hb

theorem oneLine_paragraphs {α : Type} (options : WriteOptions) {what : String} {name : α → String}
    {declaration : α → Block} {xs : List α} (hwhat : Text.OneLine what)
    (hname : ∀ x ∈ xs, Text.OneLine (name x)) (h : ∀ x ∈ xs, (declaration x).OneLine) :
    ∀ b ∈ paragraphs options what name declaration xs, b.OneLine := by
  intro b hb
  obtain ⟨x, hx, hb⟩ := List.mem_flatMap.1 hb
  rw [paragraph, List.mem_append, List.mem_pair] at hb
  rcases hb with hb | rfl | rfl
  · exact oneLine_heading options hwhat (hname x hx) b hb
  · exact h x hx
  · exact .blank

end Write

theorem TypeGraph.oneLine_written (options : WriteOptions) {g : TypeGraph} (h : g.OneLine) :
    ∀ b ∈ g.written options, b.OneLine := by
  rw [written, List.forall_mem_append]
  exact ⟨Write.oneLine_paragraphs options (by decide) (fun c hc => (h.components c hc).name)
      fun c hc => Write.oneLine_component (h.components c hc),
    Write.oneLine_paragraphs options (by decide) (fun f hf => (h.facets f hf).name)
      fun f hf => Write.oneLine_facet (h.facets f hf)⟩

theorem Forest.oneLine_written (options : WriteOptions) {f : Forest} (h : f.OneLine) :
    ∀ b ∈ f.written options, b.OneLine := by
  have htrees := f.forall_mem_preorders_toTrees.2 h
  have hvalue : ∀ t : Tree Instance, t.value ∈ t.preorder := fun ⟨_, _⟩ => List.mem_cons_self
  exact Write.oneLine_paragraphs options (by decide)
    (fun t ht => (htrees _ (mem_preorders_of_mem ht (hvalue t))).name)
    fun t ht => Write.oneLine_tree options fun i hi => htrees i (mem_preorders_of_mem ht hi)

/-! ### Lines -/

/-- Every block, at whatever depth, is where its place says: the text of the file is what is written
    before the block, the block and what is written after it, and the line of the block is that
    after the line feeds before it. -/
def FileDefinition.LinesMatch (d : FileDefinition) : Prop :=
  ∀ before depth b, Block.Stands 0 d.blocks before depth b →
    (∃ after, d.text = before ++ (b.text depth ++ after)) ∧
      b.site = ⟨d.file, feeds before + 1⟩

/-- The counter of the writer goes with the text: what is written has the places that the text
    says, as it is what is described, numbered from the first line on. -/
theorem FileDefinition.linesMatch_of_numbered {d : FileDefinition} {bs : List Block}
    (hblocks : d.blocks = Block.numberedAll d.file 1 bs) (h : ∀ b ∈ bs, b.OneLine) :
    d.LinesMatch := by
  intro before depth b hstands
  refine ⟨hstands.exists_after, ?_⟩
  rw [hblocks] at hstands
  rw [Block.site_of_stands h hstands, Nat.add_comm]

/-- In the file of a graph or of a forest without line feeds, the line of every block is that on
    which it is written. The instances of a forest are those that stand below its roots; how they
    are linked does not matter. -/
theorem linesMatch_toFile (path : Path) (options : WriteOptions) :
    (∀ g : TypeGraph, g.OneLine → (g.toFile path options).LinesMatch) ∧
      ∀ f : Forest, f.OneLine → (f.toFile path options).LinesMatch :=
  ⟨fun _ h => FileDefinition.linesMatch_of_numbered TypeGraph.blocks_toFile
      (TypeGraph.oneLine_written options h),
    fun _ h => FileDefinition.linesMatch_of_numbered Forest.blocks_toFile
      (Forest.oneLine_written options h)⟩

/-- Machines and servers on them, written under remarks of two lines. -/
theorem linesMatch_toFile_remarked :
    let options : WriteOptions :=
      { WriteOptions.full with remarks := .ofList [("VM", "Machines\nof all kinds"),
        ("vm", "The only\none")] }
    let g : TypeGraph :=
      { components := .ofList [("VM", { Component.named "VM" with children := .ofList ["Server"] }),
          ("Server", { Component.named "Server" with
            installer := some "puppet"
            exports := .ofList [("port", ⟨"port", some "80, 81", none⟩)] })]
        facets := .ofList [("web", .named "web")]
        roots := .ofList ["VM"] }
    let f : Forest := .ofTrees [.node (.named "vm" "VM") [.node (.named "server" "Server") []]]
    (g.toFile ⟨"a.graph"⟩ options).LinesMatch ∧ (f.toFile ⟨"a.instances"⟩ options).LinesMatch ∧
      (g.toFile ⟨"a.graph"⟩ options).blocks.map (·.site.line) = [1, 2, 3, 6, 7, 11, 12, 14] ∧
      (f.toFile ⟨"a.instances"⟩ options).text =
        "# The only\n# one\ninstance of VM \x7b\n\tname: vm;\n" ++
        "\tinstance of Server \x7b\n\t\tname: server;\n\t\x7d\n\x7d\n\n" :=
  ⟨(linesMatch_toFile _ _).1 _ (by decide +kernel), (linesMatch_toFile _ _).2 _ (by decide +kernel),
    by decide +kernel, by decide +kernel⟩

end Deployment

import Deployment.Proofs.Block.Numbering
import Deployment.Proofs.Tree
import Deployment.Write

/-!
# Written blocks

What is written does not depend on where it is written: the blocks of a model can be described
before they have places. The writer, which counts lines while it writes, writes exactly these
blocks, placed one after the other from the first line on (`TypeGraph.blocks_toFile`,
`Forest.blocks_toFile`).

* `Write.component`, `Write.facet`, `Write.tree`: declarations without places;
* `Writes`: from any line on, a writing makes some blocks, numbered from that line on, and uses up
  the lines that they have. A part of a writing needs no more than this to be known
  (`Writes.inOrder`, `Writes.declaration`).
-/

namespace Deployment

/-! ### Blocks without places -/

namespace Write

/-- A block's place before it is numbered. -/
def nowhere : Site := ⟨⟨""⟩, 0⟩

/-- A property. -/
def property (name value : String) : Block := .property nowhere name value

/-- A property with a list of entries, if there are any. -/
def listProperty (name : String) (entries : List String) : List Block :=
  if entries = [] then [] else [property name (Text.join ", " entries)]

/-- A property, if there is a value. -/
def optionalProperty (name : String) (value : Option String) : List Block :=
  value.toList.map (property name)

/-- A comment. -/
def comment (text : String) : Block := .comment nowhere ("# " ++ text)

/-- The comments above a declaration. -/
def heading (options : WriteOptions) (what name : String) : List Block :=
  match options.remarks.get? name with
  | some remark => (Text.lines remark).map comment
  | none => if options.comments then [comment (what ++ " " ++ name)] else []

/-- A declaration under its comments, with a blank line after it. -/
def paragraph (options : WriteOptions) (what name : String) (declaration : Block) : List Block :=
  heading options what name ++ [declaration, .blank nowhere ""]

/-- The paragraphs of some declarations, one after the other. -/
def paragraphs {α : Type} (options : WriteOptions) (what : String) (name : α → String)
    (declaration : α → Block) (xs : List α) : List Block :=
  xs.flatMap fun x => paragraph options what (name x) (declaration x)

/-- The declaration of a component. -/
def component (c : Component) : Block :=
  .declaration nowhere .component c.name <|
    optionalProperty "installer" c.installer ++
    optionalProperty "extends" c.base ++
    listProperty "facets" c.facets.toList ++
    listProperty "imports" (c.imports.values.map ImportedVariable.text) ++
    listProperty "exports" (c.exports.values.map ExportedVariable.text) ++
    listProperty "children" c.children.toList

/-- The declaration of a facet. -/
def facet (f : Facet) : Block :=
  .declaration nowhere .facet f.name <|
    listProperty "extends" f.bases.toList ++
    listProperty "exports" (f.exports.values.map ExportedVariable.text) ++
    listProperty "children" f.children.toList

/-- The properties of an instance. -/
def instanceProperties (options : WriteOptions) (i : Instance) : List Block :=
  [property "name" i.name] ++
  listProperty "channels" i.channels.toList ++
  (if options.state && i.status != .notDeployed then [property "state" i.status.name] else []) ++
  (if options.data then
    i.data.entries.map fun (key, value) => property ("data." ++ key) (Text.quoted value)
  else []) ++
  (if options.overrides then
    i.overrides.entries.map fun (key, value) => property key (Text.quoted value)
  else [])

mutual

/-- The declaration of an instance, with those of the instances below it. -/
def tree (options : WriteOptions) : Tree Instance → Block
  | .node i children => .declaration nowhere .instanceOf i.component
      (instanceProperties options i ++ trees options children)

/-- The declarations of some instances. -/
def trees (options : WriteOptions) : List (Tree Instance) → List Block
  | [] => []
  | t :: ts => tree options t :: trees options ts

end

end Write

/-- The blocks of the file of a graph, before they have places. -/
def TypeGraph.written (g : TypeGraph) (options : WriteOptions) : List Block :=
  Write.paragraphs options "component" Component.name Write.component g.components.values ++
    Write.paragraphs options "facet" Facet.name Write.facet g.facets.values

/-- The blocks of the file of a forest, before they have places. -/
def Forest.written (f : Forest) (options : WriteOptions) : List Block :=
  Write.paragraphs options "instance" (fun t => t.value.name) (Write.tree options) f.toTrees

/-! ### The writer -/

/-- From any line on, some blocks are written, numbered from that line on; the next line is the one
    after them. -/
def Writes (m : Writing) (bs : List Block) : Prop :=
  ∀ w : BlockWriter, m.run w =
    (Block.numberedAll w.file w.next bs, { w with next := w.next + Block.heights bs })

namespace Writes

open BlockWriter

variable {m m' : Writing} {bs bs' : List Block}

theorem nil : Writes (pure []) [] := fun _ => rfl

/-- One writing after another. -/
theorem append (h : Writes m bs) (h' : Writes m' bs') :
    Writes (do return (← m) ++ (← m')) (bs ++ bs') := by
  intro w
  rw [Block.numberedAll_append, Block.heights_append, ← Nat.add_assoc]
  simp only [StateT.run_bind, StateT.run_pure, h w, h' _]
  rfl

/-- Parts one after the other. -/
theorem inOrder {parts : List Writing} {blocks : List (List Block)}
    (h : List.Forall₂ Writes parts blocks) : Writes (inOrder parts) blocks.flatten := by
  induction h with
  | nil => exact nil
  | cons hpart _ ih => exact hpart.append ih

/-- Parts for some values, one after the other. -/
theorem inOrder_map {α : Type} {part : α → Writing} {blocks : α → List Block} {xs : List α}
    (h : ∀ x ∈ xs, Writes (part x) (blocks x)) :
    Writes (BlockWriter.inOrder (xs.map part)) (xs.flatMap blocks) := by
  refine inOrder (List.forall₂_map_left_iff.2 (List.forall₂_map_right_iff.2 ?_))
  exact List.forall₂_same.2 h

/-- A block of one line. -/
theorem oneLine {block : Site → Block} (hheight : (block Write.nowhere).height = 1)
    (hnumbered : ∀ file line, (block Write.nowhere).numbered file line = block ⟨file, line⟩) :
    Writes (oneLine block) [block Write.nowhere] := by
  intro w
  rw [Block.numberedAll, Block.numberedAll, Block.heights, Block.heights, hheight, hnumbered]
  rfl

/-- A declaration takes a line before what is inside, and one after it. -/
theorem declaration {kind : DeclarationKind} {name : String} (h : Writes m bs) :
    Writes (declaration kind name m) [.declaration Write.nowhere kind name bs] := by
  intro w
  have hline : takeLine.run w = (w.next, { w with next := w.next + 1 }) := rfl
  have hlines : w.next + (Block.heights bs + 2 + 0) = w.next + 1 + Block.heights bs + 1 := by omega
  rw [Block.heights, Block.height, Block.heights, hlines]
  simp only [BlockWriter.declaration, StateT.run_bind, hline, h _]
  rfl

/-! ### Parts of declarations -/

theorem property (name value : String) :
    Writes (property name value) [Write.property name value] :=
  oneLine rfl fun _ _ => rfl

theorem comment (text : String) : Writes (comment text) [Write.comment text] :=
  oneLine rfl fun _ _ => rfl

theorem blank : Writes blank [.blank Write.nowhere ""] := oneLine rfl fun _ _ => rfl

/-- A part that is written under a condition. -/
theorem ite (c : Prop) [Decidable c] (h : Writes m bs) :
    Writes (if c then m else pure []) (if c then bs else []) := by
  split
  · exact h
  · exact nil

theorem listProperty (name : String) (entries : List String) :
    Writes (listProperty name entries) (Write.listProperty name entries) := by
  rw [BlockWriter.listProperty, Write.listProperty]
  split
  · exact nil
  · exact property name _

theorem optionalProperty (name : String) (value : Option String) :
    Writes (optionalProperty name value) (Write.optionalProperty name value) := by
  cases value with
  | none => exact nil
  | some value => exact property name value

theorem heading (options : WriteOptions) (what name : String) :
    Writes (heading options what name) (Write.heading options what name) := by
  rw [BlockWriter.heading, Write.heading]
  cases options.remarks.get? name with
  | none => exact ite _ (comment _)
  | some remark =>
    have h := inOrder_map fun text (_ : text ∈ Text.lines remark) => comment text
    rwa [← List.map_eq_flatMap] at h

theorem paragraph {declaration : Writing} {b : Block} (options : WriteOptions) (what name : String)
    (h : Writes declaration [b]) :
    Writes (paragraph options what name declaration) (Write.paragraph options what name b) :=
  inOrder (.cons (heading options what name) (.cons h (.cons blank .nil)))

/-! ### Declarations -/

theorem component (c : Component) : Writes (component c) [Write.component c] := by
  refine declaration ?_
  simp only [List.append_assoc]
  simpa only [List.flatten_cons, List.flatten_nil, List.append_nil] using inOrder <|
    .cons (optionalProperty _ _) <| .cons (optionalProperty _ _) <| .cons (listProperty _ _) <|
    .cons (listProperty _ _) <| .cons (listProperty _ _) <| .cons (listProperty _ _) .nil

theorem facet (f : Facet) : Writes (facet f) [Write.facet f] := by
  refine declaration ?_
  simp only [List.append_assoc]
  simpa only [List.flatten_cons, List.flatten_nil, List.append_nil] using inOrder <|
    .cons (listProperty _ _) <| .cons (listProperty _ _) <| .cons (listProperty _ _) .nil

theorem instanceProperties (options : WriteOptions) (i : Instance) :
    Writes (instanceProperties options i) (Write.instanceProperties options i) := by
  have hentries : ∀ (name : String → String) (t : Table String String),
      Writes (BlockWriter.inOrder (t.entries.map fun p =>
          BlockWriter.property (name p.1) (Text.quoted p.2)))
        (t.entries.map fun p => Write.property (name p.1) (Text.quoted p.2)) := by
    intro name t
    have h := inOrder_map fun p (_ : p ∈ t.entries) => property (name p.1) (Text.quoted p.2)
    rwa [← List.map_eq_flatMap] at h
  have hstate := ite ((options.state && i.status != .notDeployed) = true)
    (property "state" i.status.name)
  have hdata := ite (options.data = true) (hentries ("data." ++ ·) i.data)
  have hoverrides := ite (options.overrides = true) (hentries (fun key => key) i.overrides)
  rw [BlockWriter.instanceProperties, Write.instanceProperties]
  simp only [List.append_assoc]
  simpa only [List.flatten_cons, List.flatten_nil, List.append_nil] using inOrder <|
    .cons (property _ _) <| .cons (listProperty _ _) <| .cons hstate <| .cons hdata <|
    .cons hoverrides .nil

theorem trees_of_forall {options : WriteOptions} {ts : List (Tree Instance)}
    (h : ∀ t ∈ ts, Writes (tree options t) [Write.tree options t]) :
    Writes (trees options ts) (Write.trees options ts) := by
  induction ts with
  | nil => exact nil
  | cons t ts ih =>
    obtain ⟨ht, hts⟩ := List.forall_mem_cons.1 h
    exact ht.append (ih hts)

/-- The declaration of an instance, by induction on what is below it. -/
theorem tree (options : WriteOptions) (t : Tree Instance) :
    Writes (tree options t) [Write.tree options t] := by
  induction t using Tree.inductionOn with
  | node i children ih =>
    rw [BlockWriter.tree, Write.tree]
    refine declaration ?_
    simpa only [List.flatten_cons, List.flatten_nil, List.append_nil] using
      inOrder (.cons (instanceProperties options i) (.cons (trees_of_forall ih) .nil))

theorem paragraphs {α : Type} {options : WriteOptions} {what : String} {name : α → String}
    {part : α → Writing} {declaration : α → Block} (h : ∀ x, Writes (part x) [declaration x])
    (xs : List α) : Writes
      (BlockWriter.inOrder (xs.map fun x => BlockWriter.paragraph options what (name x) (part x)))
      (Write.paragraphs options what name declaration xs) :=
  inOrder_map fun x _ => paragraph options what (name x) (h x)

end Writes

/-- The file of what is written holds the blocks, numbered from the first line on. -/
theorem Writes.blocks_fileOf {m : Writing} {bs : List Block} (h : Writes m bs) (path : Path) :
    (BlockWriter.fileOf path m).blocks = Block.numberedAll path 1 bs :=
  congrArg Prod.fst (h ⟨path, 1⟩)

section Files

variable {path : Path} {options : WriteOptions}

theorem TypeGraph.blocks_toFile {g : TypeGraph} :
    (g.toFile path options).blocks = Block.numberedAll path 1 (g.written options) := by
  refine Writes.blocks_fileOf ?_ path
  rw [written]
  simpa only [List.flatten_cons, List.flatten_nil, List.append_nil] using Writes.inOrder
    (.cons (.paragraphs .component g.components.values)
      (.cons (.paragraphs .facet g.facets.values) .nil))

theorem Forest.blocks_toFile {f : Forest} :
    (f.toFile path options).blocks = Block.numberedAll path 1 (f.written options) :=
  (Writes.paragraphs (Writes.tree options) f.toTrees).blocks_fileOf path

end Files

end Deployment

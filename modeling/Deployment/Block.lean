import Deployment.Diagnostic.Basic

/-!
# Blocks

A file of the topology language consists of blocks, each with the file and line it comes
from:

* an *import* of another file;
* a *declaration*: of a component, of a facet, or of an instance of a component. It has a
  name — that of the component, for an instance — and inner blocks: properties, comments,
  blank lines and, for an instance, the instances below it;
* a *property*, a name with a value;
* a *comment* or a *blank* line.

A file definition is the content of one file: its blocks, what kind of file they make it
(`FileKind.ofBlocks`), and the diagnostics of whoever read it.
-/

namespace Deployment

/-- What is declared. -/
inductive DeclarationKind where
  | component
  | facet
  /-- An instance of a component. -/
  | instanceOf
deriving DecidableEq, Inhabited

/-- A block of a file. -/
inductive Block where
  /-- A component, a facet or an instance, with its inner blocks. -/
  | declaration (site : Site) (kind : DeclarationKind) (name : String) (inner : List Block)
  /-- The import of the file that `uri` designates. -/
  | importOf (site : Site) (uri : String)
  /-- A property. -/
  | property (site : Site) (name value : String)
  /-- A comment, its marker included. -/
  | comment (site : Site) (text : String)
  /-- A blank line. -/
  | blank (site : Site) (text : String)
deriving Inhabited

namespace Block

/-- The place of a block. -/
def site : Block → Site
  | .declaration site .. => site
  | .importOf site _ => site
  | .property site .. => site
  | .comment site _ => site
  | .blank site _ => site

/-- Whether a block is a blank line. -/
def isBlank : Block → Bool
  | .blank .. => true
  | _ => false

/-- Whether a block is a comment. -/
def isComment : Block → Bool
  | .comment .. => true
  | _ => false

/-- The name and the value of a property. -/
def property? : Block → Option (String × String)
  | .property _ name value => some (name, value)
  | _ => none

/-- The target and the place of an import. -/
def import? : Block → Option (String × Site)
  | .importOf site uri => some (uri, site)
  | _ => none

/-- The properties among some blocks, in order. -/
def properties (blocks : List Block) : List (String × String) := blocks.filterMap property?

/-- The value of the first property with a name. -/
def lookup (blocks : List Block) (name : String) : Option String :=
  (properties blocks).lookup name

/-- The imports among some blocks, in order. -/
def imports (blocks : List Block) : List (String × Site) := blocks.filterMap import?

end Block

/-- A declaration of an instance. -/
structure InstanceDeclaration where
  /-- The place of the declaration. -/
  site : Site
  /-- The name of the component. -/
  component : String
  /-- The inner blocks. -/
  inner : List Block

namespace Block

/-- The declaration that a block makes, if it declares an instance. -/
def instance? : Block → Option InstanceDeclaration
  | .declaration site .instanceOf component inner => some ⟨site, component, inner⟩
  | _ => none

/-- The declarations of instances among some blocks, in order. -/
def instances (blocks : List Block) : List InstanceDeclaration := blocks.filterMap instance?

mutual

/-- The number of instances declared in a block, at any depth. -/
def population : Block → Nat
  | .declaration _ .instanceOf _ inner => populations inner + 1
  | .declaration _ .component _ _ => 0
  | .declaration _ .facet _ _ => 0
  | .importOf .. => 0
  | .property .. => 0
  | .comment .. => 0
  | .blank .. => 0

/-- The number of instances declared in some blocks, at any depth. -/
def populations : List Block → Nat
  | [] => 0
  | b :: bs => b.population + populations bs

end

end Block

/-- What a file declares. -/
inductive FileKind where
  /-- Components and facets, perhaps imports. -/
  | graph
  /-- Instances, perhaps imports. -/
  | instances
  /-- Imports only. -/
  | aggregator
  /-- Neither declarations nor imports. -/
  | empty
  /-- Types and instances. -/
  | undetermined
deriving DecidableEq, Inhabited

namespace FileKind

/-- The kinds of files. -/
def all : List FileKind := [.graph, .instances, .aggregator, .empty, .undetermined]

/-- The spelling of a kind in documents. -/
def key : FileKind → String
  | .graph => "Graph"
  | .instances => "Instance"
  | .aggregator => "Aggregator"
  | .empty => "Empty"
  | .undetermined => "Undetermined"

/-- The kind of a file with the given top-level blocks. -/
def ofBlocks (blocks : List Block) : FileKind :=
  let types := blocks.any fun
    | .declaration _ .component .. => true
    | .declaration _ .facet .. => true
    | _ => false
  let instances := blocks.any fun
    | .declaration _ .instanceOf .. => true
    | _ => false
  match types, instances with
  | true, true => .undetermined
  | true, false => .graph
  | false, true => .instances
  | false, false => if (Block.imports blocks).isEmpty then .empty else .aggregator

end FileKind

/-- The content of one file. -/
structure FileDefinition where
  /-- The file. -/
  file : Path
  /-- What it declares. -/
  kind : FileKind
  /-- Its top-level blocks. -/
  blocks : List Block
  /-- What was found wrong when it was read. -/
  diagnostics : List Diagnostic
deriving Inhabited

namespace FileDefinition

/-- The definition of a file with the given blocks, without diagnostics. -/
def ofBlocks (file : Path) (blocks : List Block) : FileDefinition :=
  { file, kind := .ofBlocks blocks, blocks, diagnostics := [] }

/-- The top-level imports, with their places. -/
def imports (d : FileDefinition) : List (String × Site) := Block.imports d.blocks

end FileDefinition

end Deployment

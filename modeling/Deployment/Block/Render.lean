import Deployment.Block

/-!
# Blocks as text

How blocks are written in the topology language: one line for an import, a property, a
comment or a blank, and for a declaration a line that opens it, the lines of its inner
blocks, one tab further in, and a line that closes it.

* `Block.text`: the lines of a block.
* `FileDefinition.text`: the text of a file.
-/

namespace Deployment

/-- What stands before the name of a declaration. -/
def DeclarationKind.keyword : DeclarationKind → String
  | .component => ""
  | .facet => "facet "
  | .instanceOf => "instance of "

namespace Block

/-- One line of text, after `depth` tabs. -/
def textLine (depth : Nat) (content : String) : String :=
  .ofList (List.replicate depth '\t') ++ content ++ "\n"

mutual

/-- The text of a block, `depth` tabs in. -/
def text (depth : Nat) : Block → String
  | .declaration _ kind name inner =>
    textLine depth (kind.keyword ++ name ++ " \x7b") ++ texts (depth + 1) inner ++
      textLine depth "\x7d"
  | .importOf _ uri => textLine depth ("import " ++ uri ++ ";")
  | .property _ name value => textLine depth (name ++ ": " ++ value ++ ";")
  | .comment _ text => textLine depth text
  | .blank .. => "\n"

/-- The text of some blocks, `depth` tabs in. -/
def texts (depth : Nat) : List Block → String
  | [] => ""
  | b :: bs => b.text depth ++ texts depth bs

end

end Block

/-- The text of a file. -/
def FileDefinition.text (d : FileDefinition) : String := Block.texts 0 d.blocks

end Deployment

import Deployment.Block

/-!
# Remarks

Comments right above the declaration of a type or an instance belong to it: together they
are the *remark* on what is declared. Anything else between the comments and the
declaration, a blank line included, breaks the link.

* `Block.remarks`: the remarks among top-level blocks, under the name of the type, or under
  what the `name` property of the instance says.
-/

namespace Deployment.Block

/-- The text of a comment, without blanks around it and without its marker. -/
def commentText (text : String) : String :=
  .ofList (Chars.trim ((Chars.trimStart text.toList).dropWhile (· = '#')))

/-- What a declaration is remarked upon as. -/
def remarkName (kind : DeclarationKind) (name : String) (inner : List Block) : Option String :=
  match kind with
  | .instanceOf => (lookup inner "name").map Text.unquote
  | _ => some name

/-- The remark that a run of comments makes, if there is a run and something to name. -/
def remarkOf (run : List String) (name : Option String) : List (String × String) :=
  match name with
  | some name => if run = [] then [] else [(name, Text.join "\n" run)]
  | none => []

/-- The remarks among blocks that follow a run of comments. -/
def remarksAfter (run : List String) : List Block → List (String × String)
  | [] => []
  | .comment _ text :: rest => remarksAfter (run ++ [commentText text]) rest
  | .declaration _ kind name inner :: rest =>
    remarkOf run (remarkName kind name inner) ++ remarksAfter [] rest
  | _ :: rest => remarksAfter [] rest

/-- The remarks among blocks, by name. -/
def remarks (blocks : List Block) : List (String × String) := remarksAfter [] blocks

end Deployment.Block

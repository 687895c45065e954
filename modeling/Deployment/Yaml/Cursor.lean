/-!
# Places in a YAML text

YAML separates words by *blanks*, which are the space and the tab and nothing else, and it
ends lines by any of five *breaks*. A cursor is a place in a text: what is left of it, how
much of it was read, and the line and the column that were reached.

* `Yaml.isBlank`, `Yaml.isBreak`: the characters that separate.
* `Cursor.lineEnd?`: what a line ends with. All breaks mean a line feed, but the line and the
  paragraph separator stand for themselves.
* `Cursor.gapAt`: whether a word ends a number of characters from here.
-/

namespace Deployment.Yaml

/-- Whether a character separates words on a line. -/
def isBlank (x : Char) : Bool := x == ' ' || x == '\t'

/-- Whether a character ends a line. -/
def isBreak (x : Char) : Bool :=
  x == '\n' || x == '\r' || x == '\u0085' || x == '\u2028' || x == '\u2029'

/-- Whether a character separates words. -/
def isGap (x : Char) : Bool := isBlank x || isBreak x

/-- A place in a text. -/
structure Cursor where
  /-- The text that is left. -/
  rest : List Char
  /-- The number of bytes before. -/
  offset : Nat
  /-- The number of lines before. -/
  line : Nat
  /-- The number of characters before on this line. -/
  column : Nat

namespace Cursor

/-- The start of a text. -/
def start (text : List Char) : Cursor := ⟨text, 0, 0, 0⟩

/-- Past one character of the line. -/
def next (c : Cursor) : Cursor :=
  match c.rest with
  | [] => c
  | x :: rest => ⟨rest, c.offset + x.utf8Size, c.line, c.column + 1⟩

/-- Past some characters of the line. -/
def skip (c : Cursor) : Nat → Cursor
  | 0 => c
  | n + 1 => c.next.skip n

/-- Past the characters of a kind, of which none ends the line. -/
def skipRun (c : Cursor) (p : Char → Bool) : Cursor := c.skip (c.rest.takeWhile p).length

/-- Past blanks. -/
def skipBlanks (c : Cursor) : Cursor := c.skipRun isBlank

/-- Past a comment, if one starts here. -/
def skipComment (c : Cursor) : Cursor :=
  if c.rest.head? = some '#' then c.skipRun fun x => !isBreak x else c

/-- The end of this line, if it ends here: what it stands for, and the start of the next
    line. A carriage return and a line feed are one end. -/
def lineEnd? (c : Cursor) : Option (Char × Cursor) :=
  match c.rest with
  | '\r' :: '\n' :: rest => some ('\n', ⟨rest, c.offset + 2, c.line + 1, 0⟩)
  | x :: rest =>
    if isBreak x then
      some (if x = '\u2028' ∨ x = '\u2029' then x else '\n',
        ⟨rest, c.offset + x.utf8Size, c.line + 1, 0⟩)
    else none
  | [] => none

/-- On the next line, if this one ends here. -/
def skipLineEnd (c : Cursor) : Cursor :=
  match c.lineEnd? with
  | some (_, next) => next
  | none => c

/-- Whether a line, or the text, ends here. -/
def atLineEnd (c : Cursor) : Bool := c.rest.head?.all isBreak

/-- Whether a word does not go on after some characters. -/
def gapAt (c : Cursor) (n : Nat) : Bool := (c.rest.drop n).head?.all isGap

/-- Whether a line starts here with a mark of three characters that stands alone. -/
def atMark (c : Cursor) (mark : String) : Bool :=
  c.column == 0 && mark.toList.isPrefixOf c.rest && c.gapAt 3

/-- Whether a document starts or ends here. -/
def atDocumentMark (c : Cursor) : Bool := c.atMark "---" || c.atMark "..."

/-- Past blanks, a comment and the end of the line, if nothing else stands there. -/
def restOfLine? (c : Cursor) : Option Cursor :=
  let stop := c.skipBlanks.skipComment
  if stop.atLineEnd then some stop.skipLineEnd else none

end Cursor

end Deployment.Yaml

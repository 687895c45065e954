import Deployment.Yaml.Cursor
import Deployment.Yaml.Number

/-!
# Reading YAML scalars

A scalar is written plainly, between quotes, or on lines of its own. On several lines it is
*folded*: a line end within it reads as a space, and of several line ends in a row all but
the first are kept. Lines of its own are kept as they are (*literal*) or folded where text
stands on both sides.

* `Scalar.plain`: a plain scalar, whose further lines start after a margin.
* `Scalar.single`, `Scalar.double`: a scalar between quotes, from the first quote on.
* `Scalar.block`: a literal or folded scalar, from its mark on.

Every reader gives the text and where it ends, and nothing for a text that is not well
formed. Recursion is bounded by `fuel`, more than the length of the text that is left, of
which every step reads a character.
-/

namespace Deployment.Yaml

/-! ### Gaps -/

/-- What stands between two words of a scalar. -/
inductive Gap where
  /-- Blanks on one line. -/
  | blanks (s : List Char)
  /-- Line ends, and blanks around them that mean nothing: the first line end, unless it was
      written to be passed over, and those after it. -/
  | breaks (first : Option Char) (more : List Char)

namespace Gap

/-- What a gap reads as. -/
def text : Gap → List Char
  | blanks s => s
  | breaks (some '\n') [] => [' ']
  | breaks (some '\n') more => more
  | breaks first more => first.toList ++ more

/-- Whether the gap is on several lines. -/
def hasBreak : Gap → Bool
  | blanks _ => false
  | breaks .. => true

/-- The gap with a blank after it. -/
def addBlank (x : Char) : Gap → Gap
  | blanks s => blanks (s ++ [x])
  | breaks first more => breaks first more

/-- The gap with a line end after it. -/
def addBreak (x : Char) : Gap → Gap
  | blanks _ => breaks (some x) []
  | breaks first more => breaks first (more ++ [x])

/-- The gap that goes on here. A tab must not stand before the margin of a line. -/
def read (margin : Nat) : Nat → Gap → Cursor → Option (Gap × Cursor)
  | 0, _, _ => none
  | fuel + 1, gap, c =>
    match c.lineEnd? with
    | some (x, next) => read margin fuel (gap.addBreak x) next
    | none =>
      match c.rest with
      | [] => some (gap, c)
      | x :: _ =>
        if isBlank x then
          if x = '\t' ∧ gap.hasBreak ∧ c.column < margin then none
          else read margin fuel (gap.addBlank x) c.next
        else some (gap, c)

end Gap

namespace Scalar

/-! ### Plain scalars -/

/-- The characters that structure a flow collection. -/
def isFlowMark (x : Char) : Bool :=
  x == ',' || x == '[' || x == ']' || x == '\x7b' || x == '\x7d'

/-- The word of a plain scalar that a text starts with. A colon that ends a word ends the
    scalar; in a flow collection so do the marks, and a colon right before one is an error. -/
def plainWord (flow : Bool) : List Char → Option (List Char)
  | [] => some []
  | x :: rest =>
    if isGap x then some []
    else if flow && x == ':' && rest.head?.any fun y => isFlowMark y || y == '?' then none
    else if x == ':' && rest.head?.all isGap then some []
    else if flow && isFlowMark x then some []
    else (plainWord flow rest).map (x :: ·)

/-- The rest of a plain scalar after a gap: its text, whether the line ended after it, and
    the next word. -/
def plainFrom (flow : Bool) (margin : Nat) :
    Nat → Gap → Cursor → Option (List Char × Bool × Cursor)
  | 0, _, _ => none
  | fuel + 1, gap, c =>
    if c.atDocumentMark || c.rest.head? = some '#' then some ([], gap.hasBreak, c)
    else do
      let word ← plainWord flow c.rest
      if word.isEmpty then some ([], gap.hasBreak, c)
      else
        let stop := c.skip word.length
        let (after, next) ← Gap.read margin fuel (.blanks []) stop
        if next.offset = stop.offset || (!flow && next.column < margin) then
          some (gap.text ++ word, after.hasBreak, next)
        else
          let (more, ended, stop) ← plainFrom flow margin fuel after next
          some (gap.text ++ word ++ more, ended, stop)

/-- A plain scalar: its text, whether the line ended after it, and the next word. -/
def plain (flow : Bool) (margin : Nat) (c : Cursor) : Option (List Char × Bool × Cursor) :=
  plainFrom flow margin (c.rest.length + 1) (.blanks []) c

/-! ### Quoted scalars -/

/-- The number of `n` hexadecimal digits that a text starts with. -/
def hexNumber? (n : Nat) (s : List Char) : Option Nat :=
  let digits := s.take n
  if digits.length = n then Number.natural? 16 digits else none

/-- The character that a letter stands for after a backslash. -/
def escapedLetter? : Char → Option Char
  | '0' => some '\x00'
  | 'a' => some '\x07'
  | 'b' => some '\x08'
  | 't' => some '\t'
  | '\t' => some '\t'
  | 'n' => some '\n'
  | 'v' => some '\x0b'
  | 'f' => some '\x0c'
  | 'r' => some '\r'
  | 'e' => some '\x1b'
  | ' ' => some ' '
  | '"' => some '"'
  | '/' => some '/'
  | '\\' => some '\\'
  | 'N' => some '\u0085'
  | '_' => some '\u00a0'
  | 'L' => some '\u2028'
  | 'P' => some '\u2029'
  | _ => none

/-- The number of hexadecimal digits that follow a letter after a backslash. -/
def hexLength? : Char → Option Nat
  | 'x' => some 2
  | 'u' => some 4
  | 'U' => some 8
  | _ => none

/-- What is written after a backslash: the character, and how many it takes to write it. -/
def escape? : List Char → Option (Char × Nat)
  | [] => none
  | x :: rest =>
    match hexLength? x with
    | some n => do
      let code ← hexNumber? n rest
      if code.isValidChar then some (.ofNat code, n + 1) else none
    | none => (escapedLetter? x).map fun char => (char, 1)

/-- The word between single quotes that starts here; a quote within it is written twice. -/
def singleWord : Nat → Cursor → Option (List Char × Gap × Cursor)
  | 0, _ => none
  | fuel + 1, c =>
    match c.rest with
    | [] => some ([], .blanks [], c)
    | '\'' :: '\'' :: _ => (singleWord fuel (c.skip 2)).map fun (s, stop) => ('\'' :: s, stop)
    | x :: _ =>
      if isGap x || x == '\'' then some ([], .blanks [], c)
      else (singleWord fuel c.next).map fun (s, stop) => (x :: s, stop)

/-- The word between double quotes that starts here, with escapes; a backslash at the end of
    the line starts a gap that reads as nothing. -/
def doubleWord : Nat → Cursor → Option (List Char × Gap × Cursor)
  | 0, _ => none
  | fuel + 1, c =>
    match c.rest with
    | [] => some ([], .blanks [], c)
    | x :: rest =>
      if isGap x || x == '"' then some ([], .blanks [], c)
      else if x == '\\' then
        if rest.head?.any isBreak then some ([], .breaks none [], c.next.skipLineEnd)
        else do
          let (char, length) ← escape? rest
          let (s, stop) ← doubleWord fuel (c.skip (length + 1))
          some (char :: s, stop)
      else (doubleWord fuel c.next).map fun (s, stop) => (x :: s, stop)

/-- The rest of a scalar up to a quote, read word by word. A document must not start or end
    within it. -/
def quotedFrom (quote : Char) (word : Cursor → Option (List Char × Gap × Cursor)) :
    Nat → Cursor → Option (List Char × Cursor)
  | 0, _ => none
  | fuel + 1, c =>
    if c.atDocumentMark || c.rest.isEmpty then none
    else do
      let (text, gap, stop) ← word c
      if stop.rest.head? = some quote then some (text, stop.next)
      else
        let (gap, next) ← Gap.read 0 (fuel + 1) gap stop
        let (more, stop) ← quotedFrom quote word fuel next
        some (text ++ gap.text ++ more, stop)

/-- A scalar between single quotes. -/
def single (c : Cursor) : Option (List Char × Cursor) :=
  let fuel := c.rest.length + 1
  quotedFrom '\'' (singleWord fuel) fuel c.next

/-- A scalar between double quotes. -/
def double (c : Cursor) : Option (List Char × Cursor) :=
  let fuel := c.rest.length + 1
  quotedFrom '"' (doubleWord fuel) fuel c.next

/-! ### Scalars on lines of their own -/

/-- What becomes of the line ends after the last line of a scalar. -/
inductive Ending where
  /-- None is kept. -/
  | strip
  /-- The first is kept. -/
  | clip
  /-- All are kept. -/
  | keep

/-- What a header says about the line ends after the last line. -/
def ending? : Char → Option Ending
  | '-' => some .strip
  | '+' => some .keep
  | _ => none

/-- The header of a scalar after its mark: an ending and an indentation, which is a digit, in
    either order, or one of them, or none. -/
def header (c : Cursor) : Ending × Option Nat × Cursor :=
  match c.rest with
  | x :: rest =>
    match ending? x, Number.digit? 10 x with
    | some ending, _ =>
      match rest.head?.bind (Number.digit? 10) with
      | some n => (ending, some n, c.skip 2)
      | none => (ending, none, c.next)
    | none, some n =>
      match rest.head?.bind ending? with
      | some ending => (ending, some n, c.skip 2)
      | none => (.clip, some n, c.next)
    | none, none => (.clip, none, c)
  | [] => (.clip, none, c)

/-- The line ends of empty lines and the indentation of the line after them, which may not
    be known yet, with the deepest column reached. A tab must not stand in it. -/
def emptyLines (indent : Option Nat) :
    Nat → Nat → List Char → Cursor → Option (Nat × List Char × Cursor)
  | 0, _, _, _ => none
  | fuel + 1, deepest, breaks, c =>
    let spaces := (c.rest.takeWhile (· == ' ')).length
    let c := c.skip (indent.elim spaces fun n => min spaces (n - c.column))
    let deepest := max deepest c.column
    if c.rest.head? = some '\t' && indent.all (c.column < ·) then none
    else
      match c.lineEnd? with
      | some (x, next) => emptyLines indent fuel deepest (breaks ++ [x]) next
      | none => some (deepest, breaks, c)

/-- The lines of a scalar that are left: their text, the end of the last one, those of the
    empty lines after it, and what follows. `first` and `breaks` are the line ends before,
    `blankBefore` says whether the line before starts with a blank. -/
def blockFrom (literal : Bool) (indent : Nat) :
    Nat → List Char → List Char → Bool → Cursor →
      Option (List Char × List Char × List Char × Cursor)
  | 0, _, _, _, _ => none
  | fuel + 1, first, breaks, blankBefore, c =>
    if c.column = indent && !c.rest.isEmpty then do
      let blankHere := c.rest.head?.any isBlank
      let joint :=
        if !literal && first = ['\n'] && !blankBefore && !blankHere then
          if breaks.isEmpty then [' '] else []
        else first
      let line := c.rest.takeWhile fun x => !isBreak x
      let stop := c.skip line.length
      let last := (stop.lineEnd?.map (·.1)).toList
      let (_, empty, next) ← emptyLines (some indent) (fuel + 1) 0 [] stop.skipLineEnd
      let (more, rest) ← blockFrom literal indent fuel last empty blankHere next
      some (joint ++ breaks ++ line ++ more, rest)
    else some ([], first, breaks, c)

/-- A literal or folded scalar that belongs to an entry with a margin. The indentation in its
    header counts from the column of the entry, and is not zero. -/
def block (literal : Bool) (margin : Nat) (c : Cursor) : Option (List Char × Cursor) := do
  let (ending, given, stop) := header c.next
  if given = some 0 then none
  let body ← stop.restOfLine?
  let fuel := body.rest.length + 1
  let known := given.map fun n => margin - 1 + n
  let (deepest, empty, next) ← emptyLines known fuel 0 [] body
  let indent := known.getD (max (max deepest margin) 1)
  let (text, last, empty, stop) ← blockFrom literal indent fuel [] empty false next
  match ending with
  | .strip => some (text, stop)
  | .clip => some (text ++ last, stop)
  | .keep => some (text ++ last ++ empty, stop)

end Scalar

end Deployment.Yaml

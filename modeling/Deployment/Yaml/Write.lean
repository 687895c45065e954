import Deployment.Yaml
import Deployment.Yaml.Cursor
import Deployment.Yaml.Number

/-!
# Writing YAML scalars

A text is written plainly where it reads back as the same text, between single quotes where
it would read as something else, on lines of its own where it has several lines, and
between double quotes, with escapes, where nothing else can hold it.

* `Yaml.scalarText`: how a text is written as the value of a key, the line end included.
-/

namespace Deployment.Yaml

/-! ### Texts that read as something else -/

/-- Whether a text, written plainly, would read as something other than a text, or looks as
    if it would. -/
def isAmbiguous (s : List Char) : Bool :=
  let word := String.ofList s
  word = "" || word ∈ nullWords || word ∈ trueWords || word ∈ falseWords ||
    Number.isZeroLed s || Number.isInteger s || Number.isFraction s

/-! ### Texts that cannot stand as they are -/

/-- Whether a character can be written as it is. -/
def isPrintable (c : Char) : Bool :=
  let n := c.toNat
  n == 0x0A || (0x20 ≤ n && n ≤ 0x7E) || (0xA0 ≤ n && n ≤ 0xD7FF) ||
    (0xE000 ≤ n && n ≤ 0xFFFD && n ≠ 0xFEFF) || 0x10000 ≤ n

/-- Whether a character of the first kind stands right before one of the second. -/
def hasPair (p q : Char → Bool) : List Char → Bool
  | c :: d :: s => (p c && q d) || hasPair p q (d :: s)
  | _ => false

/-- Whether a text has a mark that structures a block: at its start, or after its start a
    colon before a blank or a number sign after one. -/
def hasBlockMark (s : List Char) : Bool :=
  let atStart : Bool := match s with
    | [] => false
    | c :: rest =>
      "#,[]\x7b\x7d&*!|>'\"%@\x60".toList.contains c ||
        ((c == '-' || c == '?' || c == ':') && rest.head?.all isGap)
  atStart || "---".toList.isPrefixOf s || "...".toList.isPrefixOf s ||
    hasPair (· == ':') isGap (s.drop 1) || (1 < s.length && s.getLast? == some ':') ||
    hasPair isGap (· == '#') s

/-- Whether a text has a gap at its end or its start. -/
def hasOuterGap (s : List Char) : Bool := s.head?.any isGap || s.getLast?.any isGap

/-- Whether a text has characters, or blanks around line ends, that only escapes can hold. -/
def needsEscapes (s : List Char) : Bool :=
  s.any (fun c => !isPrintable c) || hasPair (· == ' ') isBreak s

/-- Whether a text can be written plainly. -/
def canBePlain (s : List Char) : Bool :=
  !(s.isEmpty || s.any isBreak || hasOuterGap s || needsEscapes s || hasBlockMark s)

/-- Whether a text can be written between single quotes. -/
def canBeSingle (s : List Char) : Bool := !(needsEscapes s || hasPair isBreak (· == ' ') s)

/-- Whether a text can be written on lines of its own. -/
def canBeLiteral (s : List Char) : Bool := !(needsEscapes s || s.getLast? = some ' ')

/-! ### Written forms -/

/-- The indentation of the lines of a scalar. -/
def indentation : List Char := [' ', ' ']

/-- A text between single quotes, those in it written twice. A line that another line ended
    before, as `newLine` says, is indented, also if only the last quote is on it. -/
def singleQuoted : Bool → List Char → List Char
  | newLine, [] => (if newLine then indentation else []) ++ ['\'']
  | newLine, c :: s =>
    if isBreak c then c :: singleQuoted true s
    else
      (if newLine then indentation else []) ++ (if c = '\'' then ['\'', '\''] else [c]) ++
        singleQuoted false s

/-- A text between single quotes. -/
def inSingleQuotes (s : List Char) : List Char := '\'' :: singleQuoted false s

/-- A number in hexadecimal capital digits, with zeros in front up to a width. -/
def hexadecimal (width n : Nat) : List Char :=
  let digits := (Nat.toDigits 16 n).map Char.toUpper
  List.replicate (width - digits.length) '0' ++ digits

/-- A character within double quotes. -/
def escaped (c : Char) : List Char :=
  if c = '"' then ['\\', '"']
  else if c = '\\' then ['\\', '\\']
  else if isPrintable c && !isBreak c then [c]
  else match c.toNat with
    | 0x00 => ['\\', '0']
    | 0x07 => ['\\', 'a']
    | 0x08 => ['\\', 'b']
    | 0x09 => ['\\', 't']
    | 0x0A => ['\\', 'n']
    | 0x0B => ['\\', 'v']
    | 0x0C => ['\\', 'f']
    | 0x0D => ['\\', 'r']
    | 0x1B => ['\\', 'e']
    | 0x85 => ['\\', 'N']
    | 0x2028 => ['\\', 'L']
    | 0x2029 => ['\\', 'P']
    | n =>
      if n ≤ 0xFF then '\\' :: 'x' :: hexadecimal 2 n
      else if n ≤ 0xFFFF then '\\' :: 'u' :: hexadecimal 4 n
      else '\\' :: 'U' :: hexadecimal 8 n

/-- A text between double quotes. -/
def inDoubleQuotes (s : List Char) : List Char := '"' :: s.flatMap escaped ++ ['"']

/-- What a literal scalar keeps of the line ends at its end: all, one or none. -/
def literalEnd (s : List Char) : List Char :=
  match s.reverse with
  | [] => ['-']
  | [c] => if isBreak c then ['+'] else ['-']
  | c :: d :: _ => if !isBreak c then ['-'] else if isBreak d then ['+'] else []

/-- The lines of a text, each of them indented that is not empty, with the end of the last
    one if it has none. -/
def indentedLines : Bool → List Char → List Char
  | newLine, [] => if newLine then [] else ['\n']
  | newLine, c :: s =>
    if isBreak c then c :: indentedLines true s
    else (if newLine then indentation else []) ++ c :: indentedLines false s

/-- A text on lines of its own; one that starts with a gap says how far it is indented. -/
def onLines (s : List Char) : List Char :=
  let hint := if s.head?.any isGap then ['2'] else []
  '|' :: hint ++ literalEnd s ++ '\n' :: indentedLines true s

/-- How a text is written as the value of a key, the line end included. -/
def scalarText (text : String) : String :=
  let s := text.toList
  .ofList <|
    if s.contains '\n' then
      if canBeLiteral s then onLines s else inDoubleQuotes s ++ ['\n']
    else if !isAmbiguous s && canBePlain s then s ++ ['\n']
    else if canBeSingle s then inSingleQuotes s ++ ['\n']
    else inDoubleQuotes s ++ ['\n']

end Deployment.Yaml

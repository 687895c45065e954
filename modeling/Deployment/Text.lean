import Deployment.Chars

/-!
# Texts

The reading rules of `Deployment.Chars`, on strings: every function here works on the
characters of its argument. Two texts are compared by code point.
-/

namespace Deployment.Text

/-- The text without its leading and trailing blanks. -/
def trim (s : String) : String := .ofList (Chars.trim s.toList)

/-- Whether a text has nothing but blanks. -/
def isBlank (s : String) : Bool := (Chars.trim s.toList).isEmpty

/-- The parts before and after the first `mark`, if there is one. -/
def cut (mark : Char) (s : String) : Option (String × String) :=
  (Chars.cut mark s.toList).map fun (l, r) => (.ofList l, .ofList r)

/-- What follows the beginning `start`, if the text has it. -/
def after? (start s : String) : Option String :=
  (Chars.after? start.toList s.toList).map .ofList

/-- What precedes the ending `stop`, if the text has it. -/
def before? (stop s : String) : Option String :=
  (Chars.before? stop.toList s.toList).map .ofList

/-- The lines of a text. -/
def lines (s : String) : List String := (Chars.lines s.toList).map .ofList

/-- The entries of a comma-separated list value, trimmed, the empty ones dropped. -/
def entries (s : String) : List String := (Chars.entries s.toList).map .ofList

/-- The entries of a list value, each freed of its quotes. -/
def names (s : String) : List String :=
  (Chars.entries s.toList).map fun e => .ofList (Chars.unquote e)

/-- The trimmed value, without the pair of double quotes around it if there is one. -/
def unquote (s : String) : String := .ofList (Chars.unquote s.toList)

/-- The value as it is written in a list: between quotes where it needs them. -/
def quoted (s : String) : String := .ofList (Chars.quoted s.toList)

/-- The parts with `mark` between them. -/
def join (mark : String) (parts : List String) : String :=
  .ofList (List.intercalate mark.toList (parts.map String.toList))

/-- The order by code point. -/
def compare (s t : String) : Ordering := Chars.compare s.toList t.toList

/-- The decimal digits of a number, with zeros in front up to a width. -/
def padded (width n : Nat) : String :=
  let digits := Nat.toDigits 10 n
  .ofList (List.replicate (width - digits.length) '0' ++ digits)

/-- The number of decimal digits of a number. -/
def width (n : Nat) : Nat := (Nat.toDigits 10 n).length

end Deployment.Text

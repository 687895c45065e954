import Deployment.Text

/-!
# Names

Which texts may name a type, an instance or a variable. All three admit ASCII letters and
digits, `_` and `-`; an instance name also admits points and spaces but not only spaces, a
variable name also admits points, though not at its ends. No name admits a slash, which
separates the names of a path.
-/

namespace Deployment

/-- ASCII letters and digits, `_` and `-`. -/
def isNameChar (c : Char) : Bool := c.isAlphanum || c == '_' || c == '-'

/-- Whether a text may name a component or a facet. -/
def isTypeName (s : String) : Bool := !s.toList.isEmpty && s.toList.all isNameChar

/-- Whether a text may name an instance. -/
def isInstanceName (s : String) : Bool :=
  !Text.isBlank s && s.toList.all fun c => isNameChar c || c == '.' || c == ' '

/-- Whether a text may name a variable. -/
def isVariableName (s : String) : Bool :=
  !s.toList.isEmpty && s.toList.head? != some '.' && s.toList.getLast? != some '.' &&
    s.toList.all fun c => isNameChar c || c == '.'

/-- The largest number of copies that a declaration may ask for. -/
def maxCount : Nat := 10000

/-- The number of copies that a value asks for: decimal digits, perhaps between quotes and
    after a plus sign, from 1 to `maxCount`. -/
def parseCount (value : String) : Option Nat :=
  let digits := Chars.trim (Chars.unquote value.toList)
  let digits := (Chars.after? ['+'] digits).getD digits
  (Chars.number? digits).filter fun n => 1 ≤ n && n ≤ maxCount

end Deployment

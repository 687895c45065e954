/-!
# Numbers in YAML

Which texts read as numbers if they are written plainly. An integer is decimal, or has a
mark for its base, and must fit in 128 bits. A decimal number with a point or an exponent
must be finite as a double-precision number. Digits after a leading zero are no number.

* `Number.isInteger`, `Number.isFraction`: whether a text is a number of that kind.
* `Number.isZeroLed`: whether a text would be an integer but for a leading zero.
-/

namespace Deployment.Yaml.Number

/-! ### Signs and digits -/

/-- A text after its sign, if it has one. -/
def unsigned : List Char → List Char
  | '+' :: s => s
  | '-' :: s => s
  | s => s

/-- The value of a digit in a base of at most sixteen. -/
def digit? (base : Nat) (x : Char) : Option Nat :=
  let n :=
    if '0' ≤ x ∧ x ≤ '9' then x.toNat - '0'.toNat
    else if 'a' ≤ x ∧ x ≤ 'f' then x.toNat - 'a'.toNat + 10
    else if 'A' ≤ x ∧ x ≤ 'F' then x.toNat - 'A'.toNat + 10
    else base
  if n < base then some n else none

/-- The number of a nonempty run of digits. -/
def natural? (base : Nat) (s : List Char) : Option Nat :=
  if s.isEmpty then none
  else (s.mapM (digit? base)).map fun digits => digits.foldl (fun n d => base * n + d) 0

/-- Whether a text is digits after a leading zero, with or without a sign. -/
def isZeroLed (s : List Char) : Bool :=
  match unsigned s with
  | '0' :: rest => !rest.isEmpty && rest.all Char.isDigit
  | _ => false

/-! ### Integers -/

/-- The number that digits mean after a mark for their base, or without one in base ten. -/
def magnitude? : List Char → Option Nat
  | '0' :: 'x' :: s => natural? 16 s
  | '0' :: 'o' :: s => natural? 8 s
  | '0' :: 'b' :: s => natural? 2 s
  | s => natural? 10 s

/-- Whether a text is an integer: below two to the 128th, or negative and at least minus two
    to the 127th. -/
def isInteger (s : List Char) : Bool :=
  !isZeroLed s &&
    match s with
    | '-' :: s => (magnitude? s).any fun n => n ≤ Nat.pow 2 127
    | s => (magnitude? (unsigned s)).any fun n => n < Nat.pow 2 128

/-! ### Decimal fractions -/

/-- A decimal number without a sign: its digits, and the power of ten they are multiplied
    by. -/
def decimal? (s : List Char) : Option (List Char × Int) := do
  let whole := s.takeWhile Char.isDigit
  let rest := s.drop whole.length
  let (part, rest) := match rest with
    | '.' :: rest => (rest.takeWhile Char.isDigit, rest.dropWhile Char.isDigit)
    | rest => ([], rest)
  if whole.isEmpty ∧ part.isEmpty then none
  let exponent ← match rest with
    | [] => some 0
    | e :: rest =>
      if e = 'e' ∨ e = 'E' then
        match rest with
        | '-' :: rest => (natural? 10 rest).map fun n => -(n : Int)
        | rest => (natural? 10 (unsigned rest)).map fun n => (n : Int)
      else none
  some (whole ++ part, exponent - part.length)

/-- Whether a number that is written with these digits, times a power of ten, is nearer to a
    double-precision number than to infinity. The last place where it is lies half a unit
    above the greatest of them. What is far off is seen from the number of digits. -/
def isFinite (digits : List Char) (exponent : Int) : Bool :=
  let significant := digits.dropWhile (· == '0')
  let places : Int := significant.length + exponent
  if significant.isEmpty ∨ places ≤ 300 then true
  else if 320 < places then false
  else
    let n := (natural? 10 significant).getD 0
    let bound := Nat.pow 2 1024 - Nat.pow 2 970
    if 0 ≤ exponent then n * Nat.pow 10 exponent.toNat < bound
    else n < bound * Nat.pow 10 (-exponent).toNat

/-- Whether a text is a decimal number, infinite or none at all. -/
def isFraction (s : List Char) : Bool :=
  let isWord (words : List String) (s : List Char) : Bool := words.contains (.ofList s)
  !isZeroLed s &&
    (isWord [".inf", ".Inf", ".INF"] (unsigned s) || isWord [".nan", ".NaN", ".NAN"] s ||
      (decimal? (unsigned s)).any fun (digits, exponent) => isFinite digits exponent)

end Deployment.Yaml.Number

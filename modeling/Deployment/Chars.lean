/-!
# Lists of characters

The reading rules of the topology language are stated on lists of characters:
what a blank is, how a text is trimmed, cut in two at a mark, split at commas
outside quotes, or freed of its quotes. `Deployment.Text` lifts them to strings.

* `trim`: a text without the blanks around it. A blank is a character with the
  Unicode property *White_Space*.
* `cut`: a text split at the first occurrence of a mark.
* `after?` and `before?`: a text without a given beginning or ending.
* `pieces` and `entries`: the comma-separated entries of a list value; a comma
  between two quotes does not separate.
* `unquote` and `quoted`: a value without, or with, a pair of double quotes.
-/

namespace Deployment.Chars

/-! ### Blanks -/

/-- The characters with the Unicode property *White_Space*. -/
def isBlank (c : Char) : Bool :=
  let n := c.toNat
  (9 ≤ n && n ≤ 13) || n == 0x20 || n == 0x85 || n == 0xA0 || n == 0x1680 ||
    (0x2000 ≤ n && n ≤ 0x200A) || n == 0x2028 || n == 0x2029 || n == 0x202F ||
    n == 0x205F || n == 0x3000

/-- The text without its leading blanks. -/
def trimStart (s : List Char) : List Char := s.dropWhile isBlank

/-- The text without its trailing blanks. -/
def trimEnd (s : List Char) : List Char := (s.reverse.dropWhile isBlank).reverse

/-- The text without its leading and trailing blanks. -/
def trim (s : List Char) : List Char := trimEnd (trimStart s)

/-! ### Cutting and splitting -/

/-- The parts before and after the first `mark`; none if the text has no mark. -/
def cut (mark : Char) : List Char → Option (List Char × List Char)
  | [] => none
  | c :: s => if c = mark then some ([], s) else (cut mark s).map fun (l, r) => (c :: l, r)

/-- A text with a mark is its left part, the mark and its right part. -/
theorem eq_append_of_cut {mark : Char} {s l r : List Char} (h : cut mark s = some (l, r)) :
    s = l ++ mark :: r := by
  induction s generalizing l r with
  | nil => simp [cut] at h
  | cons c s ih =>
    unfold cut at h
    split at h
    · simp_all
    · obtain ⟨⟨l', r'⟩, hs, heq⟩ := Option.map_eq_some_iff.1 h
      simp only [Prod.mk.injEq] at heq
      obtain ⟨rfl, rfl⟩ := heq
      rw [ih hs]
      rfl

/-- What follows the beginning `start`; none if the text begins otherwise. -/
def after? : List Char → List Char → Option (List Char)
  | [], s => some s
  | _ :: _, [] => none
  | p :: start, c :: s => if p = c then after? start s else none

/-- What precedes the ending `stop`; none if the text ends otherwise. -/
def before? (stop s : List Char) : Option (List Char) :=
  (after? stop.reverse s.reverse).map List.reverse

/-- A text with the beginning `start` is `start` and what follows it. -/
theorem after?_eq_some_iff {start s r : List Char} : after? start s = some r ↔ s = start ++ r := by
  induction start generalizing s with
  | nil => simp [after?, eq_comm]
  | cons p start ih =>
    cases s with
    | nil => simp [after?]
    | cons c s =>
      by_cases h : p = c
      · simp [after?, h, ih]
      · simp [after?, h, Ne.symm h]

/-- A text with the ending `stop` is what precedes it and `stop`. -/
theorem before?_eq_some_iff {stop s l : List Char} : before? stop s = some l ↔ s = l ++ stop := by
  simp only [before?, Option.map_eq_some_iff, after?_eq_some_iff]
  constructor
  · rintro ⟨r, hs, rfl⟩
    have := congrArg List.reverse hs
    simpa using this
  · rintro rfl
    exact ⟨l.reverse, by simp⟩

/-- Whether `part` occurs in the text. -/
def includes (part : List Char) : List Char → Bool
  | [] => part.isEmpty
  | c :: s => part.isPrefixOf (c :: s) || includes part s

/-- A character put in front of the first part. -/
def consFirst (c : Char) : List (List Char) → List (List Char)
  | [] => [[c]]
  | p :: ps => (c :: p) :: ps

/-- The parts between the marks: one more than there are marks. -/
def splitAll (mark : Char) : List Char → List (List Char)
  | [] => [[]]
  | c :: s => if c = mark then [] :: splitAll mark s else consFirst c (splitAll mark s)

/-- The lines of a text: a line feed ends a line, a carriage return right before it
    belongs to the line end, and what follows the last line feed is a line unless empty. -/
def lines (s : List Char) : List (List Char) :=
  let parts := splitAll '\n' s
  let ended := parts.dropLast.map fun l => (before? ['\r'] l).getD l
  match parts.getLast? with
  | none => ended
  | some [] => ended
  | some l => ended ++ [l]

/-! ### List values -/

/-- The parts between the commas outside quotes; `inside` says whether the text starts
    between two quotes. -/
def pieces (inside : Bool) : List Char → List (List Char)
  | [] => [[]]
  | c :: s =>
    if c = ',' ∧ inside = false then [] :: pieces inside s
    else consFirst c (pieces (if c = '"' then !inside else inside) s)

/-- The entries of a list value: its parts, trimmed, the empty ones dropped. -/
def entries (s : List Char) : List (List Char) :=
  ((pieces false s).map trim).filter fun p => !p.isEmpty

/-! ### Quotes -/

/-- The trimmed value, without the pair of double quotes around it if there is one. -/
def unquote (s : List Char) : List Char :=
  ((after? ['"'] (trim s)).bind (before? ['"'])).getD (trim s)

/-- Whether a value would be trimmed, split or cut short if it were read as it is. -/
def needsQuotes (s : List Char) : Bool :=
  s.isEmpty || s.any isBlank || s.any (fun c => c = ',' ∨ c = ';' ∨ c = '#' ∨ c = '=' ∨ c = '"')

/-- The value as it is written in a list: between quotes where it needs them. -/
def quoted (s : List Char) : List Char :=
  if needsQuotes s then '"' :: (s ++ ['"']) else s

/-! ### Decimal numbers -/

/-- The value of a decimal digit. -/
def digit? (c : Char) : Option Nat :=
  if '0' ≤ c ∧ c ≤ '9' then some (c.toNat - '0'.toNat) else none

/-- The number written by a nonempty run of decimal digits. -/
def number? (s : List Char) : Option Nat :=
  if s.isEmpty then none
  else s.foldl (fun n c => n.bind fun n => (digit? c).map fun d => 10 * n + d) (some 0)

/-! ### Order -/

/-- The lexicographic order by code point. -/
def compare : List Char → List Char → Ordering
  | [], [] => .eq
  | [], _ :: _ => .lt
  | _ :: _, [] => .gt
  | a :: s, b :: t => (Ord.compare a.toNat b.toNat).then (compare s t)

end Deployment.Chars

import Deployment.Yaml
import Deployment.Yaml.Scalar

/-!
# YAML tokens

What a YAML text consists of: marks, scalars, and the starts and ends of blocks, which are
not written but follow from columns.

A colon makes a key of what stands before it on its line, so where a token might be a key,
its place is kept until the colon is found, or the line or the key gets too long.

* `Token.all?`: the tokens of a text; nothing if a token is not well formed or stands where
  it must not. Whether they are in order is seen by whoever reads them.
-/

namespace Deployment.Yaml

/-- The smallest part of a YAML text that means something. -/
inductive Token where
  /-- The version of the format. -/
  | version (major minor : Nat)
  /-- What tags with a handle start with. -/
  | shorthand (handle start : String)
  | documentStart
  | documentEnd
  /-- The start of a block sequence, before its first item. -/
  | sequence
  /-- The start of a block mapping, before its first key. -/
  | mapping
  /-- The end of a block. -/
  | blockEnd
  /-- A dash, before an item. -/
  | item
  /-- The start of a key. -/
  | key
  /-- A colon, before a value. -/
  | value
  /-- The start of a flow sequence or mapping. -/
  | flow (mapping : Bool)
  /-- The end of a flow sequence or mapping. -/
  | flowEnd (mapping : Bool)
  | comma
  | reference (name : String)
  | anchor (name : String)
  | tag (handle suffix : String)
  | scalar (text : String) (style : Style)
deriving DecidableEq

/-! ### Names and tags -/

namespace Token

/-- The characters of names. -/
def isNameChar (x : Char) : Bool := x.isAlphanum || x == '_' || x == '-'

/-- The characters of tags that are no escapes. A tag between angle brackets has some more. -/
def isTagChar (verbatim : Bool) (x : Char) : Bool :=
  isNameChar x || ";/?:@&=+$.!~*'()".toList.contains x || (verbatim && ",[]".toList.contains x)

/-- The octets that remain of a character after the first one. -/
def octetsAfter? (octet : Nat) : Option Nat :=
  if octet < 0x80 then some 0
  else if octet < 0xC0 then none
  else if octet < 0xE0 then some 1
  else if octet < 0xF0 then some 2
  else if octet < 0xF8 then some 3
  else none

/-- The text of a tag, in which an octet may be escaped by a percent sign. Escaped octets
    must make up characters, of which `pending` octets are still due. -/
def tagText (verbatim : Bool) : Nat → Nat → Cursor → Option (List Char × Cursor)
  | 0, _, _ => none
  | fuel + 1, pending, c =>
    match c.rest with
    | '%' :: rest => do
      let octet ← Scalar.hexNumber? 2 rest
      let pending ←
        if pending = 0 then octetsAfter? octet
        else if 0x80 ≤ octet ∧ octet < 0xC0 then some (pending - 1)
        else none
      let (text, stop) ← tagText verbatim fuel pending (c.skip 3)
      some (.ofNat octet :: text, stop)
    | x :: _ =>
      if pending ≠ 0 then none
      else if isTagChar verbatim x then
        (tagText verbatim fuel 0 c.next).map fun (text, stop) => (x :: text, stop)
      else some ([], c)
    | [] => if pending = 0 then some ([], c) else none

/-- The text of a tag, which must not be empty. -/
def tagText? (verbatim : Bool) (c : Cursor) : Option (List Char × Cursor) := do
  let (text, stop) ← tagText verbatim (c.rest.length + 1) 0 c
  if text.isEmpty then none else some (text, stop)

/-- The handle of a tag: an exclamation mark, or a name between two. -/
def handle? (c : Cursor) : Option (List Char × Cursor) :=
  match c.rest with
  | '!' :: rest =>
    let name := rest.takeWhile isNameChar
    let stop := c.skip (name.length + 1)
    if stop.rest.head? = some '!' then some ('!' :: name ++ ['!'], stop.next) else none
  | _ => none

/-- A tag: verbatim between angle brackets, or with a handle. -/
def readTag (inFlow : Bool) (c : Cursor) : Option (Token × Cursor) := do
  let (token, stop) ←
    if (c.rest.drop 1).head? = some '<' then do
      let (text, stop) ← tagText? true (c.skip 2)
      if stop.rest.head? = some '>' then some (tag "" (.ofList text), stop.next) else none
    else match handle? c with
      | some (handle, stop) => do
        let (suffix, stop) ← tagText? false stop
        some (tag (.ofList handle) (.ofList suffix), stop)
      | none => do
        let (suffix, stop) ← tagText false (c.rest.length + 1) 0 c.next
        some (if suffix.isEmpty then tag "" "!" else tag "!" (.ofList suffix), stop)
  if stop.gapAt 0 || (inFlow && stop.rest.head? = some ',') then some (token, stop) else none

/-- A name after a mark. -/
def readName (c : Cursor) : Option (String × Cursor) :=
  let name := c.next.rest.takeWhile isNameChar
  let stop := c.next.skip name.length
  let ends := stop.gapAt 0 || stop.rest.head?.any fun x => "?:,]\x7d%@\x60".toList.contains x
  if !name.isEmpty && ends then some (.ofList name, stop) else none

/-! ### Directives -/

/-- A number of at most nine digits. -/
def number? (c : Cursor) : Option (Nat × Cursor) :=
  let digits := c.rest.takeWhile Char.isDigit
  if digits.length ≤ 9 then
    (Number.natural? 10 digits).map fun n => (n, c.skip digits.length)
  else none

/-- A directive on a line of its own: the version of the format, or a handle of tags. -/
def readDirective (c : Cursor) : Option (Token × Cursor) := do
  let name := c.next.rest.takeWhile isNameChar
  let stop := c.next.skip name.length
  if !stop.gapAt 0 then none
  let (token, stop) ←
    if name = "YAML".toList then do
      let (major, stop) ← number? stop.skipBlanks
      if stop.rest.head? ≠ some '.' then none
      let (minor, stop) ← number? stop.next
      some (version major minor, stop)
    else if name = "TAG".toList then do
      let c := stop.skipBlanks
      let (handle, stop) ←
        if c.rest.head? = some '!' ∧ c.gapAt 1 then some (['!'], c.next) else handle? c
      if !(stop.rest.head?.any isBlank) then none
      let (start, stop) ← tagText? true stop.skipBlanks
      if !stop.gapAt 0 then none
      some (shorthand (.ofList handle) (.ofList start), stop)
    else none
  return (token, ← stop.restOfLine?)

end Token

/-! ### Reading tokens -/

/-- Where a key may have started. -/
structure KeyPlace where
  /-- The number of tokens before. -/
  index : Nat
  /-- Where it starts. -/
  start : Cursor
  /-- Whether nothing but a key may start there. -/
  required : Bool

namespace KeyPlace

/-- Whether a key from here to a place is too long: a key is on one line, and has no more
    than 1024 bytes with what stands before its colon. -/
def isStale (k : KeyPlace) (c : Cursor) : Bool :=
  k.start.line < c.line || k.start.offset + 1024 < c.offset

end KeyPlace

/-- What was read of a text. -/
structure Tokens where
  /-- The text that is left. -/
  cursor : Cursor
  /-- The tokens before it. -/
  read : List Token
  /-- The margins of the open blocks, the innermost first: what belongs to an entry of a
      block starts at its margin or after, the entries one column before. -/
  margins : List Nat
  /-- Where a key may have started, in the innermost open flow collection. -/
  key : Option KeyPlace
  /-- Where keys may have started around each open flow collection, the innermost first. -/
  outer : List (Option KeyPlace)
  /-- Whether a key may start here. -/
  keyAllowed : Bool

namespace Tokens

/-- Nothing was read. -/
def start (text : List Char) : Tokens := ⟨.start text, [], [], none, [], true⟩

/-- Whether a flow collection is open. -/
def inFlow (s : Tokens) : Bool := !s.outer.isEmpty

/-- The margin of the innermost open block. -/
def margin (s : Tokens) : Nat := s.margins.headD 0

/-- The next token was read. -/
def push (s : Tokens) (token : Token) (next : Cursor) : Tokens :=
  { s with read := s.read ++ [token], cursor := next }

/-! ### Places of keys -/

/-- The place of a key, if the key is still possible; not well formed if it is not, but
    required. -/
def fresh? (c : Cursor) : Option KeyPlace → Option (Option KeyPlace)
  | none => some none
  | some k => if k.isStale c then (if k.required then none else some none) else some (some k)

/-- Keys that got too long are none. -/
def dropStale (s : Tokens) : Option Tokens := do
  return { s with key := ← fresh? s.cursor s.key, outer := ← s.outer.mapM (fresh? s.cursor) }

/-- What was started is no key. -/
def dropKey (s : Tokens) : Option Tokens :=
  if s.key.any (·.required) then none else some { s with key := none }

/-- A key may start here. Where the next entry of a block is due, one must. -/
def noteKey (s : Tokens) : Option Tokens :=
  if s.keyAllowed then do
    let s ← s.dropKey
    return { s with
      key := some ⟨s.read.length, s.cursor, !s.inFlow && s.margin == s.cursor.column + 1⟩ }
  else some s

/-! ### Starts and ends of blocks -/

/-- Blocks end whose margin is after `least`. -/
def closeBlocks (s : Tokens) (least : Nat) : Tokens :=
  if s.inFlow then s
  else
    let closed := s.margins.takeWhile fun margin => least < margin
    { s with
      margins := s.margins.drop closed.length
      read := s.read ++ closed.map fun _ => .blockEnd }

/-- A block with entries in a column starts at a token, unless it is already open. -/
def openBlock (s : Tokens) (token : Token) (index column : Nat) : Tokens :=
  if !s.inFlow && s.margin ≤ column then
    { s with margins := (column + 1) :: s.margins, read := s.read.insertIdx index token }
  else s

/-! ### One token -/

/-- Past blanks, comments and line ends. A line of a block must not start with a tab; the
    cursor stays there. A byte order mark may start a line. -/
def toToken : Nat → Tokens → Tokens
  | 0, s => s
  | fuel + 1, s =>
    let c := s.cursor
    let c := if c.column = 0 ∧ c.rest.head? = some '\uFEFF' then c.next else c
    let tabs := s.inFlow || !s.keyAllowed
    let c := (c.skipRun fun x => x == ' ' || (tabs && x == '\t')).skipComment
    match c.lineEnd? with
    | some (_, next) =>
      toToken fuel { s with cursor := next, keyAllowed := s.keyAllowed || !s.inFlow }
    | none => { s with cursor := c }

/-- A mark that starts or ends a document, and every block with it. -/
def document (s : Tokens) (token : Token) (next : Cursor) : Option Tokens := do
  let s ← (s.closeBlocks 0).dropKey
  return { s.push token next with keyAllowed := false }

/-- The start of a flow collection. -/
def flowStart (s : Tokens) (mapping : Bool) : Option Tokens := do
  let s ← s.noteKey
  return { s.push (.flow mapping) s.cursor.next with
    key := none, outer := s.key :: s.outer, keyAllowed := true }

/-- The end of a flow collection. -/
def flowEnd (s : Tokens) (mapping : Bool) : Option Tokens := do
  let s ← s.dropKey
  return { s.push (.flowEnd mapping) s.cursor.next with
    key := s.outer.headD none, outer := s.outer.drop 1, keyAllowed := false }

/-- A comma. -/
def comma (s : Tokens) : Option Tokens := do
  let s ← s.dropKey
  return { s.push .comma s.cursor.next with keyAllowed := true }

/-- A dash, which may start a block. -/
def item (s : Tokens) : Option Tokens := do
  if !s.inFlow && !s.keyAllowed then none
  let s := s.openBlock .sequence s.read.length s.cursor.column
  let s ← s.dropKey
  return { s.push .item s.cursor.next with keyAllowed := true }

/-- A question mark before a key, which may start a block. -/
def explicitKey (s : Tokens) : Option Tokens := do
  if !s.inFlow && !s.keyAllowed then none
  let s := s.openBlock .mapping s.read.length s.cursor.column
  let s ← s.dropKey
  return { s.push .key s.cursor.next with keyAllowed := !s.inFlow }

/-- A colon, which makes a key of what was started before, or follows a key that was said
    to be one. -/
def value (s : Tokens) : Option Tokens :=
  match s.key with
  | some k =>
    let s := { s with read := s.read.insertIdx k.index .key }
    let s := s.openBlock .mapping k.index k.start.column
    some { s.push .value s.cursor.next with key := none, keyAllowed := false }
  | none =>
    if !s.inFlow && !s.keyAllowed then none
    else
      let s := s.openBlock .mapping s.read.length s.cursor.column
      some { s.push .value s.cursor.next with keyAllowed := !s.inFlow }

/-- A reference, an anchor or a tag, which may start a key. -/
def property (s : Tokens) (token : Token) (next : Cursor) : Option Tokens := do
  let s ← s.noteKey
  return { s.push token next with keyAllowed := false }

/-- A scalar between quotes, which may be a key. -/
def quoted (s : Tokens) (read : Cursor → Option (List Char × Cursor)) : Option Tokens := do
  let s ← s.noteKey
  let (text, stop) ← read s.cursor
  return { s.push (.scalar (.ofList text) .quoted) stop with keyAllowed := false }

/-- A scalar on lines of its own, after which a key may start. -/
def onLines (s : Tokens) (literal : Bool) : Option Tokens := do
  let s ← s.dropKey
  let (text, stop) ← Scalar.block literal s.margin s.cursor
  return { s.push (.scalar (.ofList text) (if literal then .literal else .folded)) stop with
    keyAllowed := true }

/-- A plain scalar, which may be a key; after its last line a key may start. -/
def plain (s : Tokens) : Option Tokens := do
  let s ← s.noteKey
  let (text, ended, stop) ← Scalar.plain s.inFlow s.margin s.cursor
  return { s.push (.scalar (.ofList text) .plain) stop with keyAllowed := ended }

/-- The characters that a plain scalar cannot start with, whatever follows. -/
def startMarks : List Char := "#,[]\x7b\x7d&*!|>'\"%@\x60".toList

/-- The token that starts with a character. -/
def readToken (s : Tokens) (x : Char) : Option Tokens :=
  let c := s.cursor
  if c.column = 0 ∧ x = '%' then do
    let (token, next) ← Token.readDirective c
    s.document token next
  else if c.atMark "---" then s.document .documentStart (c.skip 3)
  else if c.atMark "..." then s.document .documentEnd (c.skip 3)
  else if x = '[' then s.flowStart false
  else if x = '\x7b' then s.flowStart true
  else if x = ']' then s.flowEnd false
  else if x = '\x7d' then s.flowEnd true
  else if x = ',' then s.comma
  else if x = '-' ∧ c.gapAt 1 then s.item
  else if x = '?' ∧ (s.inFlow ∨ c.gapAt 1) then s.explicitKey
  else if x = ':' ∧ (s.inFlow ∨ c.gapAt 1) then s.value
  else if x = '*' then do
    let (name, next) ← Token.readName c
    s.property (.reference name) next
  else if x = '&' then do
    let (name, next) ← Token.readName c
    s.property (.anchor name) next
  else if x = '!' then do
    let (token, next) ← Token.readTag s.inFlow c
    s.property token next
  else if x = '|' ∧ !s.inFlow then s.onLines true
  else if x = '>' ∧ !s.inFlow then s.onLines false
  else if x = '\'' then s.quoted Scalar.single
  else if x = '"' then s.quoted Scalar.double
  else if isBlank x ∨ startMarks.contains x then none
  else s.plain

/-- The tokens of the text that is left, and those before. -/
def readAll : Nat → Tokens → Option (List Token)
  | 0, _ => none
  | fuel + 1, s => do
    let s ← (s.toToken (fuel + 1)).dropStale
    let s := s.closeBlocks (s.cursor.column + 1)
    match s.cursor.rest.head? with
    | none => (s.closeBlocks 0).dropKey.map (·.read)
    | some x => readAll fuel (← s.readToken x)

end Tokens

/-- The tokens of a text. -/
def Token.all? (text : List Char) : Option (List Token) :=
  (Tokens.start text).readAll (text.length + 1)

end Deployment.Yaml

import Deployment.Yaml.Token

/-!
# Reading YAML

The value of a text with one document: a value in a block or in a flow collection, after
directives or without, with anchors, references to them, and tags.

Tokens are read from left to right. Functions that read values call each other with less
`fuel`; between two calls a token is read, or the next one reads it, so that twice the
number of tokens suffices.

* `Yaml.parse`: the values of a text, or nothing if the text is not well formed.
-/

namespace Deployment.Yaml

/-- What is left of a document, and what was read before. -/
structure Reading where
  /-- The tokens that are left. -/
  tokens : List Token
  /-- What tags start with, by their handles. -/
  shorthands : List (String × String)
  /-- The anchors, the latest first, by the number of anchors before each. -/
  anchors : List (String × Nat)
  /-- The values with anchors that are complete. -/
  anchored : List (Nat × Yaml)

/-- A step that reads tokens, if they are in order. -/
abbrev Reader := StateT Reading Option

namespace Reader

/-- The next token. -/
def peek : Reader (Option Token) := return (← get).tokens.head?

/-- Past the next token. -/
def skip : Reader Unit := modify fun r => { r with tokens := r.tokens.drop 1 }

/-- Past the next token, which must be this one. -/
def expect (token : Token) : Reader Unit := do
  if (← peek) = some token then skip else failure

/-- A reference to the value with an anchor. -/
def reference (name : String) : Reader Yaml := do
  match (← get).anchors.lookup name with
  | some n => return .reference n
  | none => failure

/-- The whole of a tag. -/
def tag (handle suffix : String) : Reader String := do
  if handle = "" then return suffix
  else match (← get).shorthands.lookup handle with
    | some start => return start ++ suffix
    | none => failure

/-- The value that a step reads gets an anchor, by which it may be meant from now on. -/
def anchor (name : Option String) (value : Reader Yaml) : Reader Yaml :=
  match name with
  | none => value
  | some name => do
    let n := (← get).anchors.length
    modify fun r => { r with anchors := (name, n) :: r.anchors }
    let value ← value
    modify fun r => { r with anchored := (n, value) :: r.anchored }
    return value

/-- The anchor and the tag of a value, in either order, if it has them. -/
def properties : Reader (Option String × Option String) := do
  match ← peek with
  | some (.anchor name) =>
    skip
    match ← peek with
    | some (.tag handle suffix) =>
      skip
      return (some name, some (← tag handle suffix))
    | _ => return (some name, none)
  | some (.tag handle suffix) =>
    skip
    match ← peek with
    | some (.anchor name) =>
      skip
      return (some name, some (← tag handle suffix))
    | _ => return (none, some (← tag handle suffix))
  | _ => return (none, none)

/-- Whether an entry of a block is left empty before a token. -/
def endsEntry (token : Option Token) : Bool :=
  token = some .key || token = some .value || token = some .blockEnd

/-- Whether an entry of a flow collection is left empty before a token. -/
def endsFlowEntry (mapping : Bool) (token : Option Token) : Bool :=
  token = some .comma || token = some (.flowEnd mapping)

mutual

/-- A value: `inBlock` says whether it may be a collection in a block, `itemsHere` whether it
    may be a sequence whose items stand in the column of the key before it. -/
def node : Nat → Bool → Bool → Reader Yaml
  | 0, _, _ => failure
  | fuel + 1, inBlock, itemsHere => do
    if let some (.reference name) ← peek then
      skip
      reference name
    else
      let (name, tag) ← properties
      anchor name do
        match ← peek with
        | some (.scalar text style) =>
          skip
          return .scalar text style tag
        | some (.flow false) =>
          skip
          flowItems fuel true []
        | some (.flow true) =>
          skip
          flowEntries fuel true []
        | some .item => if itemsHere then keyItems fuel [] else empty name tag
        | some .sequence =>
          if inBlock then
            skip
            items fuel []
          else empty name tag
        | some .mapping =>
          if inBlock then
            skip
            entries fuel []
          else empty name tag
        | _ => empty name tag
where
  /-- A value that has nothing but an anchor or a tag. -/
  empty (name tag : Option String) : Reader Yaml :=
    if name.isSome || tag.isSome then return .scalar "" .plain tag else failure

/-- The items of a block sequence, after those that were read. -/
def items : Nat → List Yaml → Reader Yaml
  | 0, _ => failure
  | fuel + 1, before => do
    match ← peek with
    | some .item =>
      skip
      let next ← peek
      let value ←
        if next = some .item ∨ next = some .blockEnd then pure nothing else node fuel true false
      items fuel (before ++ [value])
    | some .blockEnd =>
      skip
      return .sequence before
    | _ => failure

/-- The items of a sequence in the column of its key, after those that were read. -/
def keyItems : Nat → List Yaml → Reader Yaml
  | 0, _ => failure
  | fuel + 1, before => do
    if (← peek) = some .item then
      skip
      let next ← peek
      let value ←
        if next = some .item || endsEntry next then pure nothing else node fuel true false
      keyItems fuel (before ++ [value])
    else return .sequence before

/-- The entries of a block mapping, after those that were read. -/
def entries : Nat → List (Yaml × Yaml) → Reader Yaml
  | 0, _ => failure
  | fuel + 1, before => do
    match ← peek with
    | some .key =>
      skip
      let key ← if endsEntry (← peek) then pure nothing else node fuel true true
      let value ←
        if (← peek) = some .value then
          skip
          if endsEntry (← peek) then pure nothing else node fuel true true
        else pure nothing
      entries fuel (before ++ [(key, value)])
    | some .blockEnd =>
      skip
      return .mapping before
    | _ => failure

/-- The items of a flow sequence, after those that were read. An item with a key is a
    mapping of one entry; if the key is empty, the token after it is passed over. -/
def flowItems : Nat → Bool → List Yaml → Reader Yaml
  | 0, _, _ => failure
  | fuel + 1, first, before => do
    if (← peek) = some (.flowEnd false) then
      skip
      return .sequence before
    else
      if !first then expect .comma
      match ← peek with
      | some (.flowEnd false) =>
        skip
        return .sequence before
      | some .key =>
        skip
        let next ← peek
        let key ←
          if next = some .value || endsFlowEntry false next then
            skip
            pure nothing
          else node fuel false false
        let value ←
          if (← peek) = some .value then
            skip
            if endsFlowEntry false (← peek) then pure nothing else node fuel false false
          else pure nothing
        flowItems fuel false (before ++ [.mapping [(key, value)]])
      | _ =>
        let value ← node fuel false false
        flowItems fuel false (before ++ [value])

/-- The entries of a flow mapping, after those that were read. -/
def flowEntries : Nat → Bool → List (Yaml × Yaml) → Reader Yaml
  | 0, _, _ => failure
  | fuel + 1, first, before => do
    if (← peek) = some (.flowEnd true) then
      skip
      return .mapping before
    else
      if !first then expect .comma
      match ← peek with
      | some (.flowEnd true) =>
        skip
        return .mapping before
      | some .key =>
        skip
        let next ← peek
        let key ←
          if next = some .value || endsFlowEntry true next then pure nothing
          else node fuel false false
        let value ←
          if (← peek) = some .value then
            skip
            if endsFlowEntry true (← peek) then pure nothing else node fuel false false
          else pure nothing
        flowEntries fuel false (before ++ [(key, value)])
      | _ =>
        let key ← node fuel false false
        flowEntries fuel false (before ++ [(key, nothing)])

end

/-! ### Documents -/

/-- The directives before a document: at most one version, which must be a known one, and
    handles of tags, each at most once. -/
def directives : Nat → Bool → Reader Unit
  | 0, _ => failure
  | fuel + 1, versioned => do
    match ← peek with
    | some (.version major minor) =>
      if versioned ∨ major ≠ 1 ∨ (minor ≠ 1 ∧ minor ≠ 2) then failure
      skip
      directives fuel true
    | some (.shorthand handle start) =>
      if ((← get).shorthands.lookup handle).isSome then failure
      modify fun r => { r with shorthands := (handle, start) :: r.shorthands }
      skip
      directives fuel versioned
    | _ => return ()

/-- The handles that need no directive. -/
def knownShorthands : List (String × String) := [("!", "!"), ("!!", "tag:yaml.org,2002:")]

/-- Whether a document has no content before a token. -/
def endsDocument : Option Token → Bool
  | none => true
  | some (.version ..) => true
  | some (.shorthand ..) => true
  | some .documentStart => true
  | some .documentEnd => true
  | _ => false

/-- Past the marks after a document. -/
def ends : Nat → Reader Unit
  | 0 => failure
  | fuel + 1 => do
    if (← peek) = some .documentEnd then
      skip
      ends fuel

/-- The value of the only document. -/
def document (fuel : Nat) : Reader Yaml := do
  let first ← peek
  let explicit := endsDocument first && first ≠ some .documentEnd && first.isSome
  if explicit then
    directives fuel false
    expect .documentStart
  modify fun r => { r with shorthands := r.shorthands ++ knownShorthands }
  let next ← peek
  let value ←
    if next.isNone || (explicit && endsDocument next) then pure nothing
    else node fuel true false
  ends fuel
  if (← peek).isSome then failure
  return value

end Reader

/-- Whether a text may have a character. -/
def isReadable (x : Char) : Bool :=
  let n := x.toNat
  n == 9 || n == 10 || n == 13 || (0x20 ≤ n && n ≤ 0x7E) || n == 0x85 ||
    (0xA0 ≤ n && n ≠ 0xFFFE && n ≠ 0xFFFF)

/-- The values of a text. -/
def parse (text : String) : Option Graph := do
  let chars := text.toList
  if !chars.all isReadable then none
  let tokens ← Token.all? chars
  let (root, after) ← Reader.document (2 * tokens.length + 4) |>.run ⟨tokens, [], [], []⟩
  return ⟨root, after.anchored⟩

end Deployment.Yaml

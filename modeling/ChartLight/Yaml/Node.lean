import ChartLight.Yaml.Layout

/-! YAML documents as trees. An anchored node is kept beside the tree, and an alias holds its
number; the tree itself is finite whatever the aliases say. -/

namespace ChartLight.Yaml

inductive Node where
  | scalar (tag : Option String) (style : Style) (text : String)
  | sequence (items : List Node)
  | mapping (entries : List (Node × Node))
  | alias (number : Nat)
  deriving Inhabited

namespace Node

/-- The scalar of a place where nothing stands. -/
def empty : Node := .scalar none .plain ""

/-- What is known while the tokens of a document are read. -/
structure Reading where
  tokens : List Token
  /-- What each tag handle stands for. -/
  handles : List (String × String)
  /-- The number that each anchor's name has at present. -/
  names : List (String × Nat)
  anchored : List (Nat × Node)

abbrev Reader := StateT Reading Option

def peek : Reader (Option Token) := do return (← get).tokens.head?

def drop : Reader Unit := modify fun r => { r with tokens := r.tokens.tail }

def peekIs (ts : List Token) : Reader Bool := do return (← peek).any (· ∈ ts)

/-- Passes a token if it comes next. -/
def accept (t : Token) : Reader Bool := do
  if (← peek) == some t then
    drop
    return true
  else return false

/-- An anchor takes the next number; a name used again loses its old one. -/
def nameNode (name : String) : Reader Nat := do
  let r ← get
  let number := r.names.length
  set { r with names := (name, number) :: r.names.filter (·.1 != name) }
  return number

def tagText (handle suffix : String) : Reader String := do
  if handle == "" then return suffix
  else match (← get).handles.lookup handle with
    | some beginning => return beginning ++ suffix
    | none => failure

/-- The anchor and the tag before a node, in either order. -/
def properties : Reader (Option String × Option String) := do
  match (← get).tokens with
  | .anchor name :: .tag handle suffix :: _ =>
    drop
    drop
    return (some name, some (← tagText handle suffix))
  | .tag handle suffix :: .anchor name :: _ =>
    drop
    drop
    return (some name, some (← tagText handle suffix))
  | .anchor name :: _ =>
    drop
    return (some name, none)
  | .tag handle suffix :: _ =>
    drop
    return (none, some (← tagText handle suffix))
  | _ => return (none, none)

mutual

/-- Reads a node. Blocks may begin only where `block` says so, and a sequence whose entries stand
at the column of their key only where `indentless` does. -/
def node (block indentless : Bool) : Nat → Reader Node
  | 0 => failure
  | fuel + 1 => do
    match ← peek with
    | some (.alias name) =>
      drop
      match (← get).names.lookup name with
      | some number => return .alias number
      | none => failure
    | _ =>
      let (anchor, tag) ← properties
      let number ← anchor.mapM nameNode
      let content ← match ← peek with
        | some .blockEntry =>
          if indentless then pure (.sequence (← indentlessEntries fuel))
          else if anchor.isSome || tag.isSome then pure (.scalar tag .plain "")
          else failure
        | some (.scalar style text) =>
          drop
          pure (.scalar tag style text)
        | some .flowSequenceStart =>
          drop
          pure (.sequence (← flowEntries true fuel))
        | some .flowMappingStart =>
          drop
          pure (.mapping (← flowPairs true fuel))
        | t =>
          if block && t == some .blockSequenceStart then
            drop
            pure (.sequence (← blockEntries fuel))
          else if block && t == some .blockMappingStart then
            drop
            pure (.mapping (← blockPairs fuel))
          else if anchor.isSome || tag.isSome then pure (.scalar tag .plain "")
          else failure
      if let some number := number then
        modify fun r => { r with anchored := (number, content) :: r.anchored }
      return content

/-- A node, or the empty scalar where one of `ends` comes next. -/
def nodeUnless (ends : List Token) (block indentless : Bool) : Nat → Reader Node
  | 0 => failure
  | fuel + 1 => do
    if (← peekIs ends) then return empty else node block indentless fuel

def blockEntries : Nat → Reader (List Node)
  | 0 => failure
  | fuel + 1 => do
    if (← accept .blockEntry) then
      let item ← nodeUnless [.blockEntry, .blockEnd] true false fuel
      return item :: (← blockEntries fuel)
    else if (← accept .blockEnd) then return []
    else failure

def indentlessEntries : Nat → Reader (List Node)
  | 0 => failure
  | fuel + 1 => do
    if (← accept .blockEntry) then
      let item ← nodeUnless [.blockEntry, .key, .value, .blockEnd] true false fuel
      return item :: (← indentlessEntries fuel)
    else return []

def blockPairs : Nat → Reader (List (Node × Node))
  | 0 => failure
  | fuel + 1 => do
    let ends : List Token := [.key, .value, .blockEnd]
    if (← accept .key) then
      let key ← nodeUnless ends true true fuel
      let value ← if (← accept .value) then nodeUnless ends true true fuel else pure empty
      return (key, value) :: (← blockPairs fuel)
    else if (← accept .blockEnd) then return []
    else failure

/-- The items of a flow sequence. One with a key is a mapping of one pair; where its key is absent,
the token in the key's place is passed over. -/
def flowEntries (first : Bool) : Nat → Reader (List Node)
  | 0 => failure
  | fuel + 1 => do
    if (← accept .flowSequenceEnd) then return []
    else
      if !first && !(← accept .flowEntry) then failure
      if (← accept .flowSequenceEnd) then return []
      else if (← accept .key) then
        let key ←
          if (← peekIs [.value, .flowEntry, .flowSequenceEnd]) then
            drop
            pure empty
          else node false false fuel
        let value ←
          if (← accept .value) then
            nodeUnless [.flowEntry, .flowSequenceEnd] false false fuel
          else pure empty
        return .mapping [(key, value)] :: (← flowEntries false fuel)
      else
        let item ← node false false fuel
        return item :: (← flowEntries false fuel)

def flowPairs (first : Bool) : Nat → Reader (List (Node × Node))
  | 0 => failure
  | fuel + 1 => do
    if (← accept .flowMappingEnd) then return []
    else
      if !first && !(← accept .flowEntry) then failure
      if (← accept .flowMappingEnd) then return []
      else if (← accept .key) then
        let key ← nodeUnless [.value, .flowEntry, .flowMappingEnd] false false fuel
        let value ←
          if (← accept .value) then
            nodeUnless [.flowEntry, .flowMappingEnd] false false fuel
          else pure empty
        return (key, value) :: (← flowPairs false fuel)
      else
        let key ← node false false fuel
        return (key, empty) :: (← flowPairs false fuel)

end

end Node

structure Document where
  root : Node
  anchored : List (Nat × Node)

namespace Document

/-- The node itself, or the one that an alias stands for. -/
def follow (d : Document) : Node → Node
  | .alias number => (d.anchored.lookup number).getD .empty
  | n => n

/-- The directives before a document: at most one version, which must be 1.1 or 1.2, and no handle
twice. -/
def directives (versioned : Bool) : Nat → Node.Reader Unit
  | 0 => failure
  | fuel + 1 => do
    match ← Node.peek with
    | some (.versionDirective major minor) =>
      if versioned || major != 1 || (minor != 1 && minor != 2) then failure
      Node.drop
      directives true fuel
    | some (.tagDirective handle beginning) =>
      let r ← get
      if (r.handles.lookup handle).isSome then failure
      set { r with handles := (handle, beginning) :: r.handles }
      Node.drop
      directives versioned fuel
    | _ => return

/-- Passes the marks that end a document. -/
def dropEnds : Nat → Node.Reader Unit
  | 0 => return
  | fuel + 1 => do if (← Node.accept .documentEnd) then dropEnds fuel

def ownHandles : List (String × String) := [("!", "!"), ("!!", "tag:yaml.org,2002:")]

/-- Reads the only document of a stream; there is none in an empty stream. -/
def only (fuel : Nat) : Node.Reader (Option Node) := do
  match ← Node.peek with
  | none => return none
  | some first =>
    let explicit ← match first with
      | .versionDirective _ _ | .tagDirective _ _ | .documentStart => do
        directives false fuel
        if !(← Node.accept .documentStart) then failure
        pure true
      | _ => pure false
    modify fun r => { r with handles := r.handles ++ ownHandles }
    let atEnd ← match ← Node.peek with
      | none | some (.versionDirective _ _) | some (.tagDirective _ _) | some .documentStart
      | some .documentEnd => pure true
      | _ => pure false
    let root ← if explicit && atEnd then pure Node.empty else Node.node true false fuel
    dropEnds fuel
    if (← Node.peek).isSome then failure
    return some root

/-- The only document of a text: nothing for a malformed text or one with several documents, and no
document for a text without any. -/
def read? (cs : List Char) : Option (Option Document) := do
  let tokens ← tokens? cs
  let (root, r) ← (only (4 * tokens.length + 4)).run ⟨tokens, [], [], []⟩
  return root.map (⟨·, r.anchored⟩)

end Document

end ChartLight.Yaml

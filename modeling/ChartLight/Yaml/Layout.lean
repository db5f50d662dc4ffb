import ChartLight.Yaml.Scalar

/-! The tokens of a YAML text. Indentation opens and closes blocks, and a word is known to be a key
only when its colon is reached; until then it is remembered as a possible key, and the tokens that
open the mapping are put in front of it afterwards. -/

namespace ChartLight.Yaml

/-- A place where a key may have begun. -/
structure PossibleKey where
  /-- How many tokens were read before it. -/
  position : Nat
  index : Nat
  line : Nat
  column : Nat
  /-- Whether the layout leaves no other reading. -/
  required : Bool

structure Layout where
  cursor : Cursor
  tokens : Array Token
  indent : Int
  /-- The indentations around the present one. -/
  outer : List Int
  flowDepth : Nat
  keyAllowed : Bool
  /-- The possible key of each open flow collection, the innermost first, and of the block. -/
  keys : List (Option PossibleKey)

namespace Layout

def start (c : Cursor) : Layout := ⟨c, #[], -1, [], 0, true, [none]⟩

def inFlow (l : Layout) : Bool := 0 < l.flowDepth

def push (l : Layout) (t : Token) : Layout := { l with tokens := l.tokens.push t }

def insert (l : Layout) (position : Nat) (t : Token) : Layout :=
  { l with tokens := l.tokens.insertIdxIfInBounds position t }

def skip (l : Layout) (n : Nat) : Layout := { l with cursor := l.cursor.skip n }

def allowKey (l : Layout) (allowed : Bool) : Layout := { l with keyAllowed := allowed }

/-- Past white space, comments and line breaks. A tab may not stand where a key could begin. -/
def skipToToken : Nat → Layout → Layout
  | 0, l => l
  | fuel + 1, l =>
    let tabs := l.inFlow || !l.keyAllowed
    let c := l.cursor.skipWhile fun x => x == ' ' || (tabs && x == '\t')
    let c := match c.rest with
      | '#' :: _ => c.skipWhile fun _ => true
      | _ => c
    if c.atLineEnd && !c.rest.isEmpty then
      skipToToken fuel { l with cursor := c.takeBreak.2, keyAllowed := l.keyAllowed || !l.inFlow }
    else { l with cursor := c }

/-- Forgets the possible keys that are too far back: a key stays on one line and within 1024
characters. -/
def dropStaleKeys (l : Layout) : Option Layout :=
  let stale := fun k : PossibleKey => decide (k.line < l.cursor.line ∨ k.index + 1024 < l.cursor.index)
  if l.keys.any (·.any fun k => stale k && k.required) then none
  else some { l with keys := l.keys.map (·.filter fun k => !stale k) }

/-- Closes the blocks that are set in further than a column. -/
def unroll (l : Layout) (column : Int) : Layout :=
  if l.inFlow then l
  else
    let closed := (l.indent :: l.outer).takeWhile (column < ·)
    let left := (l.indent :: l.outer).dropWhile (column < ·)
    { l with
      tokens := l.tokens ++ Array.replicate closed.length Token.blockEnd
      indent := left.headD (-1)
      outer := left.tail }

/-- Opens a block at a column, if it is set in further than the present one. -/
def roll (l : Layout) (column position : Nat) (t : Token) : Layout :=
  if !l.inFlow && l.indent < column then
    { l.insert position t with indent := column, outer := l.indent :: l.outer }
  else l

def removeKey (l : Layout) : Option Layout :=
  match l.keys with
  | some k :: rest => if k.required then none else some { l with keys := none :: rest }
  | _ => some l

/-- Remembers that a key may begin here. -/
def saveKey (l : Layout) : Option Layout :=
  if l.keyAllowed then do
    let l ← l.removeKey
    let c := l.cursor
    let key : PossibleKey :=
      ⟨l.tokens.size, c.index, c.line, c.column, !l.inFlow && l.indent == (c.column : Int)⟩
    return { l with keys := some key :: l.keys.tail }
  else some l

def openFlow (l : Layout) (t : Token) : Option Layout := do
  let l ← l.saveKey
  return { (l.skip 1).push t with
    flowDepth := l.flowDepth + 1, keys := none :: l.keys, keyAllowed := true }

def closeFlow (l : Layout) (t : Token) : Option Layout := do
  let l ← l.removeKey
  let keys := if l.inFlow then l.keys.tail else l.keys
  return { (l.skip 1).push t with flowDepth := l.flowDepth - 1, keys, keyAllowed := false }

def flowEntry (l : Layout) : Option Layout := do
  let l ← l.removeKey
  return ((l.allowKey true).skip 1).push .flowEntry

def blockEntry (l : Layout) : Option Layout := do
  let l ←
    if l.inFlow then some l
    else if l.keyAllowed then some (l.roll l.cursor.column l.tokens.size .blockSequenceStart)
    else none
  let l ← l.removeKey
  return ((l.allowKey true).skip 1).push .blockEntry

def explicitKey (l : Layout) : Option Layout := do
  let l ←
    if l.inFlow then some l
    else if l.keyAllowed then some (l.roll l.cursor.column l.tokens.size .blockMappingStart)
    else none
  let l ← l.removeKey
  return ((l.allowKey !l.inFlow).skip 1).push .key

/-- A colon: it makes a key of the place where one may have begun. -/
def value (l : Layout) : Option Layout := do
  match l.keys with
  | some k :: rest =>
    let l := l.insert k.position .key
    let l := l.roll k.column k.position .blockMappingStart
    return (({ l with keys := none :: rest, keyAllowed := false }).skip 1).push .value
  | _ =>
    let l ←
      if l.inFlow then some l
      else if l.keyAllowed then some (l.roll l.cursor.column l.tokens.size .blockMappingStart)
      else none
    return ((l.allowKey !l.inFlow).skip 1).push .value

/-- The name after `&` or `*`. -/
def named (l : Layout) (t : String → Token) : Option Layout := do
  let l ← l.saveKey
  let (name, c) := (l.cursor.skip 1).span isWordChar
  let closed := endsWord c.rest ||
    c.rest.head?.any fun x => x ∈ ['?', ':', ',', ']', '}', '%', '@', '`']
  let t := t (String.ofList name)
  if closed && !name.isEmpty then return { l with cursor := c, keyAllowed := false }.push t else none

def isTagChar (verbatim : Bool) (c : Char) : Bool :=
  isWordChar c ||
    c ∈ [';', '/', '?', ':', '@', '&', '=', '+', '$', '.', '%', '!', '~', '*', '\'', '(', ')'] ||
    (verbatim && c ∈ [',', '[', ']'])

/-- The bytes of a tag, with `%` and two hexadecimal digits for any of them. -/
def tagBytes? : List Char → Option (List UInt8)
  | [] => some []
  | '%' :: a :: b :: rest => do
    let n ← Quoted.hexNumber? [a, b]
    return n.toUInt8 :: (← tagBytes? rest)
  | '%' :: _ => none
  | c :: rest => do
    return (String.singleton c).toUTF8.toList ++ (← tagBytes? rest)

def tagText? (cs : List Char) : Option String := do
  String.fromUTF8? ⟨(← tagBytes? cs).toArray⟩

/-- The handle that begins a tag: `!`, `!!` or `!name!`. -/
def tagHandle (c : Cursor) : List Char × Cursor :=
  let (name, after) := (c.skip 1).span isWordChar
  match after.rest with
  | '!' :: _ => ('!' :: name ++ ['!'], after.skip 1)
  | _ => ('!' :: name, after)

def tag (l : Layout) : Option Layout := do
  let l ← l.saveKey
  let (handle, suffix, c) ←
    match l.cursor.rest with
    | _ :: '<' :: _ =>
      let (suffix, c) := (l.cursor.skip 2).span (isTagChar true)
      if suffix.isEmpty || c.rest.head? != some '>' then none
      else some ([], suffix, c.skip 1)
    | _ =>
      let (handle, c) := tagHandle l.cursor
      let (suffix, c) := c.span (isTagChar false)
      if 1 < handle.length && handle.getLast? == some '!' then
        if suffix.isEmpty then none else some (handle, suffix, c)
      else if (handle.tail ++ suffix).isEmpty then some ([], ['!'], c)
      else some (['!'], handle.tail ++ suffix, c)
  let closed := endsWord c.rest || (l.inFlow && c.rest.head? == some ',')
  let text ← tagText? suffix
  let t := Token.tag (String.ofList handle) text
  if closed then return { l with cursor := c, keyAllowed := false }.push t else none

def readNumber? (c : Cursor) : Option (Nat × Cursor) :=
  let (ds, c) := c.span (·.isDigit)
  if ds.isEmpty || 9 < ds.length then none else some (Nat.ofDigitChars 10 ds 0, c)

/-- A line that begins with `%`. -/
def directive (l : Layout) : Option Layout := do
  let l ← (l.unroll (-1)).removeKey
  let (name, c) := (l.cursor.skip 1).span isWordChar
  if name.isEmpty || !endsWord c.rest then none
  else
    let c := c.skipWhile isSpaceOrTab
    let (t, c) ←
      if name == ['Y', 'A', 'M', 'L'] then do
        let (major, c) ← readNumber? c
        if c.rest.head? != some '.' then none
        else
          let (minor, c) ← readNumber? (c.skip 1)
          some (Token.versionDirective major minor, c)
      else if name == ['T', 'A', 'G'] then do
        if c.rest.head? != some '!' then none
        else
          let (handle, c) := tagHandle c
          if handle != ['!'] && handle.getLast? != some '!' then none
          else if c.rest.isEmpty || !c.rest.head?.any isSpaceOrTab then none
          else
            let (beginning, c) := (c.skipWhile isSpaceOrTab).span (isTagChar true)
            if beginning.isEmpty || !endsWord c.rest then none
            else some (Token.tagDirective (String.ofList handle) (← tagText? beginning), c)
      else none
    let c := c.skipComment
    if !c.atLineEnd then none
    else return ({ l with cursor := c.takeBreak.2, keyAllowed := false }).push t

def documentMark (l : Layout) (t : Token) : Option Layout := do
  let l ← (l.unroll (-1)).removeKey
  return ((l.allowKey false).skip 3).push t

def plain (l : Layout) : Option Layout := do
  let l ← l.saveKey
  let r ← Plain.read? l.inFlow (l.indent + 1) l.cursor
  return { l with cursor := r.cursor, keyAllowed := r.brokeLine }.push
    (.scalar .plain (String.ofList r.text))

def quoted (l : Layout) (double : Bool) : Option Layout := do
  let l ← l.saveKey
  let (text, c) ← Quoted.read? double l.cursor
  return { l with cursor := c, keyAllowed := false }.push
    (.scalar (if double then .doubleQuoted else .singleQuoted) (String.ofList text))

def lines (l : Layout) (folded : Bool) : Option Layout := do
  let l ← l.removeKey
  let (text, c) ← Lines.read? folded l.indent l.cursor
  return { l with cursor := c, keyAllowed := true }.push
    (.scalar (if folded then .folded else .literal) (String.ofList text))

/-- The characters that no plain scalar begins with, save for `-`, `?` and `:` before a word. -/
def isIndicator (c : Char) : Bool :=
  c ∈ ['-', '?', ':', ',', '[', ']', '{', '}', '#', '&', '*', '!', '|', '>', '\'', '"', '%', '@', '`']

/-- Reads the next token, from its first character on. -/
def token (l : Layout) : Option Layout :=
  let c := l.cursor
  match c.rest with
  | [] => none
  | x :: rest =>
    if c.column == 0 && x == '%' then l.directive
    else if c.atDocumentMark then l.documentMark (if x == '-' then .documentStart else .documentEnd)
    else if x == '[' then l.openFlow .flowSequenceStart
    else if x == '{' then l.openFlow .flowMappingStart
    else if x == ']' then l.closeFlow .flowSequenceEnd
    else if x == '}' then l.closeFlow .flowMappingEnd
    else if x == ',' then l.flowEntry
    else if x == '-' && endsWord rest then l.blockEntry
    else if x == '?' && (l.inFlow || endsWord rest) then l.explicitKey
    else if x == ':' && (l.inFlow || endsWord rest) then l.value
    else if x == '*' then l.named .alias
    else if x == '&' then l.named .anchor
    else if x == '!' then l.tag
    else if x == '|' && !l.inFlow then l.lines false
    else if x == '>' && !l.inFlow then l.lines true
    else if x == '\'' then l.quoted false
    else if x == '"' then l.quoted true
    else if !(isIndicator x || isSpaceOrTab x || isBreak x) ||
        (x == '-' && !rest.head?.any isSpaceOrTab) ||
        (!l.inFlow && (x == '?' || x == ':') && !endsWord rest) then l.plain
    else none

/-- Closes all blocks at the end of the text. -/
def finish (l : Layout) : Option (List Token) := do
  let l ← (l.unroll (-1)).removeKey
  return l.tokens.toList

def run : Nat → Layout → Option (List Token)
  | 0, _ => none
  | fuel + 1, l => do
    let l ← (skipToToken (l.cursor.rest.length + 1) l).dropStaleKeys
    let l := l.unroll l.cursor.column
    if l.cursor.rest.isEmpty then l.finish else run fuel (← l.token)

end Layout

/-- The tokens of a text, unless it is malformed. A byte order mark may begin it, and takes up the
first column of its line. -/
def tokens? (cs : List Char) : Option (List Token) :=
  if cs.all isAllowed then
    let c := Cursor.ofText cs
    let c := if c.rest.head? == some '\uFEFF' then c.skip 1 else c
    Layout.run (cs.length + 1) (Layout.start c)
  else none

end ChartLight.Yaml

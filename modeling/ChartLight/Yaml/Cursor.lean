/-! A place in the text of a YAML document: what is left to read, and where it stands. -/

namespace ChartLight.Yaml

/-- The characters that end a line. -/
def isBreak (c : Char) : Bool :=
  c == '\n' || c == '\r' || c == '\u0085' || c == '\u2028' || c == '\u2029'

def isSpaceOrTab (c : Char) : Bool := c == ' ' || c == '\t'

/-- The characters of anchors, and of names in tags and directives. -/
def isWordChar (c : Char) : Bool := c.isAlphanum || c == '-' || c == '_'

/-- The characters that a document may hold. -/
def isAllowed (c : Char) : Bool :=
  let n := c.toNat
  n == 0x09 || n == 0x0A || n == 0x0D || (0x20 ≤ n && n ≤ 0x7E) || n == 0x85 ||
    (0xA0 ≤ n && n != 0xFFFE && n != 0xFFFF)

structure Cursor where
  rest : List Char
  index : Nat
  line : Nat
  column : Nat

/-- Whether a text begins with the end of a word: white space, a line break or nothing. -/
def endsWord : List Char → Bool
  | [] => true
  | c :: _ => isSpaceOrTab c || isBreak c

/-- Whether a text begins with a line that opens or closes a document. -/
def isDocumentMark : List Char → Bool
  | '-' :: '-' :: '-' :: rest => endsWord rest
  | '.' :: '.' :: '.' :: rest => endsWord rest
  | _ => false

namespace Cursor

def ofText (cs : List Char) : Cursor := ⟨cs, 0, 0, 0⟩

def atDocumentMark (c : Cursor) : Bool := c.column == 0 && isDocumentMark c.rest

def atLineEnd (c : Cursor) : Bool :=
  match c.rest with
  | [] => true
  | x :: _ => isBreak x

/-- The next `n` characters, none of which is a line break, and the place after them. -/
def take (c : Cursor) (n : Nat) : List Char × Cursor :=
  (c.rest.take n, ⟨c.rest.drop n, c.index + n, c.line, c.column + n⟩)

def skip (c : Cursor) (n : Nat) : Cursor := (c.take n).2

/-- The longest run of characters that satisfy `p`, up to the end of the line. -/
def span (c : Cursor) (p : Char → Bool) : List Char × Cursor :=
  c.take (c.rest.takeWhile fun x => p x && !isBreak x).length

def skipWhile (c : Cursor) (p : Char → Bool) : Cursor := (c.span p).2

/-- The place at the start of the next line, and the break as it counts in a scalar: a carriage
return, a line feed, both together and a next-line character are all a line feed. -/
def takeBreak (c : Cursor) : List Char × Cursor :=
  match c.rest with
  | '\r' :: '\n' :: rest => (['\n'], ⟨rest, c.index + 2, c.line + 1, 0⟩)
  | x :: rest =>
    if isBreak x then
      (if x == '\u2028' || x == '\u2029' then [x] else ['\n'], ⟨rest, c.index + 1, c.line + 1, 0⟩)
    else ([], c)
  | [] => ([], c)

/-- Past the white space of a line and a comment after it. -/
def skipComment (c : Cursor) : Cursor :=
  let c := c.skipWhile isSpaceOrTab
  match c.rest with
  | '#' :: _ => c.skipWhile fun _ => true
  | _ => c

end Cursor

/-- White space and line breaks between two parts of a scalar. -/
structure Gap where
  /-- White space, where there is no line break. -/
  blanks : List Char
  breaks : List (List Char)
  /-- Whether a line is set in with a tab to the left of column `indent`. -/
  badTab : Bool

namespace Gap

def empty : Gap := ⟨[], [], false⟩

/-- What a gap counts as inside a scalar: a single line feed is a space, and the first of several
is dropped. -/
def fold (gap : Gap) : List Char :=
  match gap.breaks with
  | [] => gap.blanks
  | first :: more =>
    if first = ['\n'] then (if more.isEmpty then [' '] else more.flatten) else first ++ more.flatten

/-- Reads on through white space and line breaks. -/
def extend (indent : Int) : Nat → Gap → Cursor → Gap × Cursor
  | 0, gap, c => (gap, c)
  | fuel + 1, gap, c =>
    match c.rest with
    | x :: _ =>
      if isSpaceOrTab x then
        let inMargin := !gap.breaks.isEmpty
        let gap := { gap with
          blanks := if inMargin then gap.blanks else gap.blanks ++ [x]
          badTab := gap.badTab || (inMargin && x == '\t' && c.column < indent) }
        extend indent fuel gap (c.skip 1)
      else if isBreak x then
        let (text, c) := c.takeBreak
        extend indent fuel { gap with breaks := gap.breaks ++ [text] } c
      else (gap, c)
    | [] => (gap, c)

end Gap

end ChartLight.Yaml

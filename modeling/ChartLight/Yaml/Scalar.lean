import ChartLight.Yaml.Cursor
import ChartLight.Yaml.Token

/-! Reading scalars: plain, quoted, and in blocks of lines. Each reader starts at the first
character of its scalar and gives the text and the place after it, or nothing where the text is
malformed. -/

namespace ChartLight.Yaml

def isFlowIndicator (c : Char) : Bool :=
  c == ',' || c == '[' || c == ']' || c == '{' || c == '}'

namespace Plain

/-- How many characters of a plain scalar stand before the next white space or indicator. -/
def runLength (inFlow : Bool) : List Char → Nat
  | [] => 0
  | c :: rest =>
    if isSpaceOrTab c || isBreak c then 0
    else if c == ':' && (endsWord rest ||
        (inFlow && rest.head?.any fun d => isFlowIndicator d || d == '?')) then 0
    else if inFlow && isFlowIndicator c then 0
    else runLength inFlow rest + 1

/-- A colon in a flow collection that neither ends a key nor belongs to the scalar. -/
def atStrayColon (inFlow : Bool) (cs : List Char) : Bool :=
  match cs with
  | ':' :: rest => inFlow && !endsWord rest && rest.head?.any fun d => isFlowIndicator d || d == '?'
  | _ => false

structure Result where
  text : List Char
  cursor : Cursor
  /-- Whether the scalar was followed by a line break. -/
  brokeLine : Bool

/-- Reads on after `text` and a gap. -/
def readFrom (inFlow : Bool) (indent : Int) : Nat → List Char → Gap → Cursor → Option Result
  | 0, _, _, _ => none
  | fuel + 1, text, gap, c =>
    let finished : Result := ⟨text, c, !gap.breaks.isEmpty⟩
    if c.atDocumentMark || c.rest.head? == some '#' then some finished
    else
      let (run, next) := c.take (runLength inFlow c.rest)
      if atStrayColon inFlow next.rest then none
      else
        let (text, gap) := if run.isEmpty then (text, gap) else (text ++ gap.fold ++ run, Gap.empty)
        if next.rest.isEmpty || !endsWord next.rest then some ⟨text, next, !gap.breaks.isEmpty⟩
        else
          let (gap, next) := gap.extend indent next.rest.length next
          if gap.badTab then none
          else if !inFlow && next.column < indent then some ⟨text, next, !gap.breaks.isEmpty⟩
          else readFrom inFlow indent fuel text gap next

def read? (inFlow : Bool) (indent : Int) (c : Cursor) : Option Result :=
  readFrom inFlow indent (c.rest.length + 1) [] .empty c

end Plain

namespace Quoted

def hexValue? (c : Char) : Option Nat :=
  if c.isDigit then some (c.toNat - 48)
  else if 'a' ≤ c && c ≤ 'f' then some (c.toNat - 87)
  else if 'A' ≤ c && c ≤ 'F' then some (c.toNat - 55)
  else none

/-- The number that hexadecimal digits stand for. -/
def hexNumber? (cs : List Char) : Option Nat :=
  (cs.mapM hexValue?).map (·.foldl (16 * · + ·) 0)

/-- The character after `\`, or how many hexadecimal digits give it. -/
def escape? : Char → Option (Char ⊕ Nat)
  | '0' => some (.inl '\x00')
  | 'a' => some (.inl '\x07')
  | 'b' => some (.inl '\x08')
  | 't' | '\t' => some (.inl '\t')
  | 'n' => some (.inl '\n')
  | 'v' => some (.inl '\x0b')
  | 'f' => some (.inl '\x0c')
  | 'r' => some (.inl '\r')
  | 'e' => some (.inl '\x1b')
  | ' ' => some (.inl ' ')
  | '"' => some (.inl '"')
  | '/' => some (.inl '/')
  | '\\' => some (.inl '\\')
  | 'N' => some (.inl '\u0085')
  | '_' => some (.inl '\u00a0')
  | 'L' => some (.inl '\u2028')
  | 'P' => some (.inl '\u2029')
  | 'x' => some (.inr 2)
  | 'u' => some (.inr 4)
  | 'U' => some (.inr 8)
  | _ => none

/-- The end of a run inside quotes. -/
inductive Stop where
  /-- At a quote, white space, a line break or the end of the text. -/
  | here
  /-- After an escaped line break. -/
  | escapedBreak

/-- Reads on to the next white space or the closing quote. -/
def run (double : Bool) : Nat → List Char → Cursor → Option (List Char × Stop × Cursor)
  | 0, _, _ => none
  | fuel + 1, text, c =>
    match c.rest with
    | [] => some (text, .here, c)
    | x :: rest =>
      if isSpaceOrTab x || isBreak x then some (text, .here, c)
      else if !double && x == '\'' then
        if rest.head? == some '\'' then run double fuel (text ++ ['\'']) (c.skip 2)
        else some (text, .here, c)
      else if double && x == '"' then some (text, .here, c)
      else if double && x == '\\' then
        match rest with
        | [] => none
        | y :: digits =>
          if isBreak y then some (text, .escapedBreak, (c.skip 1).takeBreak.2)
          else match escape? y with
            | none => none
            | some (.inl z) => run double fuel (text ++ [z]) (c.skip 2)
            | some (.inr width) =>
              if digits.length < width then none
              else match hexNumber? (digits.take width) with
                | some n =>
                  if n.isValidChar then
                    run double fuel (text ++ [Char.ofNat n]) (c.skip (2 + width))
                  else none
                | none => none
      else run double fuel (text ++ [x]) (c.skip 1)

def readFrom (double : Bool) : Nat → List Char → Cursor → Option (List Char × Cursor)
  | 0, _, _ => none
  | fuel + 1, text, c =>
    if c.atDocumentMark || c.rest.isEmpty then none
    else match run double (c.rest.length + 1) text c with
      | none => none
      | some (text, stop, c) =>
        if c.rest.head? == some (if double then '"' else '\'') then some (text, c.skip 1)
        else
          let started : Gap := match stop with
            | .here => .empty
            | .escapedBreak => ⟨[], [[]], false⟩
          let (gap, c) := started.extend 0 c.rest.length c
          readFrom double fuel (text ++ gap.fold) c

/-- Reads a quoted scalar, from its opening quote on. -/
def read? (double : Bool) (c : Cursor) : Option (List Char × Cursor) :=
  readFrom double (c.rest.length + 1) [] (c.skip 1)

end Quoted

namespace Lines

inductive Chomping where
  | strip
  | clip
  | keep
  deriving DecidableEq

/-- What may follow `|` or `>`: how the end is chomped and by how much the lines are set in. -/
def header (c : Cursor) : Option (Chomping × Option Nat × Cursor) :=
  let chomping? := fun (c : Cursor) => match c.rest with
    | '+' :: _ => some Chomping.keep
    | '-' :: _ => some Chomping.strip
    | _ => none
  let digit? := fun (c : Cursor) => match c.rest with
    | d :: _ => if d.isDigit then some (d.toNat - 48) else none
    | [] => none
  let (chomping, increment, c) :=
    match chomping? c with
    | some chomping =>
      match digit? (c.skip 1) with
      | some d => (chomping, some d, c.skip 2)
      | none => (chomping, none, c.skip 1)
    | none =>
      match digit? c with
      | some d =>
        match chomping? (c.skip 1) with
        | some chomping => (chomping, some d, c.skip 2)
        | none => (Chomping.clip, some d, c.skip 1)
      | none => (Chomping.clip, none, c)
  if increment = some 0 then none
  else
    let c := c.skipComment
    if c.atLineEnd then some (chomping, increment, c.takeBreak.2) else none

/-- Passes the empty lines before a line of text. While the indentation is not known, the widest
margin seen is kept in `widest`. -/
def margin (indent : Option Nat) : Nat → List (List Char) → Nat → Cursor →
    Option (List (List Char) × Nat × Cursor)
  | 0, breaks, widest, c => some (breaks, widest, c)
  | fuel + 1, breaks, widest, c =>
    let room := match indent with
      | some n => n - c.column
      | none => c.rest.length
    let c := c.skip (c.rest.take room |>.takeWhile (· == ' ')).length
    let widest := max widest c.column
    let short := match indent with
      | some n => decide (c.column < n)
      | none => true
    if short && c.rest.head? == some '\t' then none
    else match c.rest with
      | x :: _ =>
        if isBreak x then
          let (text, c) := c.takeBreak
          margin indent fuel (breaks ++ [text]) widest c
        else some (breaks, widest, c)
      | [] => some (breaks, widest, c)

/-- Reads lines at the given indentation. `lineEnd` is the break after the last line read, `breaks`
those of the empty lines after it. -/
def readFrom (folded : Bool) (indent : Nat) : Nat → List Char → List Char → List (List Char) → Bool →
    Cursor → Option (List Char × List Char × List (List Char) × Cursor)
  | 0, _, _, _, _, _ => none
  | fuel + 1, text, lineEnd, breaks, afterBlank, c =>
    if c.column == indent && !c.rest.isEmpty then
      let startsBlank := c.rest.head?.any isSpaceOrTab
      let joint :=
        if folded && lineEnd == ['\n'] && !afterBlank && !startsBlank then
          (if breaks.flatten.isEmpty then [' '] else [])
        else lineEnd
      let (line, c) := c.span fun _ => true
      let (lineEnd, c) := c.takeBreak
      match margin (some indent) (c.rest.length + 1) [] 0 c with
      | none => none
      | some (next, _, c) =>
        readFrom folded indent fuel (text ++ joint ++ breaks.flatten ++ line) lineEnd next startsBlank c
    else some (text, lineEnd, breaks, c)

/-- Reads a block of lines, from its indicator on. `parent` is the indentation around it. -/
def read? (folded : Bool) (parent : Int) (c : Cursor) : Option (List Char × Cursor) := do
  let (chomping, increment, c) ← header (c.skip 1)
  let known := increment.map fun n => (max parent 0).toNat + n
  let (breaks, widest, c) ← margin known (c.rest.length + 1) [] 0 c
  let indent := known.getD (max widest (max (parent + 1) 1).toNat)
  let (text, lineEnd, breaks, c) ← readFrom folded indent (c.rest.length + 1) [] [] breaks false c
  let text := if chomping = .strip then text else text ++ lineEnd
  return (if chomping = .keep then text ++ breaks.flatten else text, c)

end Lines

end ChartLight.Yaml

import ChartLight.Characteristic.Validity
import ChartLight.Text.Blank
import ChartLight.Text.UpperCase

/-! Reading a characteristic from a text. The text is put into normal form and peeled from both
ends: the period and the colours from the right, the rhythm from the left, and what is left between
them is the group and the long-flash tail. -/

namespace ChartLight

open Number Text

/-- A text without its points, except those between two digits. `afterDigit` says whether a digit
stands before the text. -/
def dropPoints (afterDigit : Bool) : List Char → List Char
  | [] => []
  | c :: rest =>
    if c = '.' && !(afterDigit && rest.head?.any (·.isDigit)) then dropPoints false rest
    else c :: dropPoints c.isDigit rest

/-- Upper case, without abbreviation points or outer white space. -/
def normalize (cs : List Char) : List Char := trim (dropPoints false (upperCase (trim cs)))

/-- A number of seconds, if it can be a period. -/
def checkPeriod (seconds : Binary64) : Except PeriodFault Binary64 :=
  match periodFault? seconds with
  | some fault => .error fault
  | none => .ok seconds

/-- The seconds that a numeral names. -/
def readSeconds (numeral : List Char) : Except PeriodFault Binary64 :=
  match Decimal.ofPoint? numeral with
  | none => .error (.notANumber numeral)
  | some decimal => checkPeriod (decimal.toBinary64 false)

/-- The characters that a number of seconds is made of. -/
def inNumeral (c : Char) : Bool := c.isDigit || c == '.'

/-- Takes a final number of seconds off a text. A final `S` without a number before it is no
period and stays. -/
def takePeriod (cs : List Char) : Except PeriodFault (List Char × Option Binary64) :=
  match ['S'].isSuffixOf? cs with
  | none => .ok (cs, none)
  | some body =>
    let numeral := takeWhileEnd inNumeral (trimEnd body)
    if numeral.isEmpty then .ok (cs, none)
    else (readSeconds numeral).map fun seconds =>
      (trimEnd (dropWhileEnd inNumeral (trimEnd body)), some seconds)

def isSeparator (c : Char) : Bool := c == '-' || isBlank c

/-- Takes colour codes off the front of a reversed text, each with the separators before it. The
colours found are put in front of those already there. -/
def peelColors (reversed : List Char) (found : List Color) : List Char × List Color :=
  match _h : reversed.dropWhile isSeparator with
  | 'U' :: 'B' :: rest => peelColors rest (.blue :: found)
  | c :: rest =>
    match Color.ofLetter? c with
    | some color => peelColors rest (color :: found)
    | none => (reversed, found)
  | [] => (reversed, found)
termination_by reversed.length
decreasing_by
  all_goals
    have := (List.dropWhile_suffix (p := isSeparator) (l := reversed)).length_le
    simp only [_h, List.length_cons] at this
    omega

/-- Takes the final colour codes off a text, in reading order. -/
def takeColors (cs : List Char) : List Char × List Color :=
  let (rest, colors) := peelColors (trimEnd cs).reverse []
  (trimEnd rest.reverse, colors)

/-- A text without the sign for a group at its front. -/
def dropGroupSign (cs : List Char) : List Char :=
  let cs := trimStart cs
  trimStart (((['G', 'P'].isPrefixOf? cs).or (['G', 'R'].isPrefixOf? cs)).getD cs)

/-- The rhythm whose keyword begins a text, and the rest of the text. -/
def matchRhythm? (cs : List Char) : Option (Rhythm × List Char) :=
  Rhythm.keywords.findSome? fun (keyword, rhythm) =>
    (keyword.isPrefixOf? cs).map fun rest => (rhythm, trim rest)

/-- Splits the content of the group from what follows it. A bare number is a group too. -/
def splitGroup (cs : List Char) : Except GroupFault (Option (List Char) × List Char) :=
  match cs with
  | '(' :: inner =>
    match inner.dropWhile (· != ')') with
    | _ :: after => .ok (some (trim (inner.takeWhile (· != ')'))), trim after)
    | [] => .error .unclosed
  | _ => if !cs.isEmpty && cs.all (·.isDigit) then .ok (some cs, []) else .ok (none, cs)

/-- Whether what follows the group is a long flash; anything else but white space is refused. -/
def readTail (cs : List Char) : Except GroupFault Bool :=
  match cs.filter (!isBlank ·) with
  | [] => .ok false
  | ['+', 'L', 'F', 'L'] => .ok true
  | other => .error (.unexpected other)

/-- One number of a group, of at most 32 bits before it is compared with the limit. -/
def readElement (cs : List Char) : Except GroupFault Nat :=
  let cs := trim cs
  let value := Nat.ofDigitChars 10 cs 0
  if cs.isEmpty || !cs.all (·.isDigit) || Nat.pow 2 32 ≤ value then .error (.notANumber cs)
  else if Group.maxElement < value then .error (.tooLarge value)
  else .ok value

/-- What the content of a group means on a rhythm. -/
def readGroup (rhythm : Rhythm) (content : Option (List Char)) : Except GroupFault Group :=
  match rhythm, content with
  | .morse, none => .error .letterMissing
  | .morse, some [c] => if c.isUpper then .ok (.letter c) else .error (.notALetter [c])
  | .morse, some cs => .error (.notALetter cs)
  | _, none => .ok .single
  | rhythm, some cs => do
    let values ← (cs.splitOn '+').mapM readElement
    match rhythm, values with
    | .occulting, values => return .eclipses values
    | _, [n] => return .count n
    | _, values => return .composite values

/-- What a text says, before a default period fills in a missing one. -/
structure Reading where
  rhythm : Rhythm
  group : Group
  longFlashTail : Bool
  colors : List Color
  period : Option Binary64

namespace Reading

/-- Reads a text in normal form. -/
def ofNormal (cs : List Char) : Except Fault Reading := do
  let (rest, period) ← (takePeriod cs).mapError .invalidPeriod
  let (rest, colors) := takeColors rest
  match matchRhythm? (dropGroupSign rest) with
  | none => throw .unrecognizedRhythm
  | some (rhythm, rest) =>
    let (content, after) ← (splitGroup rest).mapError .invalidGroup
    let longFlashTail ← (readTail after).mapError .invalidGroup
    let group ← (readGroup rhythm content).mapError .invalidGroup
    return { rhythm, group, longFlashTail, colors, period }

/-- The first colour is the light's, the second its alternate, and further ones are not used. -/
def characteristic (defaultPeriod : Binary64) (reading : Reading) : Characteristic where
  rhythm := reading.rhythm
  group := reading.group
  color := reading.colors.head?.getD .white
  altColor := reading.colors[1]?
  period := reading.period.getD defaultPeriod
  longFlashTail := reading.longFlashTail

end Reading

namespace Characteristic

/-- Reads a characteristic; the default period must itself be one. -/
def readWith (defaultPeriod : Binary64) (text : String) : Except Fault Characteristic :=
  match periodFault? defaultPeriod with
  | some fault => .error (.invalidPeriod fault)
  | none => (Reading.ofNormal (normalize text.toList)).map (·.characteristic defaultPeriod)

def read (text : String) : Except Fault Characteristic := readWith defaultPeriod text

end Characteristic

end ChartLight

import ChartLight.Number.Shortest

/-! YAML in block form, as it is written: a mapping has one line for each key, a mapping inside it
is set in by two columns, and the items of a list stand at the column of their key. -/

namespace ChartLight.Yaml

open Number

inductive Block where
  /-- A scalar, as it stands in the text. -/
  | scalar (text : String)
  | list (items : List String)
  | mapping (entries : List (String × Block))

namespace Block

mutual

/-- What follows a key, to the end of its last line. -/
def toText (indent : String) : Block → String
  | .scalar text => " " ++ text ++ "\n"
  | .list [] => " []\n"
  | .list items => "\n" ++ String.join (items.map fun item => indent ++ "- " ++ item ++ "\n")
  | .mapping entries => "\n" ++ entriesText (indent ++ "  ") entries

/-- The lines of a mapping. -/
def entriesText (indent : String) : List (String × Block) → String
  | [] => ""
  | (key, value) :: rest => indent ++ key ++ ":" ++ value.toText indent ++ entriesText indent rest

end

end Block

/-- The line breaks that fold inside a quoted scalar. -/
def isLineEnd (c : Char) : Bool := c == '\n' || c == '\u2028' || c == '\u2029'

/-- Characters that a scalar holds as they are; tabs, controls, the byte order mark and all beyond
the basic plane are written as escapes. -/
def isPrintable (c : Char) : Bool :=
  let n := c.toNat
  n == 0x0A || (0x20 ≤ n && n ≤ 0x7E) || (0xA0 ≤ n && n < 0x10000 && n != 0xFEFF && n < 0xFFFE)

/-- An escape by code point, in as few pairs of digits as there is a letter for. -/
def codePointEscape (n : Nat) : List Char :=
  let (letter, width) := if n ≤ 0xFF then ('x', 2) else if n ≤ 0xFFFF then ('u', 4) else ('U', 8)
  let digits := (Nat.toDigits 16 n).map (·.toUpper)
  '\\' :: letter :: (List.replicate (width - digits.length) '0' ++ digits)

def escape (c : Char) : List Char :=
  match c.toNat with
  | 0x00 => ['\\', '0']
  | 0x07 => ['\\', 'a']
  | 0x08 => ['\\', 'b']
  | 0x09 => ['\\', 't']
  | 0x0B => ['\\', 'v']
  | 0x0C => ['\\', 'f']
  | 0x0D => ['\\', 'r']
  | 0x1B => ['\\', 'e']
  | 0x85 => ['\\', 'N']
  | n => codePointEscape n

/-- One character as a scalar: between single quotes where it is printable. A line end is followed
by the indentation of the lines around it, and a plain one is doubled so that it does not fold. -/
def quotedChar (indent : String) (c : Char) : String :=
  if c = '\'' then "''''"
  else if c = '\n' then "'\n\n" ++ indent ++ "'"
  else if isLineEnd c then "'" ++ String.singleton c ++ indent ++ "'"
  else if isPrintable c then "'" ++ String.singleton c ++ "'"
  else "\"" ++ String.ofList (escape c) ++ "\""

/-- A magnitude with a point or a power of ten: a power from `10 ^ 16` on and below `10 ^ -5`. -/
def magnitudeText (d : Decimal) : List Char :=
  let digits := Nat.toDigits 10 d.digits
  let place : Int := digits.length + d.exponent
  if d.digits = 0 then ['0', '.', '0']
  else if 0 ≤ d.exponent ∧ place ≤ 16 then d.toText ++ ['.', '0']
  else if -5 < place ∧ place ≤ 16 then d.toText
  else
    let fraction := match digits.tail with
      | [] => []
      | ds => '.' :: ds
    digits.take 1 ++ fraction ++ 'e' :: (toString (place - 1)).toList

def numberText : Binary64 → String
  | .nan => ".nan"
  | .infinite negative => if negative then "-.inf" else ".inf"
  | .finite negative rank =>
    String.ofList (signText negative ++ magnitudeText (shortestDecimal .even rank))

end ChartLight.Yaml

/-! The Morse code of letters and digits. -/

namespace ChartLight.Morse

inductive Symbol where
  | dot
  | dash
  deriving DecidableEq, Repr

/-- The code of a character in either case, written with points and hyphens. -/
def pattern? (c : Char) : Option String :=
  match c.toUpper with
  | 'A' => some ".-"
  | 'B' => some "-..."
  | 'C' => some "-.-."
  | 'D' => some "-.."
  | 'E' => some "."
  | 'F' => some "..-."
  | 'G' => some "--."
  | 'H' => some "...."
  | 'I' => some ".."
  | 'J' => some ".---"
  | 'K' => some "-.-"
  | 'L' => some ".-.."
  | 'M' => some "--"
  | 'N' => some "-."
  | 'O' => some "---"
  | 'P' => some ".--."
  | 'Q' => some "--.-"
  | 'R' => some ".-."
  | 'S' => some "..."
  | 'T' => some "-"
  | 'U' => some "..-"
  | 'V' => some "...-"
  | 'W' => some ".--"
  | 'X' => some "-..-"
  | 'Y' => some "-.--"
  | 'Z' => some "--.."
  | '0' => some "-----"
  | '1' => some ".----"
  | '2' => some "..---"
  | '3' => some "...--"
  | '4' => some "....-"
  | '5' => some "....."
  | '6' => some "-...."
  | '7' => some "--..."
  | '8' => some "---.."
  | '9' => some "----."
  | _ => none

/-- The symbols of a character; none for a character without a code. -/
def symbols (c : Char) : List Symbol :=
  match pattern? c with
  | some code => code.toList.map fun mark => if mark = '-' then .dash else .dot
  | none => []

end ChartLight.Morse

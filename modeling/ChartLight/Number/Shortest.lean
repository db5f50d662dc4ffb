import ChartLight.Number.Decimal

/-! The shortest decimal that names a given double. For one digit, two digits and so on, the two
decimals around the number on that grid are tried, the nearer first; the first that reads back
wins. Whatever is chosen reads back, because it was read back. -/

namespace ChartLight.Number

/-- Which of two equally near decimals of the same length is taken. -/
inductive Tie where
  | up
  | even
  deriving DecidableEq

/-- How many digits stand before the point of the magnitude of rank `r`; zero or less for a number
below one tenth. -/
def leadingPlace (r : Nat) : Int :=
  (Nat.toDigits 10 (units r * Nat.pow 10 400 / unitsInOne)).length - 400

/-- The decimals with `n` significant digits on either side of the magnitude of rank `r`, the
nearer first. -/
def gridNeighbours (tie : Tie) (r n : Nat) : List Decimal :=
  let exponent := leadingPlace r - n
  let num := units r * Nat.pow 10 (-exponent).toNat
  let den := unitsInOne * Nat.pow 10 exponent.toNat
  let low := num / den
  let rest := num % den
  let lowFirst := if 2 * rest = den then tie = .even ∧ low % 2 = 0 else 2 * rest < den
  if lowFirst then [⟨low, exponent⟩, ⟨low + 1, exponent⟩] else [⟨low + 1, exponent⟩, ⟨low, exponent⟩]

/-- A decimal without a final zero digit, where it has just one. -/
def Decimal.reduce (d : Decimal) : Decimal :=
  if d.digits % 10 = 0 then ⟨d.digits / 10, d.exponent + 1⟩ else d

/-- The magnitude of rank `r` in full. -/
def exactDecimal (r : Nat) : Decimal := ⟨units r * Nat.pow 5 1074, -1074⟩

/-- The shortest decimal that names the magnitude of rank `r`, and of several the nearest. -/
def shortestDecimal (tie : Tie) (r : Nat) : Decimal :=
  if r = 0 then ⟨0, 0⟩
  else
    ((List.range' 1 17).findSome? fun n =>
      ((gridNeighbours tie r n).map Decimal.reduce).find? (·.rank = r)).getD (exactDecimal r)

def signText (negative : Bool) : List Char := if negative then ['-'] else []

/-- A number in running text: the shortest decimal, never with a power of ten. -/
def Binary64.toText : Binary64 → String
  | .nan => "NaN"
  | .infinite negative => String.ofList (signText negative ++ ['i', 'n', 'f'])
  | .finite negative rank =>
    String.ofList (signText negative ++ (shortestDecimal .up rank).toText)

end ChartLight.Number

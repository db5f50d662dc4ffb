import ChartLight.Number.Binary64

/-! Decimal numerals and the doubles they name. A numeral is read as a whole number of digits and a
power of ten, and names the double nearest to that value. -/

namespace ChartLight.Number

/-- The number `digits * 10 ^ exponent`. -/
structure Decimal where
  digits : Nat
  exponent : Int
  deriving DecidableEq, Repr

namespace Decimal

def num (d : Decimal) : Nat := d.digits * Nat.pow 10 d.exponent.toNat

def den (d : Decimal) : Nat := Nat.pow 10 (-d.exponent).toNat

/-- The rank of the magnitude nearest to a decimal. -/
def rank (d : Decimal) : Nat := nearestRank (d.num * unitsInOne) d.den

/-- The double nearest to a decimal, with a sign. -/
def toBinary64 (negative : Bool) (d : Decimal) : Binary64 := Binary64.ofRank negative d.rank

/-- Reads `digits`, `digits.digits`, `digits.` or `.digits`. -/
def ofPoint? (cs : List Char) : Option Decimal :=
  let whole := cs.takeWhile (·.isDigit)
  let fraction := match cs.dropWhile (·.isDigit) with
    | [] => some []
    | '.' :: r => if r.all (·.isDigit) then some r else none
    | _ => none
  match fraction with
  | some fraction =>
    if whole.isEmpty && fraction.isEmpty then none
    else some ⟨Nat.ofDigitChars 10 (whole ++ fraction) 0, -fraction.length⟩
  | none => none

/-- A power of ten as written after `e`: an optional sign and at least one digit. -/
def readExponent? (cs : List Char) : Option Int :=
  let (negative, ds) := match cs with
    | '-' :: r => (true, r)
    | '+' :: r => (false, r)
    | r => (false, r)
  if ds.isEmpty || !ds.all (·.isDigit) then none
  else
    let n : Nat := Nat.ofDigitChars 10 ds 0
    some (if negative then -n else n)

/-- Reads a numeral with an optional power of ten. A power beyond the reach of any double is
brought back to one that is still beyond it. -/
def ofScientific? (cs : List Char) : Option Decimal :=
  let isMark := fun c : Char => c == 'e' || c == 'E'
  match cs.dropWhile (fun c => !isMark c) with
  | [] => ofPoint? cs
  | _ :: tail =>
    let reach : Int := cs.length + 400
    match ofPoint? (cs.takeWhile (fun c => !isMark c)), readExponent? tail with
    | some d, some e => some { d with exponent := d.exponent + max (-reach) (min reach e) }
    | _, _ => none

/-- A decimal written out without a power of ten. -/
def toText (d : Decimal) : List Char :=
  let ds := Nat.toDigits 10 d.digits
  if 0 ≤ d.exponent then ds ++ List.replicate d.exponent.toNat '0'
  else
    let places := (-d.exponent).toNat
    let padded := List.replicate (places + 1 - ds.length) '0' ++ ds
    padded.take (padded.length - places) ++ '.' :: padded.drop (padded.length - places)

end Decimal

namespace Binary64

/-- Reads a signed numeral, or one of the words `inf`, `infinity` and `nan` in any case. -/
def ofText? (cs : List Char) : Option Binary64 :=
  let (negative, body) := match cs with
    | '-' :: r => (true, r)
    | '+' :: r => (false, r)
    | r => (false, r)
  match String.ofList (body.map (·.toLower)) with
  | "inf" => some (.infinite negative)
  | "infinity" => some (.infinite negative)
  | "nan" => some .nan
  | _ => (Decimal.ofScientific? body).map (·.toBinary64 negative)

end Binary64

end ChartLight.Number

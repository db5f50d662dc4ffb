import ChartLight.Number.Rounding

/-! Double-precision numbers, exactly. The finite magnitudes are numbered in order by their rank,
and the magnitude of rank `r` is `units r` times the smallest positive one, `2 ^ -1074`; so every
finite number is a whole number of units and no rational arithmetic is needed. Every operation
here gives the nearest double to the exact result, ties to the even rank. -/

namespace ChartLight.Number

/-- The ranks of finite magnitudes lie below this one, which would be infinity's. -/
def rankBound : Nat := 2047 * Nat.pow 2 52

/-- Units in one. -/
def unitsInOne : Nat := Nat.pow 2 1074

/-- The magnitude of rank `r`, in units: 52 bits of fraction, and from rank `2 ^ 52` on a leading
one and a scale. -/
def units (r : Nat) : Nat :=
  let scale := r / Nat.pow 2 52
  if scale = 0 then r else (Nat.pow 2 52 + r % Nat.pow 2 52) * Nat.pow 2 (scale - 1)

/-- The rank nearest to `n / d` units: the quotient keeps its 53 leading bits. -/
def nearestRank (n d : Nat) : Nat :=
  let shift := (n / d).log2 - 52
  shift * Nat.pow 2 52 + roundEven n (d * Nat.pow 2 shift)

inductive Binary64 where
  | nan
  | infinite (negative : Bool)
  | finite (negative : Bool) (rank : Fin rankBound)
  deriving DecidableEq

namespace Binary64

def zero : Binary64 := .finite false ⟨0, by decide⟩

instance : Inhabited Binary64 := ⟨zero⟩

/-- The number of a rank; ranks beyond the finite ones stand for infinity. -/
def ofRank (negative : Bool) (rank : Nat) : Binary64 :=
  if h : rank < rankBound then .finite negative ⟨rank, h⟩ else .infinite negative

/-- The double nearest to `n / d`. -/
def ofRatio (negative : Bool) (n d : Nat) : Binary64 :=
  ofRank negative (nearestRank (n * unitsInOne) d)

def ofNat (n : Nat) : Binary64 := ofRatio false n 1

def isFinite : Binary64 → Bool
  | .finite _ _ => true
  | _ => false

/-- Above zero. -/
def isPositive : Binary64 → Bool
  | .nan => false
  | .infinite negative => !negative
  | .finite negative rank => !negative && rank.val != 0

/-- Above a natural number. -/
def exceeds (x : Binary64) (n : Nat) : Bool :=
  match x with
  | .nan => false
  | .infinite negative => !negative
  | .finite negative rank => !negative && n * unitsInOne < units rank

/-- Finite and without a fractional part. -/
def isWhole : Binary64 → Bool
  | .finite _ rank => units rank % unitsInOne == 0
  | _ => false

/-- The whole number at or below a number, kept between zero and `cap`; zero for no number. -/
def floorWithin (cap : Nat) : Binary64 → Nat
  | .nan => 0
  | .infinite negative => if negative then 0 else cap
  | .finite negative rank => if negative then 0 else min cap (units rank / unitsInOne)

/-- The nearest whole number, a half going up, kept between zero and `cap`; zero for no number. -/
def roundWithin (cap : Nat) : Binary64 → Nat
  | .nan => 0
  | .infinite negative => if negative then 0 else cap
  | .finite negative rank => if negative then 0 else min cap (roundUp (units rank) unitsInOne)

def add : Binary64 → Binary64 → Binary64
  | .nan, _ => .nan
  | _, .nan => .nan
  | .infinite s, .infinite t => if s = t then .infinite s else .nan
  | .infinite s, .finite _ _ => .infinite s
  | .finite _ _, .infinite t => .infinite t
  | .finite s x, .finite t y =>
    if s = t then ofRank s (nearestRank (units x + units y) 1)
    else if units y < units x then ofRank s (nearestRank (units x - units y) 1)
    else ofRank (t && units x < units y) (nearestRank (units y - units x) 1)

def mul : Binary64 → Binary64 → Binary64
  | .nan, _ => .nan
  | _, .nan => .nan
  | .infinite s, .infinite t => .infinite (s != t)
  | .infinite s, .finite t y => if y.val = 0 then .nan else .infinite (s != t)
  | .finite s x, .infinite t => if x.val = 0 then .nan else .infinite (s != t)
  | .finite s x, .finite t y => ofRank (s != t) (nearestRank (units x * units y) unitsInOne)

def div : Binary64 → Binary64 → Binary64
  | .nan, _ => .nan
  | _, .nan => .nan
  | .infinite _, .infinite _ => .nan
  | .infinite s, .finite t _ => .infinite (s != t)
  | .finite s _, .infinite t => ofRank (s != t) 0
  | .finite s x, .finite t y =>
    if y.val = 0 then (if x.val = 0 then .nan else .infinite (s != t))
    else ofRatio (s != t) (units x) (units y)

end Binary64

end ChartLight.Number

/-! The group of a characteristic: what stands in parentheses after the rhythm. -/

namespace ChartLight

inductive Group where
  | single
  /-- So many flashes. -/
  | count (flashes : Nat)
  /-- Sub-groups of so many flashes each. -/
  | composite (parts : List Nat)
  /-- Eclipses that last so many seconds each. -/
  | eclipses (seconds : List Nat)
  /-- A Morse letter. -/
  | letter (c : Char)
  deriving DecidableEq, Repr

namespace Group

/-- The largest element that a group may have. -/
def maxElement : Nat := 99

def values : Group → List Nat
  | .single | .letter _ => []
  | .count n => [n]
  | .composite parts | .eclipses parts => parts

def count? : Group → Option Nat
  | .count n => some n
  | _ => none

def letter? : Group → Option Char
  | .letter c => some c
  | _ => none

/-- A group as printed on charts; nothing for a single light. -/
def toText : Group → String
  | .single => ""
  | .letter c => "(" ++ String.singleton c ++ ")"
  | group => "(" ++ String.intercalate "+" (group.values.map toString) ++ ")"

end Group

end ChartLight

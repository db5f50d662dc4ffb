import ChartLight.Color

/-! The timed cycle of a light: segments of steady light or darkness, played over and over. -/

namespace ChartLight

structure Segment where
  durationMs : Nat
  lit : Bool
  /-- The colour shown; a dark segment carries the main colour of its light. -/
  color : Color
  deriving DecidableEq, Repr, Inhabited

/-- What becomes of a cycle that runs longer than its period. -/
inductive Overrun where
  /-- It is kept as it is. -/
  | extend
  /-- It is clipped to one period. -/
  | truncate
  deriving DecidableEq, Repr

namespace Overrun

def name : Overrun → String
  | .extend => "extend"
  | .truncate => "truncate"

def ofName? (name : String) : Option Overrun :=
  [Overrun.extend, .truncate].find? (·.name == name)

end Overrun

/-- Numbers added up. -/
def total : List Nat → Nat
  | [] => 0
  | n :: ns => n + total ns

theorem total_append (ms ns : List Nat) : total (ms ++ ns) = total ms + total ns := by
  induction ms with
  | nil => simp [total]
  | cons m ms ih => simp [total, ih, Nat.add_assoc]

/-- The time that segments last. -/
def totalMs (segments : List Segment) : Nat := total (segments.map Segment.durationMs)

structure Cycle where
  periodMs : Nat
  segments : List Segment
  deriving DecidableEq, Repr

namespace Cycle

def totalMs (cycle : Cycle) : Nat := ChartLight.totalMs cycle.segments

def litMs (cycle : Cycle) : Nat := ChartLight.totalMs (cycle.segments.filter (·.lit))

def overruns (cycle : Cycle) : Bool := cycle.periodMs < cycle.totalMs

end Cycle

/-- The segment shown `offset` milliseconds after the first begins, if one still is. -/
def segmentAt? : List Segment → Nat → Option Segment
  | [], _ => none
  | segment :: rest, offset =>
    if offset < segment.durationMs then some segment
    else segmentAt? rest (offset - segment.durationMs)

end ChartLight

import ChartLight.Cycle.Pattern

/-! Fitting a pattern to the period: a short one is filled with darkness, a long one is kept or
clipped. -/

namespace ChartLight

/-- The first `limit` milliseconds of some segments. -/
def clip (limit : Nat) : List Segment → List Segment
  | [] => []
  | segment :: rest =>
    if limit = 0 then []
    else if limit < segment.durationMs then [{ segment with durationMs := limit }]
    else segment :: clip (limit - segment.durationMs) rest

namespace Characteristic

/-- The cycle of a light. -/
def cycle (light : Characteristic) (overrun : Overrun) : Cycle :=
  let period := light.periodMs
  let pattern := light.pattern
  let total := totalMs pattern
  { periodMs := period
    segments :=
      if total < period then pattern ++ [light.lamp.off (period - total)]
      else match overrun with
        | .extend => pattern
        | .truncate => clip period pattern }

/-- What is noted about a cycle that was kept although it runs longer than its period. -/
def overrunNote? (light : Characteristic) (overrun : Overrun) : Option String :=
  if light.periodMs < totalMs light.pattern ∧ overrun = .extend then
    some (light.toText ++ " runs " ++ toString (totalMs light.pattern) ++
      " ms per cycle, longer than its " ++ toString light.periodMs ++ " ms period")
  else none

end Characteristic

end ChartLight

import ChartLight.Characteristic
import ChartLight.Cycle
import ChartLight.Morse

/-! The segments by which a rhythm is known, before the cycle is fitted to its period. Segments of
no length are listed here and left out of the cycle. -/

namespace ChartLight

/-- Segments of one light, in its main colour. -/
structure Lamp where
  color : Color

namespace Lamp

def on (lamp : Lamp) (ms : Nat) : Segment := ⟨ms, true, lamp.color⟩

def off (lamp : Lamp) (ms : Nat) : Segment := ⟨ms, false, lamp.color⟩

/-- Flashes of one length with one gap between them. -/
def flashes (lamp : Lamp) (count flashMs gapMs : Nat) : List Segment :=
  (List.replicate count (lamp.on flashMs)).intersperse (lamp.off gapMs)

/-- One part of a composite group: half a second of light and half a second of darkness for each
flash. -/
def part (lamp : Lamp) (count : Nat) : List Segment :=
  (List.replicate count [lamp.on 500, lamp.off 500]).flatten

/-- The parts of a composite group, with a pause between them. -/
def composite (lamp : Lamp) (parts : List Nat) : List Segment :=
  [lamp.off 1500].intercalate (parts.map fun n => lamp.part (min n Group.maxElement))

/-- Eclipses of given seconds, each after light for `share`, the last after `lastShare`. -/
def eclipses (lamp : Lamp) (share lastShare : Nat) : List Nat → List Segment
  | [] => []
  | [e] => [lamp.on lastShare, lamp.off (e * 1000)]
  | e :: es => lamp.on share :: lamp.off (e * 1000) :: lamp.eclipses share lastShare es

/-- Light for three quarters of the period, or, with eclipses, for an even share before each of
what they leave; what does not divide evenly goes before the last. -/
def occulting (lamp : Lamp) (group : Group) (periodMs : Nat) : List Segment :=
  match group with
  | .eclipses (e :: es) =>
    let seconds := e :: es
    let bright := periodMs - total seconds * 1000
    let share := bright / seconds.length
    lamp.eclipses share (share + bright % seconds.length) seconds
  | _ => [lamp.on (periodMs - periodMs / 4), lamp.off (periodMs / 4)]

/-- A Morse letter, with a dot's length of darkness between its symbols. -/
def morse (lamp : Lamp) (symbols : List Morse.Symbol) : List Segment :=
  (symbols.map fun
    | .dot => lamp.on 300
    | .dash => lamp.on 900).intersperse (lamp.off 300)

/-- Flashes at a rate, each lit for half of it and dark for the other half. -/
def quickFlashes (lamp : Lamp) (count rateMs : Nat) : List Segment :=
  (List.replicate count [lamp.on (rateMs / 2), lamp.off (rateMs - rateMs / 2)]).flatten

end Lamp

/-- The number of flashes that a group asks for, if it asks for any, and no more than it may. -/
def Group.flashCount? (group : Group) : Option Nat :=
  match group.count? with
  | some n => if n = 0 then none else some (min n maxElement)
  | none => none

namespace Characteristic

def lamp (light : Characteristic) : Lamp := ⟨light.color⟩

/-- The flashes of a quick light: as many as asked for, or as many as fit the period, of which
interrupted rhythms leave a quarter dark. -/
def quickCount (light : Characteristic) (rateMs : Nat) : Nat :=
  match light.group.flashCount? with
  | some n => n
  | none =>
    let window := if light.rhythm.isInterrupted then light.periodMs - light.periodMs / 4
      else light.periodMs
    max 1 (window / rateMs)

/-- The segments of the rhythm itself. A composite group looks the same on every rhythm. -/
def rhythmPattern (light : Characteristic) : List Segment :=
  let lamp := light.lamp
  let period := light.periodMs
  match light.group with
  | .composite parts => lamp.composite parts
  | group =>
    match light.rhythm with
    | .fixed => [lamp.on period]
    | .flashing => lamp.flashes (group.flashCount?.getD 1) 500 1000
    | .longFlashing => lamp.flashes (group.flashCount?.getD 1) 2000 2000
    | .isophase => [lamp.on (period / 2), lamp.off (period - period / 2)]
    | .occulting => lamp.occulting group period
    | .morse => lamp.morse ((group.letter?.map Morse.symbols).getD [])
    | .alternating =>
      match light.altColor with
      | some altColor => [lamp.on (period / 2), ⟨period - period / 2, true, altColor⟩]
      | none => [lamp.on period]
    | rhythm =>
      match rhythm.quickRate? with
      | some rate => lamp.quickFlashes (light.quickCount rate) rate
      | none => []

/-- The long flash that may follow. -/
def tailPattern (light : Characteristic) : List Segment :=
  if light.longFlashTail then [light.lamp.on 2000] else []

/-- All that the characteristic asks for in one cycle. -/
def pattern (light : Characteristic) : List Segment :=
  (light.rhythmPattern ++ light.tailPattern).filter (0 < ·.durationMs)

end Characteristic

end ChartLight

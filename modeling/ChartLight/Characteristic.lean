import ChartLight.Color
import ChartLight.Group
import ChartLight.Number.Shortest
import ChartLight.Rhythm

/-! A light characteristic: rhythm, group, colours and period, and its canonical form on charts,
such as `Fl(2+1) R 10s`. -/

namespace ChartLight

open Number

structure Characteristic where
  rhythm : Rhythm
  group : Group
  color : Color
  altColor : Option Color
  /-- Seconds of one cycle. -/
  period : Binary64
  /-- Whether a long flash follows, as in `Q(6)+LFl`. -/
  longFlashTail : Bool
  deriving DecidableEq

namespace Characteristic

/-- Seconds of a cycle where none are given. -/
def defaultPeriod : Binary64 := Binary64.ofNat 10

/-- The longest period, in seconds. -/
def maxPeriod : Nat := 3600

/-- A white light of some rhythm, without a group. -/
def ofRhythm (rhythm : Rhythm) : Characteristic :=
  ⟨rhythm, .single, .white, none, defaultPeriod, false⟩

/-- The period in whole milliseconds, at least one and at most an hour's. -/
def periodMs (light : Characteristic) : Nat :=
  max 1 ((light.period.mul (Binary64.ofNat 1000)).roundWithin (maxPeriod * 1000))

end Characteristic

/-- A number of seconds in print: a whole one as a 64-bit count, kept within its range. -/
def secondsText (seconds : Binary64) : String :=
  if seconds.isWhole then toString (seconds.floorWithin (Nat.pow 2 64 - 1)) else seconds.toText

namespace Characteristic

/-- The canonical form on charts. -/
def toText (light : Characteristic) : String :=
  light.rhythm.abbreviation ++ light.group.toText ++ (if light.longFlashTail then "+LFl" else "") ++
    " " ++ light.color.code ++ ((light.altColor.map Color.code).getD "") ++
    " " ++ secondsText light.period ++ "s"

end Characteristic

end ChartLight

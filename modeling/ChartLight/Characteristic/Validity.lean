import ChartLight.Characteristic
import ChartLight.Fault

/-! The rules of a characteristic, whatever it was made from: the period is above zero and at most
an hour, no element of the group exceeds 99, and the shape of the group suits the rhythm. The first
rule broken is the one reported. -/

namespace ChartLight

open Number

/-- What is wrong with a number of seconds as a period. -/
def periodFault? (seconds : Binary64) : Option PeriodFault :=
  if !seconds.isFinite || !seconds.isPositive then some (.notPositive seconds)
  else if seconds.exceeds Characteristic.maxPeriod then some (.tooLong seconds)
  else none

/-- What is wrong with the shape of a group on a rhythm. -/
def shapeFault? : Group → Rhythm → Option ModelFault
  | .letter c, .morse => if c.isUpper then none else some (.letterOutOfRange c)
  | _, .morse => some .letterMissing
  | .letter _, rhythm => some (.letterOn rhythm)
  | .eclipses seconds, .occulting => if seconds.isEmpty then some .noEclipses else none
  | .eclipses _, rhythm => some (.eclipsesOn rhythm)
  | .composite parts, _ => if parts.length < 2 then some .tooFewParts else none
  | _, _ => none

namespace Characteristic

/-- The first rule that a characteristic breaks. -/
def fault? (light : Characteristic) : Option ModelFault :=
  ((periodFault? light.period).map .period).or <|
  ((light.group.values.find? (Group.maxElement < ·)).map .elementTooLarge).or <|
  shapeFault? light.group light.rhythm

end Characteristic

end ChartLight

import ChartLight.Number.Shortest
import ChartLight.Rhythm

/-! Why a characteristic is refused. Each cause is a constructor, and its wording is in one place. -/

namespace ChartLight

open Number

inductive PeriodFault where
  | notANumber (text : List Char)
  | notPositive (seconds : Binary64)
  | tooLong (seconds : Binary64)
  deriving DecidableEq

inductive GroupFault where
  | unclosed
  | unexpected (text : List Char)
  | letterMissing
  | notALetter (text : List Char)
  | notANumber (text : List Char)
  | tooLarge (value : Nat)
  deriving DecidableEq

/-- What is wrong with a characteristic that was not read from a text. -/
inductive ModelFault where
  | period (fault : PeriodFault)
  | elementTooLarge (value : Nat)
  | letterOutOfRange (c : Char)
  | letterMissing
  | letterOn (rhythm : Rhythm)
  | noEclipses
  | eclipsesOn (rhythm : Rhythm)
  | tooFewParts
  deriving DecidableEq

inductive Fault where
  | unrecognizedRhythm
  | invalidGroup (fault : GroupFault)
  | invalidPeriod (fault : PeriodFault)
  | invalidCharacteristic (fault : ModelFault)
  deriving DecidableEq

def PeriodFault.message : PeriodFault → String
  | .notANumber text => "'" ++ String.ofList text ++ "' is not a number"
  | .notPositive seconds => "period must be greater than zero, got " ++ seconds.toText
  | .tooLong seconds => "period must be at most 3600 s, got " ++ seconds.toText

def GroupFault.message : GroupFault → String
  | .unclosed => "missing closing parenthesis"
  | .unexpected text => "unexpected '" ++ String.ofList text ++ "'"
  | .letterMissing => "Morse light needs a letter, e.g. Mo(A)"
  | .notALetter text => "'" ++ String.ofList text ++ "' is not a single Morse letter"
  | .notANumber text => "'" ++ String.ofList text ++ "' is not a number"
  | .tooLarge value => toString value ++ " is more than 99 per group"

def ModelFault.message : ModelFault → String
  | .period fault => fault.message
  | .elementTooLarge value => "group element " ++ toString value ++ " is more than 99"
  | .letterOutOfRange c => "Morse letter must be A-Z, got '" ++ String.singleton c ++ "'"
  | .letterMissing => "Morse light needs exactly one letter"
  | .letterOn rhythm => rhythm.abbreviation ++ " light cannot carry a Morse letter"
  | .noEclipses => "Occulting group has no eclipses"
  | .eclipsesOn rhythm => rhythm.abbreviation ++ " light cannot carry eclipse durations"
  | .tooFewParts => "composite group needs at least two parts"

namespace Fault

/-- The kind of fault, in words for a status line. -/
def reason : Fault → String
  | .unrecognizedRhythm => "unrecognized rhythm"
  | .invalidGroup _ => "invalid group syntax"
  | .invalidPeriod _ => "invalid period"
  | .invalidCharacteristic _ => "invalid light specification"

def detail? : Fault → Option String
  | .unrecognizedRhythm => none
  | .invalidGroup fault => some fault.message
  | .invalidPeriod fault => some fault.message
  | .invalidCharacteristic fault => some fault.message

/-- The reason, followed by the detail where there is one. -/
def message (fault : Fault) : String :=
  match fault.detail? with
  | some detail => fault.reason ++ ": " ++ detail
  | none => fault.reason

end Fault

end ChartLight

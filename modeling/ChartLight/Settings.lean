import ChartLight.Characteristic.Validity
import ChartLight.Cycle
import ChartLight.LoadFault
import ChartLight.Prose
import ChartLight.Text.Blank
import ChartLight.Yaml.Decoding

/-! The settings of a player, as they stand in a YAML file. Each may be left out. -/

namespace ChartLight

open Number Yaml

structure Settings where
  /-- By how much every wait is stretched. -/
  timeScale : Binary64
  /-- Seconds of a cycle where a characteristic gives none. -/
  defaultPeriod : Binary64
  overrun : Overrun
  language : Language
  /-- The file of further marks. -/
  catalog : Option String
  deriving DecidableEq

namespace Settings

def default : Settings :=
  ⟨Binary64.ofNat 1, Characteristic.defaultPeriod, .extend, .english, none⟩

/-- What is wrong with the values of some settings; the time scale is looked at first. -/
def fault? (s : Settings) : Option LoadFault :=
  if !s.timeScale.isFinite || !s.timeScale.isPositive then some (.timeScale s.timeScale)
  else if (periodFault? s.defaultPeriod).isSome then some (.defaultPeriod s.defaultPeriod)
  else none

/-- The settings with the value of one key read off a document. -/
def withEntry (d : Document) (s : Settings) (key : String) (value : Node) : Option Settings :=
  match key with
  | "time-scale" => (d.number? value).map fun x => { s with timeScale := x }
  | "default-period-seconds" => (d.number? value).map fun x => { s with defaultPeriod := x }
  | "overrun" => ((d.choice? value).bind Overrun.ofName?).map fun x => { s with overrun := x }
  | "language" => ((d.choice? value).bind Language.ofCode?).map fun x => { s with language := x }
  | "catalog" => (d.optionalText? value).map fun x => { s with catalog := x }
  | _ => none

/-- The settings of a document. No key may be unknown or stand twice. -/
def ofDocument? (d : Document) : Option Settings := do
  let entries ← d.entries? d.root
  if (entries.map Prod.fst).Nodup then
    entries.foldlM (fun s (key, value) => s.withEntry d key value) default
  else none

/-- Reads the settings of a text; a blank one leaves them all out. -/
def read (text : String) : Except LoadFault Settings :=
  if text.toList.all Text.isBlank then .ok default
  else
    let settings? := (Document.read? text.toList).bind fun
      | none => some default
      | some d => ofDocument? d
    match settings? with
    | none => .error .malformed
    | some s =>
      match s.fault? with
      | some fault => .error fault
      | none => .ok s

end Settings

end ChartLight

import ChartLight.Characteristic
import ChartLight.Yaml.Block

/-! A characteristic as a YAML document. -/

namespace ChartLight

open Yaml

def Group.kind : Group → String
  | .single => "single"
  | .count _ => "count"
  | .composite _ => "composite"
  | .eclipses _ => "eclipses"
  | .letter _ => "letter"

/-- A group as a mapping; a single one has a kind but no value. -/
def Group.toBlock (group : Group) : Block :=
  let value? := match group with
    | .single => none
    | .count n => some (Block.scalar (toString n))
    | .composite parts => some (.list (parts.map toString))
    | .eclipses seconds => some (.list (seconds.map toString))
    | .letter c => some (.scalar (quotedChar "  " c))
  .mapping (("kind", .scalar group.kind) :: (value?.map ("value", ·)).toList)

namespace Characteristic

/-- The entries of a characteristic; an absent second colour and an absent tail are left out. -/
def yamlEntries (light : Characteristic) : List (String × Block) :=
  [("rhythm", .scalar light.rhythm.name), ("group", light.group.toBlock),
    ("color", .scalar light.color.name)] ++
  (light.altColor.map fun color => ("altColor", Block.scalar color.name)).toList ++
  [("periodSeconds", .scalar (numberText light.period))] ++
  (if light.longFlashTail then [("longFlashTail", .scalar "true")] else [])

def toYaml (light : Characteristic) : String := Block.entriesText "" light.yamlEntries

end Characteristic

end ChartLight

import ChartLight.Number.Decimal
import ChartLight.Yaml.Node

/-! Reading values of known shape off a YAML document. -/

namespace ChartLight.Yaml

open Number

/-- A number in plain text: a decimal numeral in the range of doubles, `.inf` or `.nan`. -/
def readNumber? (cs : List Char) : Option Binary64 :=
  let unsigned? := match cs with
    | '+' :: rest => if rest.head?.any fun c => c == '+' || c == '-' then none else some rest
    | _ => some cs
  match unsigned? with
  | none => none
  | some unsigned =>
    if String.ofList unsigned ∈ [".inf", ".Inf", ".INF"] then some (.infinite false)
    else if String.ofList cs ∈ ["-.inf", "-.Inf", "-.INF"] then some (.infinite true)
    else if String.ofList cs ∈ [".nan", ".NaN", ".NAN"] then some .nan
    else (Binary64.ofText? unsigned).filter (·.isFinite)

def isNull (text : String) : Bool := text ∈ ["null", "Null", "NULL", "~"]

namespace Document

variable (d : Document)

/-- The text of a scalar, however it is written. -/
def text? (n : Node) : Option String :=
  match d.follow n with
  | .scalar _ _ text => some text
  | _ => none

/-- A number, which must be written plainly, or in a literal block tagged as one. -/
def number? (n : Node) : Option Binary64 :=
  match d.follow n with
  | .scalar tag style text =>
    if style = .plain ∨ (style = .literal ∧ tag = some "tag:yaml.org,2002:float") then
      readNumber? text.toList
    else none
  | _ => none

/-- A text, or none where nothing or null is written plainly. -/
def optionalText? (n : Node) : Option (Option String) :=
  match d.follow n with
  | .scalar tag style text =>
    if style ≠ .plain then some (some text)
    else match tag with
      | some "tag:yaml.org,2002:null" => if isNull text then some none else none
      | some _ => some (some text)
      | none => some (if text.isEmpty || isNull text then none else some text)
  | _ => none

/-- The name of a choice: a scalar, or a tag of the document's own on nothing. -/
def choice? (n : Node) : Option String :=
  match d.follow n with
  | .scalar tag style text =>
    match tag.map String.toList with
    | some ('!' :: name) =>
      if style = .plain ∧ (text.isEmpty ∨ isNull text) then
        some (if name.isEmpty then "!" else String.ofList name)
      else none
    | _ => some text
  | _ => none

/-- The items of a sequence; an empty plain scalar has none. -/
def items? (n : Node) : Option (List Node) :=
  match d.follow n with
  | .sequence items => some items
  | .scalar _ .plain "" => some []
  | _ => none

/-- The entries of a mapping whose keys are texts; an empty plain scalar has none. -/
def entries? (n : Node) : Option (List (String × Node)) :=
  match d.follow n with
  | .mapping entries => entries.mapM fun (key, value) => (d.text? key).map (·, value)
  | .scalar _ .plain "" => some []
  | _ => none

end Document

end ChartLight.Yaml

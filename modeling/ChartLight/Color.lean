/-! The colours of lights: their chart codes and their names. -/

namespace ChartLight

inductive Color where
  | white
  | red
  | green
  | yellow
  | blue
  deriving DecidableEq, Repr, Inhabited

namespace Color

def all : List Color := [.white, .red, .green, .yellow, .blue]

/-- The code printed on charts. -/
def code : Color → String
  | .white => "W"
  | .red => "R"
  | .green => "G"
  | .yellow => "Y"
  | .blue => "Bu"

/-- The colours whose upper-case code is one letter. -/
def ofLetter? : Char → Option Color
  | 'W' => some .white
  | 'R' => some .red
  | 'G' => some .green
  | 'Y' => some .yellow
  | _ => none

/-- Reads an upper-case code. -/
def ofCode? : List Char → Option Color
  | ['B', 'U'] => some .blue
  | [c] => ofLetter? c
  | _ => none

def name : Color → String
  | .white => "white"
  | .red => "red"
  | .green => "green"
  | .yellow => "yellow"
  | .blue => "blue"

def ofName? (name : String) : Option Color := all.find? (·.name == name)

end Color

end ChartLight

import ChartLight.Cycle

/-! What the program writes to a terminal: text in bold, dim or coloured characters where styling is
on, and the lines that show segments. -/

namespace ChartLight.CommandLine

/-- A text in a style, given by its codes. -/
def styledText (styled : Bool) (codes text : String) : String :=
  if styled then "\x1b[" ++ codes ++ "m" ++ text ++ "\x1b[0m" else text

def bold (styled : Bool) (text : String) : String := styledText styled "1" text

def dim (styled : Bool) (text : String) : String := styledText styled "2" text

def colorCode : Color → String
  | .white => "37"
  | .red => "31"
  | .green => "32"
  | .yellow => "33"
  | .blue => "34"

/-- A number at the right of so many columns. -/
def rightAligned (width n : Nat) : String :=
  let text := toString n
  String.ofList (List.replicate (width - text.length) ' ') ++ text

/-- A text at the left of so many columns. -/
def leftAligned (width : Nat) (text : String) : String :=
  text ++ String.ofList (List.replicate (width - text.length) ' ')

def segmentLine (segment : Segment) : String :=
  if segment.lit then
    "on  " ++ rightAligned 6 segment.durationMs ++ " ms  " ++ segment.color.code
  else "off " ++ rightAligned 6 segment.durationMs ++ " ms"

def lamp (styled : Bool) (segment : Segment) : String :=
  if segment.lit then styledText styled ("1;" ++ colorCode segment.color) "●" else dim styled "○"

/-- A segment as it becomes current. -/
def lampLine (styled : Bool) (segment : Segment) : String :=
  lamp styled segment ++ "  " ++ segmentLine segment ++ "\n"

end ChartLight.CommandLine

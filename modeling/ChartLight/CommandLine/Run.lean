import ChartLight.CommandLine.Arguments
import ChartLight.CommandLine.Terminal
import ChartLight.Cycle.Fit
import ChartLight.Mark
import ChartLight.Playback
import ChartLight.Settings
import ChartLight.Yaml.Writing

/-! What the program does with its arguments. Files are read by whoever runs it; all that is written
follows from what is in them. -/

namespace ChartLight.CommandLine

open Number

/-- Why a request fails. -/
inductive RunFault where
  | light (fault : Fault)
  | load (fault : LoadFault)
  deriving DecidableEq

def RunFault.message : RunFault → String
  | .light fault => fault.message
  | .load fault => fault.message

/-- A light to be played: a line about it, its playback, and after how many segments to stop. -/
structure Show where
  header : String
  playback : Playback
  limit : Option Nat
  styled : Bool
  /-- What is noted about the cycle. -/
  note : Option String

/-- The lines of the first `n` segments. -/
def Show.lines (s : Show) (n : Nat) : String :=
  String.join ((s.playback.shown n).map (lampLine s.styled))

/-- The line of a segment after `count` others; none once the show has had enough. -/
def Show.line? (s : Show) (count : Nat) (segment : Segment) : Option String :=
  if s.limit.any (· ≤ count) then none else some (lampLine s.styled segment)

inductive Response where
  /-- The arguments make no sense. -/
  | misuse
  | fault (fault : RunFault)
  | text (output : String) (note : Option String)
  | show (s : Show)
  /-- A light cannot be played, because its first wait is beyond the clock. -/
  | overlong (output : String)

namespace Response

def exitCode : Response → Nat
  | .misuse => 2
  | .fault _ => 1
  | .overlong _ => 101
  | _ => 0

/-- What is written in all; a show without a limit has only its first line here. -/
def output : Response → String
  | .misuse | .fault _ => ""
  | .text output _ | .overlong output => output
  | .show s => s.header ++ s.lines (s.limit.getD 0)

/-- What is noted beside the output. -/
def note? : Response → Option String
  | .text _ note => note
  | .show s => s.note
  | _ => none

end Response

/-- Reads a file as text, by the means of the one who runs the program. -/
def loadText {m : Type → Type} [Monad m] (read : String → m (Except ReadFault ByteArray))
    (path : String) : m (Except LoadFault String) := do
  match ← read path with
  | .error fault => return .error (.unreadable path fault)
  | .ok bytes =>
    match String.fromUTF8? bytes with
    | some text => return .ok text
    | none => return .error (.unreadable path .notUtf8)

def loadSettings {m : Type → Type} [Monad m] (read : String → m (Except ReadFault ByteArray))
    (path : Option String) : m (Except LoadFault Settings) := do
  match path with
  | none => return .ok Settings.default
  | some path => return (← loadText read path).bind Settings.read

/-- The common marks, followed by those of the catalogue that the settings name. -/
def loadMarks {m : Type → Type} [Monad m] (read : String → m (Except ReadFault ByteArray))
    (settings : Settings) : m (Except LoadFault (List Mark)) := do
  match settings.catalog with
  | none => return .ok Mark.common
  | some path => return ((← loadText read path).bind Mark.readAll).map (Mark.common ++ ·)

/-- The light that a text means: that of the mark it names, or the one it writes out. -/
def resolve (marks : List Mark) (settings : Settings) (text : String) :
    Except Fault Characteristic :=
  Characteristic.readWith settings.defaultPeriod (((Mark.find? marks text).map Mark.light).getD text)

def catalogText (styled : Bool) (marks : List Mark) : String :=
  let width := (marks.map (·.name.utf8ByteSize)).foldl max 0
  String.join (marks.map fun mark =>
    leftAligned width mark.name ++ "  " ++ bold styled mark.light ++ "\n")

def cycleText (cycle : Cycle) : String :=
  let lines := cycle.segments.zipIdx.map fun (segment, i) =>
    rightAligned 3 i ++ "  " ++ segmentLine segment ++ "\n"
  String.join lines ++ "total " ++ toString cycle.totalMs ++ " ms, lit " ++ toString cycle.litMs ++
    " ms, period " ++ toString cycle.periodMs ++ " ms\n"

/-- The scale of a speed; a speed that is not a finite number above zero changes nothing. -/
def scaleFor (settings : Settings) : Option Binary64 → Binary64
  | some speed =>
    if speed.isFinite && speed.isPositive then settings.timeScale.div speed else settings.timeScale
  | none => settings.timeScale

def headerText (styled : Bool) (language : Language) (light : Characteristic) : String :=
  bold styled light.toText ++ "  " ++ dim styled (light.prose language) ++ "\n"

def playResponse (styled : Bool) (settings : Settings) (light : Characteristic)
    (cycles : Option Nat) (speed : Option Binary64) : Response :=
  let cycle := light.cycle settings.overrun
  let header := headerText styled settings.language light
  match Playback.start? 0 cycle (scaleFor settings speed) with
  | none => .overlong header
  | some (playback, _) =>
    let limit := cycles.map fun n => min (max n 1 * cycle.segments.length) (Nat.pow 2 64 - 1)
    .show { header, playback, limit, styled, note := light.overrunNote? settings.overrun }

/-- Answers a request, once settings and marks are known. -/
def respond (styled : Bool) (settings : Settings) (marks : List Mark) : Request → Response
  | .catalog => .text (catalogText styled marks) none
  | .parse text => withLight text fun light => .text light.toYaml none
  | .compile text truncate =>
    let overrun := if truncate then .truncate else settings.overrun
    withLight text fun light => .text (cycleText (light.cycle overrun)) (light.overrunNote? overrun)
  | .describe text language =>
    withLight text fun light => .text (light.prose (language.getD settings.language) ++ "\n") none
  | .play text cycles speed =>
    withLight text fun light => playResponse styled settings light cycles speed
where
  withLight (text : String) (f : Characteristic → Response) : Response :=
    match resolve marks settings text with
    | .ok light => f light
    | .error fault => .fault (.light fault)

/-- Loads the files that an invocation needs and answers its request. -/
def Invocation.run {m : Type → Type} [Monad m] (invocation : Invocation)
    (read : String → m (Except ReadFault ByteArray)) (styled : Bool) : m Response := do
  match ← loadSettings read invocation.settingsFile with
  | .error fault => return .fault (.load fault)
  | .ok settings =>
    match ← loadMarks read settings with
    | .error fault => return .fault (.load fault)
    | .ok marks => return respond styled settings marks invocation.request

/-- Runs the program on its arguments. -/
def run {m : Type → Type} [Monad m] (read : String → m (Except ReadFault ByteArray))
    (styled : Bool) (args : List String) : m Response :=
  match Invocation.ofArguments? args with
  | none => return .misuse
  | some invocation => invocation.run read styled

end ChartLight.CommandLine

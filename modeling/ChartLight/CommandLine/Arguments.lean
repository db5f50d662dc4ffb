import ChartLight.Number.Decimal
import ChartLight.Prose

/-! The arguments of the program. Options may stand before or after the command and its text; a
value follows its option, or is joined to it by an equals sign, and then it may begin with a hyphen.
Whatever does not fit makes the whole line unusable. -/

namespace ChartLight.CommandLine

open Number

/-- What the program is asked to do with a text. -/
inductive Request where
  | parse (text : String)
  | compile (text : String) (truncate : Bool)
  | describe (text : String) (language : Option Language)
  | play (text : String) (cycles : Option Nat) (speed : Option Binary64)
  | catalog
  deriving DecidableEq

structure Invocation where
  settingsFile : Option String
  verbose : Bool
  request : Request
  deriving DecidableEq

/-- What may stand at one level of the line: before a command, or after it. -/
structure Level where
  /-- Options with a value. -/
  valued : List String
  flags : List String
  commands : List String
  takesText : Bool

/-- What stands there. -/
structure Found where
  values : List (String × String)
  flags : List String
  text : Option String
  command : Option (String × List String)

namespace Found

def empty : Found := ⟨[], [], none, none⟩

def addValue (f : Found) (name value : String) : Option Found :=
  if (f.values.lookup name).isSome then none else some { f with values := (name, value) :: f.values }

def addFlag (f : Found) (name : String) : Option Found :=
  if name ∈ f.flags then none else some { f with flags := name :: f.flags }

def addText (f : Found) (level : Level) (text : String) : Option Found :=
  if level.takesText && f.text.isNone then some { f with text := some text } else none

end Found

/-- Whether an argument can only be an option. A lone hyphen is a text. -/
def isOption (arg : String) : Bool :=
  match arg.toList with
  | '-' :: _ :: _ => true
  | _ => false

/-- The name of a long option, and the value joined to it. -/
def splitOption? (arg : String) : Option (String × Option String) :=
  match arg.toList with
  | '-' :: '-' :: body =>
    let name := String.ofList (body.takeWhile (· != '='))
    match body.dropWhile (· != '=') with
    | [] => some (name, none)
    | _ :: value => some (name, some (String.ofList value))
  | _ => none

/-- Reads one level, up to a command if it has any. After `--` all is text. -/
def Level.read? (level : Level) : List String → Found → Option Found
  | [], f => some f
  | arg :: rest, f =>
    if arg ∈ level.commands then some { f with command := some (arg, rest) }
    else if arg = "--" then rest.foldlM (fun f text => f.addText level text) f
    else match splitOption? arg with
      | some (name, joined) =>
        if name ∈ level.valued then
          match joined, rest with
          | some value, rest => (f.addValue name value).bind (level.read? rest)
          | none, value :: rest =>
            if isOption value then none else (f.addValue name value).bind (level.read? rest)
          | none, [] => none
        else if name ∈ level.flags && joined.isNone then
          (f.addFlag name).bind (level.read? rest)
        else none
      | none =>
        if arg = "-v" then (f.addFlag "verbose").bind (level.read? rest)
        else if isOption arg then none
        else (f.addText level arg).bind (level.read? rest)

def topLevel : Level :=
  ⟨["config"], ["verbose"], ["parse", "compile", "describe", "play", "catalog"], false⟩

def levelOf : String → Level
  | "compile" => ⟨["config"], ["verbose", "truncate"], [], true⟩
  | "describe" => ⟨["config", "lang"], ["verbose"], [], true⟩
  | "play" => ⟨["config", "cycles", "speed"], ["verbose"], [], true⟩
  | "catalog" => ⟨["config"], ["verbose"], [], false⟩
  | _ => ⟨["config"], ["verbose"], [], true⟩

/-- A count of at most 64 bits; a plus may stand before it. -/
def readCount? (text : String) : Option Nat :=
  let ds := match text.toList with
    | '+' :: ds => ds
    | ds => ds
  let n := Nat.ofDigitChars 10 ds 0
  if !ds.isEmpty && ds.all (·.isDigit) && n < Nat.pow 2 64 then some n else none

/-- Reads the value of an option that may be absent. -/
def valueWith? {α : Type} (read : String → Option α) (f : Found) (name : String) :
    Option (Option α) :=
  match f.values.lookup name with
  | none => some none
  | some text => (read text).map some

def request? (command : String) (f : Found) : Option Request := do
  match command, f.text with
  | "catalog", _ => some .catalog
  | "parse", some text => some (.parse text)
  | "compile", some text => some (.compile text (f.flags.contains "truncate"))
  | "describe", some text => return .describe text (← valueWith? Language.ofText? f "lang")
  | "play", some text =>
    return .play text (← valueWith? readCount? f "cycles")
      (← valueWith? (fun s => Binary64.ofText? s.toList) f "speed")
  | _, _ => none

def readPath? (text : String) : Option String := if text.isEmpty then none else some text

/-- Reads the arguments. What stands after the command counts before what stands in front of it. -/
def Invocation.ofArguments? (args : List String) : Option Invocation := do
  let outer ← topLevel.read? args .empty
  let (command, rest) ← outer.command
  let inner ← (levelOf command).read? rest .empty
  let request ← request? command inner
  let outerFile ← valueWith? readPath? outer "config"
  let innerFile ← valueWith? readPath? inner "config"
  return {
    settingsFile := innerFile.or outerFile
    verbose := outer.flags.contains "verbose" || inner.flags.contains "verbose"
    request }

end ChartLight.CommandLine

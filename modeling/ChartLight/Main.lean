import ChartLight.CommandLine.Run

/-! The program: it reads files, writes to the terminal and waits for the clock. -/

namespace ChartLight

open CommandLine

def usage : String :=
  "usage: chartlight [--config FILE] [-v] parse TEXT | compile TEXT [--truncate] |\n" ++
  "  describe TEXT [--lang en|fr] | play TEXT [--cycles N] [--speed X] | catalog\n"

def readFaultOf : IO.Error → ReadFault
  | .noFileOrDirectory .. => .notFound
  | .inappropriateType .. => .isDirectory
  | e => .other (toString e)

def readFile (path : String) : IO (Except ReadFault ByteArray) := do
  try
    return .ok (← IO.FS.readBinFile path)
  catch e => return .error (readFaultOf e)

/-- Whether styling was asked for by the environment. -/
def wantsStyle : IO Bool := do
  return (← IO.getEnv "CLICOLOR_FORCE").any (· != "0")

/-- Sleeps for any number of milliseconds, as many at a time as one sleep takes. -/
def sleepFor (ms : Nat) : IO Unit := do
  let most := UInt32.size - 1
  for _ in [0:ms / most] do
    IO.sleep most.toUInt32
  IO.sleep (ms % most).toUInt32

/-- Shows segments at their time, without an end where there is no limit. -/
partial def showFrom (s : Show) (startMs count : Nat) (p : Playback) : IO Unit := do
  let some line := s.line? count p.current | return
  let stdout ← IO.getStdout
  stdout.putStr line
  stdout.flush
  let dueMs := startMs + tickOf (p.deadline.getD clockBound)
  let nowMs ← IO.monoMsNow
  sleepFor (dueMs - nowMs)
  showFrom s startMs (count + 1) p.next

def write (response : Response) : IO Unit := do
  if let some note := response.note? then IO.eprintln note
  match response with
  | .misuse => IO.eprint usage
  | .fault fault => IO.eprintln ("error: " ++ fault.message)
  | .show s =>
    IO.print s.header
    showFrom s (← IO.monoMsNow) 0 s.playback
  | response => IO.print response.output

end ChartLight

open ChartLight CommandLine in
def main (args : List String) : IO UInt32 := do
  match Invocation.ofArguments? args with
  | none =>
    write .misuse
    return 2
  | some invocation =>
    if invocation.verbose then
      if let some path := invocation.settingsFile then IO.eprintln ("settings from " ++ path)
    let response ← invocation.run readFile (← wantsStyle)
    write response
    return response.exitCode.toUInt32

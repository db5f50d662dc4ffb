import ChartLight.Cycle
import ChartLight.Number.Binary64

/-! Playing a cycle against a clock that stands at whole milliseconds. Deadlines are kept in
nanoseconds and each is the one before it plus a wait, so lateness never adds up; a segment is
called at the first whole millisecond that is not before its deadline.

Only the first deadline is held against the range of the clock, since no playback starts with one
beyond it. A later deadline may come to lie beyond the range and is kept as it is: the clock never
reads so much, and nothing is called any more. -/

namespace ChartLight

open Number

/-- A number of seconds in whole nanoseconds, where it is below `2 ^ 64` seconds. -/
def Number.Binary64.nanoseconds? : Binary64 → Option Nat
  | .finite false rank =>
    let ns := roundEven (units rank * 1000000000) unitsInOne
    if ns < Nat.pow 2 64 * 1000000000 then some ns else none
  | .finite true rank => if rank.val = 0 then some 0 else none
  | _ => none

/-- Milliseconds in seconds: the whole seconds and the rest are each rounded, and so is the sum. -/
def secondsOfMs (ms : Nat) : Binary64 :=
  (Binary64.ofNat (ms / 1000)).add (Binary64.ofRatio false (ms % 1000 * 1000000) 1000000000)

/-- How many nanoseconds a segment is shown. A scale that is not a finite number above zero leaves
the duration as it is; a wait too long to be timed is none. -/
def waitNs? (scale : Binary64) (segment : Segment) : Option Nat :=
  if scale.isFinite && scale.isPositive then
    ((secondsOfMs segment.durationMs).mul scale).nanoseconds?
  else some (segment.durationMs * 1000000)

/-- The first whole millisecond at or after a deadline. -/
def tickOf (deadlineNs : Nat) : Nat := (deadlineNs + 999999) / 1000000

/-- The clock reads less than this many nanoseconds. -/
def clockBound : Nat := Nat.pow 2 63 * 1000000000

/-- A segment that became current, and when. -/
structure Call where
  atMs : Nat
  segment : Segment
  deriving DecidableEq, Repr

structure Playback where
  segments : Array Segment
  /-- The wait of each segment. -/
  waits : Array (Option Nat)
  /-- Which segment is shown. -/
  index : Nat
  /-- How often the cycle has begun again. -/
  cycles : Nat
  /-- When the next segment is due; never after a wait that cannot be timed. -/
  deadline : Option Nat
  cancelled : Bool
  deriving DecidableEq

structure Status where
  scheduled : Bool
  index : Nat
  cycles : Nat
  deriving DecidableEq, Repr

namespace Playback

/-- Starts a cycle and calls its first segment; an empty one is over at once. There is no playback
if the first deadline is beyond the clock. -/
def start? (nowMs : Nat) (cycle : Cycle) (scale : Binary64) : Option (Playback × List Call) :=
  let segments := cycle.segments.toArray
  let waits := segments.map (waitNs? scale)
  match cycle.segments with
  | [] => some (⟨segments, waits, 0, 0, none, true⟩, [])
  | first :: _ =>
    match waitNs? scale first with
    | none => none
    | some wait =>
      let deadline := nowMs * 1000000 + wait
      if deadline < clockBound then
        some (⟨segments, waits, 0, 0, some deadline, false⟩, [⟨nowMs, first⟩])
      else none

def cancel (p : Playback) : Playback := { p with cancelled := true }

def status (p : Playback) : Status := ⟨!p.cancelled, p.index, p.cycles⟩

/-- The segment shown. -/
def current (p : Playback) : Segment := p.segments[p.index]?.getD default

/-- Shows the next segment. -/
def next (p : Playback) : Playback :=
  let index := (p.index + 1) % p.segments.size
  { p with
    index
    cycles := if index = 0 then p.cycles + 1 else p.cycles
    deadline := do return (← p.deadline) + (← p.waits[index]?.join) }

/-- The waits of one whole cycle together. -/
def cycleNs? (p : Playback) : Option Nat := (p.waits.toList.mapM id).map total

/-- A bound on the calls that are due by some nanosecond. A cycle that takes no time makes none. -/
def callBound (p : Playback) (nowNs : Nat) : Nat :=
  match p.cycleNs? with
  | some 0 => 0
  | some cycle => p.segments.size * ((nowNs - p.deadline.getD 0) / cycle + 1)
  | none => p.segments.size

/-- Makes the calls that are due, in order, but no more than `bound`. -/
def callDue (nowNs : Nat) : Nat → Playback → List Call × Playback
  | 0, p => ([], p)
  | bound + 1, p =>
    match p.deadline with
    | none => ([], p)
    | some deadline =>
      if deadline ≤ nowNs then
        let p := p.next
        let (calls, last) := callDue nowNs bound p
        (⟨tickOf deadline, p.current⟩ :: calls, last)
      else ([], p)

/-- Makes all calls that are due when the clock reads `nowMs`. -/
def advance (nowMs : Nat) (p : Playback) : List Call × Playback :=
  if p.cancelled then ([], p) else callDue (nowMs * 1000000) (p.callBound (nowMs * 1000000)) p

/-- The first `n` segments that an undisturbed playback shows, from the present one on. -/
def shown : Nat → Playback → List Segment
  | 0, _ => []
  | n + 1, p => p.current :: shown n p.next

end Playback

end ChartLight

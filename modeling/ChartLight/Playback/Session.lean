import ChartLight.Characteristic.Reading
import ChartLight.Cycle.Fit
import ChartLight.Playback.Scheduler
import ChartLight.Playback.Steps

/-! A clock, a scheduler, and playbacks held apart from it by their holders, under the commands that
move them. -/

namespace ChartLight

open Number

inductive Command where
  | play (target : String) (cycle : Cycle)
  /-- Plays a characteristic as written, if it can be read. -/
  | simulate (target text : String)
  | cancel (target : String)
  | cancelAll
  | advance (ms : Nat)
  /-- Starts a playback held apart; the one held under that name before is dropped afterwards. -/
  | start (holder : String) (cycle : Cycle) (scale : Binary64)
  | stop (holder : String)
  | drop (holder : String)
  | look (holder : String)

/-- What a command answers. -/
inductive Outcome where
  | nothing
  | flag (b : Bool)
  | status (s : Status)
  | refused (fault : Fault)
  deriving DecidableEq

structure Session where
  nowMs : Nat
  scheduler : Scheduler
  held : Roster

namespace Session

def ofScale (scale : Binary64) : Session := ⟨0, .ofScale scale, []⟩

structure Step where
  outcome : Outcome
  calls : List NamedCall
  session : Session

/-- Plays a cycle on a target; not possible if its first deadline is beyond the clock. -/
def play? (s : Session) (target : String) (cycle : Cycle) : Option Step :=
  (s.scheduler.play? s.nowMs target cycle).map fun (scheduler, status, calls) =>
    ⟨.status status, calls, { s with scheduler }⟩

/-- One command. -/
def step? (s : Session) : Command → Option Step
  | .play target cycle => s.play? target cycle
  | .simulate target text =>
    match Characteristic.read text with
    | .ok light => s.play? target (light.cycle .extend)
    | .error fault => some ⟨.refused fault, [], s⟩
  | .cancel target =>
    some ⟨.flag (s.scheduler.isTarget target), [],
      { s with scheduler := s.scheduler.cancel target }⟩
  | .cancelAll => some ⟨.nothing, [], { s with scheduler := s.scheduler.cancelAll }⟩
  | .advance ms =>
    let nowMs := s.nowMs + ms
    let (calls, scheduler) := s.scheduler.advance nowMs
    let (heldCalls, held) := s.held.advance nowMs
    some ⟨.nothing, calls ++ heldCalls, ⟨nowMs, scheduler, held⟩⟩
  | .start holder cycle scale =>
    (Playback.start? s.nowMs cycle scale).map fun (p, calls) =>
      ⟨.status p.status, calls.map (⟨holder, ·⟩), { s with held := s.held.put holder p }⟩
  | .stop holder =>
    match s.held.find? holder with
    | some p =>
      some ⟨.status p.cancel.status, [], { s with held := s.held.put holder p.cancel }⟩
    | none => some ⟨.nothing, [], s⟩
  | .drop holder =>
    some ⟨.flag (s.held.find? holder).isSome, [], { s with held := s.held.remove holder }⟩
  | .look holder =>
    match s.held.find? holder with
    | some p => some ⟨.status p.status, [], s⟩
    | none => some ⟨.nothing, [], s⟩

/-- A list of commands, which must all be possible, with every step on the way. -/
def run? (s : Session) (commands : List Command) : Option (List Step) :=
  Steps.run? step? Step.session s commands

/-- The session after the steps of a run. -/
def after (s : Session) (log : List Step) : Session := Steps.after Step.session s log

end Session

end ChartLight

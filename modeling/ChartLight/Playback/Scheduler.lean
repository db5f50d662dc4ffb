import ChartLight.Playback.Roster

/-! A scheduler plays one cycle on each of its targets, all at one scale. -/

namespace ChartLight

open Number

structure Scheduler where
  scale : Binary64
  targets : Roster

namespace Scheduler

def ofScale (scale : Binary64) : Scheduler := ⟨scale, []⟩

/-- Plays a cycle on a target instead of what was played there. -/
def play? (s : Scheduler) (nowMs : Nat) (target : String) (cycle : Cycle) :
    Option (Scheduler × Status × List NamedCall) :=
  (Playback.start? nowMs cycle s.scale).map fun (p, calls) =>
    ({ s with targets := s.targets.put target p }, p.status, calls.map (⟨target, ·⟩))

def isTarget (s : Scheduler) (target : String) : Bool := (s.targets.find? target).isSome

def isPlaying (s : Scheduler) (target : String) : Bool :=
  (s.targets.find? target).any (·.status.scheduled)

def cancel (s : Scheduler) (target : String) : Scheduler :=
  { s with targets := s.targets.remove target }

def cancelAll (s : Scheduler) : Scheduler := { s with targets := [] }

def advance (nowMs : Nat) (s : Scheduler) : List NamedCall × Scheduler :=
  let (calls, targets) := s.targets.advance nowMs
  (calls, { s with targets })

end Scheduler

end ChartLight

import ChartLight.Playback

/-! Playbacks under names, at most one under each. -/

namespace ChartLight

abbrev Roster := List (String × Playback)

/-- A call made under a name. -/
structure NamedCall where
  name : String
  call : Call
  deriving DecidableEq, Repr

namespace NamedCall

/-- In time, and at one instant by name. -/
def atOrBefore (a b : NamedCall) : Bool :=
  a.call.atMs < b.call.atMs || (a.call.atMs == b.call.atMs && decide (a.name ≤ b.name))

/-- Calls as they follow each other; those under one name at one instant stay in order. -/
def chronological (calls : List NamedCall) : List NamedCall := calls.mergeSort atOrBefore

end NamedCall

namespace Roster

def find? (r : Roster) (name : String) : Option Playback := r.lookup name

def remove (r : Roster) (name : String) : Roster := r.filter (·.1 != name)

/-- Puts a playback under a name, in the place of one that was there. -/
def put (r : Roster) (name : String) (p : Playback) : Roster := (name, p) :: r.remove name

def names (r : Roster) : List String := (r.map Prod.fst).mergeSort (fun a b => decide (a ≤ b))

/-- The names whose playback is still going on. -/
def playing (r : Roster) : List String := names (r.filter (·.2.status.scheduled))

/-- Lets every playback make the calls that are due. -/
def advance (nowMs : Nat) (r : Roster) : List NamedCall × Roster :=
  let moved := r.map fun (name, p) => (name, p.advance nowMs)
  (moved.flatMap fun (name, calls, _) => calls.map (⟨name, ·⟩),
    moved.map fun (name, _, p) => (name, p))

end Roster

end ChartLight

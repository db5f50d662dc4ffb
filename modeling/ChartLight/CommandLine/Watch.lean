import ChartLight.CommandLine.Run

/-! A show as it runs. The playback calls its segments when they are due, and the writer takes them in
their order, a line for each, until the show has had enough. Neither waits for the other, so any number
of called segments may stand between them. -/

namespace ChartLight.CommandLine

/-- What has come of a show. -/
structure Watch where
  playback : Playback
  /-- The segments that were called and that the writer has not taken. -/
  pending : List Segment
  written : List String
  ended : Bool

namespace Show

variable (s : Show)

/-- The first segment is called at the start. -/
def opening : Watch where
  playback := s.playback
  pending := if s.playback.cancelled then [] else [s.playback.current]
  written := []
  ended := false

/-- What can happen next in a show that nobody interrupts. -/
inductive Step : Watch → Watch → Prop where
  /-- The next segment is called, if its deadline is on the clock. -/
  | call (w : Watch) (deadline : Nat) :
      w.playback.cancelled = false → w.playback.deadline = some deadline → deadline < clockBound →
      Step w { w with
        playback := w.playback.next
        pending := w.pending ++ [w.playback.next.current] }
  | write (w : Watch) (segment : Segment) (rest : List Segment) (line : String) :
      w.ended = false → w.pending = segment :: rest →
      s.line? w.written.length segment = some line →
      Step w { w with pending := rest, written := w.written ++ [line] }
  /-- A segment too many ends the show, and with it the playback. -/
  | stop (w : Watch) (segment : Segment) (rest : List Segment) :
      w.ended = false → w.pending = segment :: rest →
      s.line? w.written.length segment = none →
      Step w { w with playback := w.playback.cancel, pending := rest, ended := true }

end Show

end ChartLight.CommandLine

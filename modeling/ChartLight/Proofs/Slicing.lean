import ChartLight.Proofs.Register.Standing
import ChartLight.Proofs.Register.View

/-! It does not matter how time is sliced. As long as no live cycle goes round in no time, a clock
reading in between takes nothing from the calls and adds nothing to them, for every playback of a
session at once. -/

namespace ChartLight

open Number

namespace Register

/-- Every segment has its wait, and no cycle that goes on takes no time. -/
structure Ticking (r : Register) : Prop where
  timed : ∀ p ∈ r.playbacks, p.Timed
  takes : ∀ p ∈ r.playbacks, p.cancelled = false → p.cycleNs? ≠ some 0

section Moves

variable {r : Register} {earlyMs lateMs : Nat}

theorem advance_advance (h : r.Ticking) (hle : earlyMs ≤ lateMs) :
    (r.advance earlyMs).advance lateMs = r.advance lateMs := by
  unfold advance
  dsimp only
  rw [List.map_map]
  congr 1
  refine List.map_congr_left fun p hp => ?_
  rw [Function.comp_apply, Playback.advance_append (h.timed p hp) (h.takes p hp) hle]

theorem due_append (h : r.Ticking) (hle : earlyMs ≤ lateMs) (k : Nat) :
    r.due earlyMs k ++ (r.advance earlyMs).due lateMs k = r.due lateMs k := by
  unfold due advance
  dsimp only
  rw [List.getElem?_map]
  cases hk : r.playbacks[k]? with
  | none => rfl
  | some p =>
    have hp : p ∈ r.playbacks := List.mem_of_getElem? hk
    simp only [Option.map_some, Option.getD_some]
    rw [Playback.advance_append (h.timed p hp) (h.takes p hp) hle]

/-- A clock reading leaves nothing due. -/
theorem Ticking.quiet_advance (h : r.Ticking) (nowMs : Nat) :
    ∀ p ∈ (r.advance nowMs).playbacks, p.cancelled = false → p.Quiet (nowMs * 1000000) := by
  refine List.forall_mem_map.mpr fun p hp hlive => ?_
  rw [Playback.advance_cancelled] at hlive
  exact Playback.quiet_advance (h.timed p hp) hlive (h.takes p hp hlive) nowMs

/-- What is found under a name is one of all playbacks. -/
theorem mem_playbacks_of_find? {held : Bool} {name : String} {p : Playback}
    (hc : r.Consistent) (hfind : (r.roster held).find? name = some p) : p ∈ r.playbacks := by
  rw [hc.find?_roster] at hfind
  obtain ⟨k, -, hk⟩ := Option.bind_eq_some_iff.mp hfind
  exact List.mem_of_getElem? hk

theorem callsUnder_append (hc : r.Consistent) (h : r.Ticking) (hle : earlyMs ≤ lateMs)
    (outcome : Outcome) (held : Bool) (name : String) :
    let first : Step := ⟨outcome, r.due earlyMs, r.advance earlyMs⟩
    let second : Step := ⟨outcome, (r.advance earlyMs).due lateMs, (r.advance earlyMs).advance lateMs⟩
    let whole : Step := ⟨outcome, r.due lateMs, r.advance lateMs⟩
    first.callsUnder held name ++ second.callsUnder held name = whole.callsUnder held name := by
  intro first second whole
  rw [hc.callsUnder_advance, hc.callsUnder_advance, (hc.advance earlyMs).callsUnder_advance,
    roster_advance, Roster.find?_advance]
  cases hfind : (r.roster held).find? name with
  | none => rfl
  | some p =>
    have hp := mem_playbacks_of_find? hc hfind
    simp only [Option.map_some, Option.elim_some]
    rw [Playback.advance_append (h.timed p hp) (h.takes p hp) hle, List.map_append]

end Moves

section Run

variable {r : Register}

theorem session_after (r : Register) (log : List Step) :
    (r.after log).session = r.session.after (log.map Step.view) := by
  rw [after, Session.after, Steps.after, Steps.after, List.getLast?_map]
  cases log.getLast? <;> rfl

/-- Every playback of a run has a wait for every segment. -/
theorem timed_after {scale : Binary64} {commands : List Command} {log : List Step}
    (hrun : (ofScale scale).run? commands = some log) :
    ∀ p ∈ ((ofScale scale).after log).playbacks, p.Timed :=
  forall_playbacks_after Playback.start?_timed (fun _ hp => hp) (fun nowMs _ hp => hp.advance nowMs)
    (fun _ hp => absurd hp List.not_mem_nil) hrun

/-- What is going on is found in the session, by the name of the place where it stands. -/
theorem Reflects.mem_roster {commands : List Command} (h : Reflects commands r) {p : Playback}
    (hp : p ∈ r.playbacks) (hlive : p.cancelled = false) :
    ∃ name, (name, p) ∈ r.session.scheduler.targets ++ r.session.held := by
  obtain ⟨k, hk⟩ := List.mem_iff_getElem?.mp hp
  obtain ⟨place, cycle, hstands, -⟩ := (h.going hk).mp hlive
  obtain ⟨held, name⟩ := place
  have hroster : (name, p) ∈ r.roster held := by
    refine List.mem_filterMap.mpr ⟨_, h.mem_places hstands, ?_⟩
    simp [occupant?, hk]
  refine ⟨name, List.mem_append.mpr ?_⟩
  cases held with
  | false => exact Or.inl hroster
  | true => exact Or.inr hroster

/-- The clock alone. -/
theorem run?_advance (r : Register) (ms : Nat) :
    r.run? [.advance ms] = some [⟨.nothing, r.due (r.nowMs + ms), r.advance (r.nowMs + ms)⟩] := rfl

end Run

/-- Two clock advances make the calls that one advance by both together makes, at the same instants and
in the same order for every playback and under every name, and reach the same state, in which nothing is
due any more. This holds in any state that can be reached where no live cycle goes round in no time. -/
theorem slices_together (scale : Binary64) (commands : List Command) (a b : Nat)
    {steps : List Session.Step} (hrun : (Session.ofScale scale).run? commands = some steps)
    (htakes : let s := (Session.ofScale scale).after steps
      ∀ e ∈ s.scheduler.targets ++ s.held, e.2.cancelled = false → e.2.cycleNs? ≠ some 0) :
    ∃ log first second whole, (ofScale scale).run? commands = some log ∧ steps = log.map Step.view ∧
      let r := (ofScale scale).after log
      let s := (Session.ofScale scale).after steps
      r.session = s ∧
      r.run? [.advance a, .advance b] = some [first, second] ∧
      r.run? [.advance (a + b)] = some [whole] ∧
      s.run? [.advance a, .advance b] = some [first.view, second.view] ∧
      s.run? [.advance (a + b)] = some [whole.view] ∧
      (∀ k, first.calls k ++ second.calls k = whole.calls k) ∧
      (∀ held name, first.callsUnder held name ++ second.callsUnder held name =
        whole.callsUnder held name) ∧
      second.register = whole.register ∧ second.view.session = whole.view.session ∧
      ∀ p ∈ whole.register.playbacks, p.cancelled = false →
        p.Quiet (whole.register.nowMs * 1000000) := by
  obtain ⟨log, hlog, rfl⟩ := exists_run? hrun
  let r := (ofScale scale).after log
  have hsession : r.session = (Session.ofScale scale).after (log.map Step.view) :=
    session_after (ofScale scale) log
  have hreflects : Reflects commands r := (ofScale_reflects scale).after hlog
  have hticking : r.Ticking := by
    refine ⟨timed_after hlog, fun p hp hlive => ?_⟩
    obtain ⟨name, hmem⟩ := hreflects.mem_roster hp hlive
    rw [hsession] at hmem
    exact htakes _ hmem hlive
  have hle : r.nowMs + a ≤ r.nowMs + a + b := Nat.le_add_right _ _
  have hregister := advance_advance hticking hle
  let first : Step := ⟨.nothing, r.due (r.nowMs + a), r.advance (r.nowMs + a)⟩
  let second : Step := ⟨.nothing, (r.advance (r.nowMs + a)).due (r.nowMs + a + b),
    (r.advance (r.nowMs + a)).advance (r.nowMs + a + b)⟩
  let whole : Step := ⟨.nothing, r.due (r.nowMs + a + b), r.advance (r.nowMs + a + b)⟩
  have htwo : r.run? [.advance a, .advance b] = some [first, second] := rfl
  have hone : r.run? [.advance (a + b)] = some [whole] := by
    rw [run?_advance, ← Nat.add_assoc]
  have hview (later : List Command) := hreflects.consistent.run?_view later
  refine ⟨log, first, second, whole, hlog, rfl, hsession, htwo, hone, ?_, ?_,
    fun k => due_append hticking hle k,
    fun held name => callsUnder_append hreflects.consistent hticking hle _ held name, hregister,
    congrArg session hregister, hticking.quiet_advance _⟩
  · rw [← hsession, ← hview, htwo]
    rfl
  · rw [← hsession, ← hview, hone]
    rfl

/-- At half the durations, with a playback held apart that is stopped: one millisecond and then two
make the calls of three. -/
theorem slices_together_half :
    let r := ofScale (Binary64.ofRatio false 1 2)
    let blink := Cycle.mk 3 [⟨1, true, .red⟩, ⟨2, false, .red⟩]
    let commands := [Command.play "north" blink, .start "lamp" blink (Binary64.ofNat 0), .advance 1,
      .stop "lamp"]
    ∃ log first second whole, r.run? commands = some log ∧
      (r.after log).run? [.advance 1, .advance 2] = some [first, second] ∧
      (r.after log).run? [.advance 3] = some [whole] ∧
      first.calls 0 ++ second.calls 0 = whole.calls 0 ∧ second.register = whole.register := by
  intro r blink commands
  let start := Session.ofScale (Binary64.ofRatio false 1 2)
  let takes (s : Session) : Bool := (s.scheduler.targets ++ s.held).all fun e =>
    e.2.cancelled || e.2.cycleNs? != some 0
  obtain ⟨steps, hrun, htakes⟩ := (Option.any_eq_true _ _).mp
    (by decide +kernel : (start.run? commands).any (fun steps => takes (start.after steps)) = true)
  have hlive : ∀ e ∈ (start.after steps).scheduler.targets ++ (start.after steps).held,
      e.2.cancelled = false → e.2.cycleNs? ≠ some 0 := by
    intro e he hcancelled
    have hone := List.all_eq_true.mp htakes e he
    rw [hcancelled, Bool.false_or] at hone
    exact bne_iff_ne.mp hone
  obtain ⟨log, first, second, whole, hlog, -, -, htwo, hone, -, -, hcalls, -, hregister, -⟩ :=
    slices_together _ commands 1 2 hrun hlive
  exact ⟨log, first, second, whole, hlog, htwo, hone, hcalls 0, hregister⟩

end Register

end ChartLight

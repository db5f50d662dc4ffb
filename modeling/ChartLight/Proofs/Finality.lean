import ChartLight.Proofs.Register.View
import ChartLight.Proofs.Roster
import ChartLight.Proofs.Rounds

/-! A playback that has ended makes no call again, whichever command ended it and whatever follows.
The clock still reaches it in the register, but it is marked as cancelled, no command takes the mark
back, and what is so marked neither calls nor moves. -/

namespace ChartLight

open Number

namespace Playback

variable {p : Playback}

theorem cancel_of_cancelled (h : p.cancelled = true) : p.cancel = p := by
  rw [cancel, ← h]

theorem cancelled_cancel (p : Playback) : p.cancel.cancelled = true := rfl

end Playback

namespace Register

variable {r : Register} {k : Nat}

section Marked

/-- What is marked stays as it is in every step and makes no call in it. -/
theorem Change.marked {step : Step} (hchange : r.Change step) {p : Playback}
    (hp : r.playbacks[k]? = some p) (hmark : p.cancelled = true) :
    step.calls k = [] ∧ step.register.playbacks[k]? = some p := by
  have hlt : k < r.playbacks.length := (List.getElem?_eq_some_iff.mp hp).1
  have hclear (among : Place → Bool) : (r.clear among).playbacks[k]? = some p := by
    rw [clear_playbacks_getElem?, hp, Option.map_some, Playback.cancel_of_cancelled hmark, ite_self]
  cases hchange with
  | rest outcome => exact ⟨rfl, hp⟩
  | clear outcome among => exact ⟨rfl, hclear among⟩
  | begin place q calls =>
    exact ⟨if_neg (Nat.ne_of_lt hlt), by rw [begin_playbacks_getElem? hlt, hclear]⟩
  | keep outcome place j hj => exact ⟨rfl, hclear _⟩
  | advance nowMs =>
    have hnone := Playback.advance_of_cancelled hmark nowMs
    simp [Register.advance, due, hp, hnone]

/-- And so it does in a whole run. -/
theorem run_marked {commands : List Command} {log : List Step} (hrun : r.run? commands = some log)
    {p : Playback} (hp : r.playbacks[k]? = some p) (hmark : p.cancelled = true) :
    ∀ step ∈ log, step.calls k = [] ∧ step.register.playbacks[k]? = some p := by
  induction commands generalizing r log with
  | nil =>
    cases hrun
    simp
  | cons command commands ih =>
    obtain ⟨step, rest, hstep, hrest, rfl⟩ := Steps.run?_cons_eq_some_iff.mp hrun
    have hkept := (change_of_step? hstep).marked hp hmark
    exact List.forall_mem_cons.mpr ⟨hkept, ih hrest hkept.2⟩

end Marked

section Ended

theorem Consistent.lt_of_mem_numbers (h : r.Consistent) {among : Place → Bool}
    (hk : k ∈ r.numbers among) : k < r.playbacks.length := by
  obtain ⟨place, hmem, -⟩ := mem_numbers.mp hk
  exact h.lt_length _ hmem

theorem clear_marks {among : Place → Bool} (hk : k ∈ r.numbers among) {p : Playback}
    (hp : r.playbacks[k]? = some p) : (r.clear among).playbacks[k]? = some p.cancel := by
  rw [clear_playbacks_getElem?, hp, Option.map_some, if_pos hk]

/-- The start of another playback at its place marks a playback. -/
theorem Consistent.start_marks (h : r.Consistent) {place : Place} {cycle : Cycle} {scale : Binary64}
    {step : Step} (hstep : r.start? place cycle scale = some step)
    (hk : k ∈ r.numbers (· == place)) {p : Playback} (hp : r.playbacks[k]? = some p) :
    step.calls k = [] ∧ step.register.playbacks[k]? = some p.cancel := by
  have hlt := h.lt_of_mem_numbers hk
  obtain ⟨⟨q, calls⟩, -, rfl⟩ := Option.map_eq_some_iff.mp hstep
  exact ⟨if_neg (Nat.ne_of_lt hlt), by rw [begin_playbacks_getElem? hlt, clear_marks hk hp]⟩

/-- Every way to end a playback marks it, and it makes no call in that step either. -/
theorem Consistent.step_marks (h : r.Consistent) {command : Command} {step : Step}
    (hstep : r.step? command = some step) (hk : k ∈ r.ended command) {p : Playback}
    (hp : r.playbacks[k]? = some p) :
    step.calls k = [] ∧ step.register.playbacks[k]? = some p.cancel := by
  have hnone : k ∉ r.numbers fun _ => false := by simp [numbers]
  unfold step? at hstep
  unfold ended Command.ends at hk
  cases command with
  | play target cycle => exact h.start_marks hstep hk hp
  | simulate target text =>
    dsimp only at hstep hk
    cases hread : Characteristic.read text with
    | ok light =>
      rw [hread] at hstep hk
      exact h.start_marks hstep hk hp
    | error fault =>
      rw [hread] at hk
      exact absurd hk hnone
  | cancel target => cases hstep; exact ⟨rfl, clear_marks hk hp⟩
  | cancelAll => cases hstep; exact ⟨rfl, clear_marks hk hp⟩
  | advance ms => exact absurd hk hnone
  | start holder cycle scale => exact h.start_marks hstep hk hp
  | stop holder =>
    dsimp only at hstep
    split at hstep
    · obtain ⟨q, -, rfl⟩ := Option.map_eq_some_iff.mp hstep
      exact ⟨rfl, clear_marks hk hp⟩
    · next hempty =>
      -- nothing stands at the holder, so there is nothing to end
      obtain ⟨place, hmem, hplace⟩ := mem_numbers.mp hk
      have hne := List.lookup_eq_none_iff.mp hempty _ hmem
      simp [beq_iff_eq.mp hplace] at hne
  | drop holder => cases hstep; exact ⟨rfl, clear_marks hk hp⟩
  | look holder => exact absurd hk hnone

end Ended

section Idle

/-- The holder of a name sees a playback that has ended at some position, and stopping it there once
more makes no call and changes nothing. -/
structure Idle (s : Session) (name : String) (index cycles : Nat) : Prop where
  look : s.step? (.look name) = some ⟨.status ⟨false, index, cycles⟩, [], s⟩
  stop : ∃ again, s.step? (.stop name) = some again ∧
    again.outcome = .status ⟨false, index, cycles⟩ ∧ again.calls = [] ∧
    again.session.nowMs = s.nowMs ∧ again.session.scheduler = s.scheduler ∧
    ∀ other, again.session.held.find? other = s.held.find? other

theorem Consistent.idle (h : r.Consistent) {p : Playback} (hp : r.playbacks[k]? = some p)
    (hmark : p.cancelled = true) {name : String} (hk : r.places.lookup (.holder name) = some k) :
    Idle r.session name p.index p.cycles := by
  have hfind : r.session.held.find? name = some p := by
    obtain ⟨q, hq, hat⟩ := h.exists_playback hk
    rw [h.at?_holder, hat, ← hq, hp]
  have hstatus : p.status = ⟨false, p.index, p.cycles⟩ := by
    rw [Playback.status, hmark, Bool.not_true]
  constructor
  · unfold Session.step?
    dsimp only
    rw [hfind]
    dsimp only
    rw [hstatus]
  · unfold Session.step?
    dsimp only
    rw [hfind]
    dsimp only
    rw [Playback.cancel_of_cancelled hmark, hstatus]
    refine ⟨_, rfl, rfl, rfl, rfl, rfl, fun other => ?_⟩
    dsimp only
    rw [Roster.find?_put]
    split_ifs with hother
    · rw [hother, hfind]
    · rfl

end Idle

/-- However a run goes on after a command that ends a playback, neither that command nor a later one
makes a call of it. Where a holder still has it, it is idle at the position at which it ended. -/
theorem ended_for_good (scale : Binary64) (before later : List Command) (command : Command)
    {steps : List Session.Step}
    (hrun : (Session.ofScale scale).run? (before ++ command :: later) = some steps) :
    ∃ early step late,
      (ofScale scale).run? (before ++ command :: later) = some (early ++ step :: late) ∧
      early.length = before.length ∧ steps = (early ++ step :: late).map Step.view ∧
      ∀ k ∈ ((ofScale scale).after early).ended command,
        ∃ p, ((ofScale scale).after early).playbacks[k]? = some p ∧
          ∀ now ∈ step :: late, now.calls k = [] ∧
            ∀ name, now.register.places.lookup (.holder name) = some k →
              Idle now.view.session name p.index p.cycles := by
  have hnew := ofScale_consistent scale
  obtain ⟨log, hlog, rfl⟩ := exists_run? hrun
  obtain ⟨early, rest, hearly, hrest, rfl⟩ := Steps.run?_append_eq_some_iff.mp hlog
  obtain ⟨step, late, hstep, hlate, rfl⟩ := Steps.run?_cons_eq_some_iff.mp hrest
  refine ⟨early, step, late, hlog, Steps.length_of_run? hearly, rfl, fun k hk => ?_⟩
  have hconsistent := hnew.run hearly
  have hp := List.getElem?_eq_getElem (hconsistent.lt_of_mem_numbers hk)
  have hmarked := hconsistent.step_marks hstep hk hp
  have hkept : ∀ now ∈ step :: late,
      now.calls k = [] ∧ now.register.playbacks[k]? = some (Playback.cancel _) :=
    List.forall_mem_cons.mpr ⟨hmarked, run_marked hlate hmarked.2 (Playback.cancelled_cancel _)⟩
  refine ⟨_, hp, fun now hnow => ?_⟩
  obtain ⟨hcalls, hnowp⟩ := hkept now hnow
  have hnowc := hconsistent.run_mem hrest now hnow
  exact ⟨hcalls, fun name hname => hnowc.idle hnowp (Playback.cancelled_cancel _) hname⟩

/-- A playback that is stopped in its second segment stays there when the clock goes on. -/
theorem ended_for_good_stopped :
    let r := ofScale (Binary64.ofNat 1)
    let before := [Command.start "lamp" ⟨3, [⟨1, true, .red⟩, ⟨2, false, .red⟩]⟩ (Binary64.ofNat 1),
      .advance 1]
    ∃ early step late,
      r.run? (before ++ .stop "lamp" :: [.advance 10]) = some (early ++ step :: late) ∧
      0 ∈ (r.after early).ended (.stop "lamp") ∧
      ∀ now ∈ step :: late, now.calls 0 = [] ∧ Idle now.view.session "lamp" 1 0 := by
  intro r before
  let commands := before ++ .stop "lamp" :: [Command.advance 10]
  obtain ⟨steps, hrun⟩ := Option.isSome_iff_exists.mp
    (by decide +kernel : ((Session.ofScale (Binary64.ofNat 1)).run? commands).isSome)
  obtain ⟨early, step, late, hlog, hearly, -, hended⟩ := ended_for_good _ before _ _ hrun
  have hearly2 : early.length = 2 := hearly
  have hnumber : (r.run? commands).map
      (fun log => (r.after (log.take 2)).ended (.stop "lamp")) = some [0] := by decide +kernel
  have hposition : (r.run? commands).map (fun log => (r.after (log.take 2)).playbacks.map
      fun p => (p.index, p.cycles)) = some [(1, 0)] := by decide +kernel
  have hplace : (r.run? commands).map (fun log => (log.drop 2).map
      fun now => now.register.places.lookup (.holder "lamp")) = some [some 0, some 0] := by
    decide +kernel
  rw [hlog, Option.map_some, ← hearly2, Option.some.injEq] at hnumber hposition hplace
  rw [List.take_left] at hnumber hposition
  rw [List.drop_left] at hplace
  have hmem : 0 ∈ (r.after early).ended (.stop "lamp") := by
    rw [hnumber]
    exact List.mem_singleton_self 0
  obtain ⟨p, hp, hnow⟩ := hended 0 hmem
  have hp' := congrArg (Option.map fun p => (p.index, p.cycles)) hp
  rw [← List.getElem?_map, hposition] at hp'
  obtain ⟨hindex, hcycles⟩ := Prod.mk.inj (Option.some.inj hp')
  refine ⟨early, step, late, hlog, hmem, fun now hmemnow => ?_⟩
  obtain ⟨hcalls, hidle⟩ := hnow now hmemnow
  have hstands : now.register.places.lookup (.holder "lamp") = some 0 := by
    have hin := List.mem_map_of_mem
      (f := fun now => now.register.places.lookup (.holder "lamp")) hmemnow
    rw [hplace] at hin
    simpa using hin
  have hidle := hidle "lamp" hstands
  rw [← hindex, ← hcycles] at hidle
  exact ⟨hcalls, hidle⟩

end Register

end ChartLight

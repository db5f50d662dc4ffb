import ChartLight.Proofs.Register.View
import ChartLight.Proofs.Roster

/-! What is shown on a target does not depend on what is done to other targets or to playbacks that
are held apart. Two registers that agree on a target, on the clock and on the scale still do after a
step that concerns the target, and show the same of it; any other step shows nothing of it and leaves
the agreement as it is. So those other steps can be left out of a run. -/

namespace ChartLight

open Number

/-- Whether a command reaches a target; the clock and the end of everything reach them all. -/
def Command.concerns (target : String) : Command → Bool
  | .play name _ | .simulate name _ | .cancel name => name == target
  | .cancelAll | .advance _ => true
  | .start _ _ _ | .stop _ | .drop _ | .look _ => false

/-- What a step shows of a target: its answer, the calls on the target, and afterwards the playback
there, whether it is among the targets and whether it is playing. -/
structure Sight where
  outcome : Outcome
  calls : List NamedCall
  playback : Option Playback
  isTarget : Bool
  isPlaying : Bool

namespace Register

/-- The playback on a target. -/
def played? (r : Register) (target : String) : Option Playback := (r.roster false).find? target

def Step.callsOn (step : Step) (target : String) : List NamedCall :=
  (step.named false).filter (·.name == target)

def Step.sight (step : Step) (target : String) : Sight :=
  let s := step.view.session.scheduler
  ⟨step.outcome, step.callsOn target, s.targets.find? target, decide (target ∈ s.targets.names),
    s.isPlaying target⟩

/-- Two registers are the same as far as a target can tell. -/
structure Agree (target : String) (r r' : Register) : Prop where
  nowMs : r.nowMs = r'.nowMs
  scale : r.scale = r'.scale
  played : r.played? target = r'.played? target

theorem Agree.trans {target : String} {r r' r'' : Register} (h : Agree target r r')
    (h' : Agree target r' r'') : Agree target r r'' :=
  ⟨h.nowMs.trans h'.nowMs, h.scale.trans h'.scale, h.played.trans h'.played⟩

section Moves

variable {r : Register}

theorem Consistent.played?_clear (h : r.Consistent) (among : Place → Bool) (target : String) :
    (r.clear among).played? target =
      if among (.target target) then none else r.played? target := by
  rw [played?, h.roster_clear, Roster.find?_filter _ (fun name => !among ⟨false, name⟩), Place.target]
  cases among ⟨false, target⟩ <;> simp [played?]

theorem Consistent.played?_begin (h : r.Consistent) (place : Place) (p : Playback) (target : String) :
    (r.begin place p).played? target =
      if place = .target target then some p else r.played? target := by
  obtain ⟨held, name⟩ := place
  rw [played?, h.roster_begin]
  cases held with
  | false => simp [Roster.find?_put, played?, Place.target, eq_comm]
  | true => simp [played?, Place.target]

theorem Consistent.played?_keep (h : r.Consistent) {holder : String} {k : Nat} {p : Playback}
    (hk : r.places.lookup (.holder holder) = some k) (hp : r.playbacks[k]? = some p)
    (target : String) :
    (r.keep (.holder holder) k).played? target = r.played? target := by
  rw [played?, h.roster_keep false hk hp]
  rfl

theorem played?_advance (r : Register) (nowMs : Nat) (target : String) :
    (r.advance nowMs).played? target = (r.played? target).map fun p => (p.advance nowMs).2 := by
  rw [played?, roster_advance, Roster.find?_advance]
  rfl

theorem callsOn_silent (outcome : Outcome) (r : Register) (target : String) :
    (⟨outcome, fun _ => [], r⟩ : Step).callsOn target = [] := by
  rw [Step.callsOn, named_silent]
  rfl

theorem Consistent.callsOn_begin (h : r.Consistent) (place : Place) (p : Playback)
    (outcome : Outcome) (calls : List Call) (target : String) :
    (⟨outcome, r.opening calls, r.begin place p⟩ : Step).callsOn target =
      if place = .target target then calls.map (⟨target, ·⟩) else [] := by
  obtain ⟨held, name⟩ := place
  rw [Step.callsOn, h.named_begin]
  cases held with
  | false =>
    by_cases hname : name = target
    · subst hname
      simp [Place.target, List.filter_map, Function.comp_def]
    · simp [Place.target, hname, List.filter_map]
  | true => simp [Place.target]

theorem Consistent.callsOn_advance (h : r.Consistent) (outcome : Outcome) (nowMs : Nat)
    (target : String) :
    (⟨outcome, r.due nowMs, r.advance nowMs⟩ : Step).callsOn target =
      (r.played? target).elim [] fun p => (p.advance nowMs).1.map (⟨target, ·⟩) :=
  h.callsUnder_advance false outcome nowMs target

end Moves

section Steps

variable {r r' : Register} {target : String} {command : Command} {step : Step}

theorem Step.sight_congr {other : Step} (houtcome : step.outcome = other.outcome)
    (hcalls : step.callsOn target = other.callsOn target)
    (hagree : Agree target step.register other.register) : step.sight target = other.sight target := by
  have hfind : step.view.session.scheduler.targets.find? target =
      other.view.session.scheduler.targets.find? target := hagree.played
  simp only [Step.sight, Scheduler.isPlaying, Roster.mem_names, hfind, houtcome, hcalls]

theorem Consistent.start?_elsewhere (h : r.Consistent) {place : Place} {cycle : Cycle}
    {scale : Binary64} (hstep : r.start? place cycle scale = some step)
    (hplace : place ≠ .target target) :
    step.callsOn target = [] ∧ Agree target step.register r := by
  obtain ⟨⟨p, calls⟩, -, rfl⟩ := Option.map_eq_some_iff.mp hstep
  refine ⟨?_, rfl, rfl, ?_⟩
  · rw [h.callsOn_begin, if_neg hplace]
  · rw [h.played?_begin, if_neg hplace]

theorem Consistent.clear_elsewhere (h : r.Consistent) {among : Place → Bool}
    (hamong : among (.target target) = false) : Agree target (r.clear among) r where
  nowMs := rfl
  scale := rfl
  played := by rw [h.played?_clear, hamong, if_neg Bool.false_ne_true]

/-- A step that does not concern a target shows nothing of it and leaves it as it is. -/
theorem Consistent.step?_elsewhere (h : r.Consistent) (hstep : r.step? command = some step)
    (hnot : command.concerns target = false) :
    step.callsOn target = [] ∧ Agree target step.register r := by
  have hrest : Agree target r r := ⟨rfl, rfl, rfl⟩
  have hother {name : String} (hname : (name == target) = false) :
      Place.target name ≠ .target target := by
    simpa [Place.target] using hname
  unfold step? at hstep
  cases command with
  | play name cycle => exact h.start?_elsewhere hstep (hother hnot)
  | simulate name text =>
    dsimp only at hstep
    split at hstep
    · exact h.start?_elsewhere hstep (hother hnot)
    · cases hstep
      exact ⟨callsOn_silent _ _ _, hrest⟩
  | cancel name =>
    cases hstep
    exact ⟨callsOn_silent _ _ _, h.clear_elsewhere (by simpa using (hother hnot).symm)⟩
  | cancelAll => cases hnot
  | advance ms => cases hnot
  | start holder cycle scale => exact h.start?_elsewhere hstep (by simp [Place.holder, Place.target])
  | stop holder =>
    dsimp only at hstep
    split at hstep
    · next k hk =>
      obtain ⟨p, hp, rfl⟩ := Option.map_eq_some_iff.mp hstep
      exact ⟨callsOn_silent _ _ _, rfl, rfl, h.played?_keep hk hp target⟩
    · cases hstep
      exact ⟨callsOn_silent _ _ _, hrest⟩
  | drop holder =>
    cases hstep
    exact ⟨callsOn_silent _ _ _, h.clear_elsewhere (by simp [Place.holder, Place.target])⟩
  | look holder =>
    dsimp only at hstep
    split at hstep
    · cases hstep
      exact ⟨callsOn_silent _ _ _, hrest⟩
    · cases hstep
      exact ⟨callsOn_silent _ _ _, hrest⟩

theorem Consistent.start?_agree (h : r.Consistent) (h' : r'.Consistent) (hagree : Agree target r r')
    {cycle : Cycle} (hstep : r.start? (.target target) cycle r.scale = some step) :
    ∃ step', r'.start? (.target target) cycle r'.scale = some step' ∧
      step.sight target = step'.sight target ∧ Agree target step.register step'.register := by
  obtain ⟨⟨p, calls⟩, hstart, rfl⟩ := Option.map_eq_some_iff.mp hstep
  rw [hagree.nowMs, hagree.scale] at hstart
  refine ⟨_, Option.map_eq_some_iff.mpr ⟨(p, calls), hstart, rfl⟩, ?_⟩
  have hnext : Agree target (r.begin (.target target) p) (r'.begin (.target target) p) :=
    ⟨hagree.nowMs, hagree.scale, by simp [h.played?_begin, h'.played?_begin]⟩
  exact ⟨Step.sight_congr rfl (by simp [h.callsOn_begin, h'.callsOn_begin]) hnext, hnext⟩

theorem Consistent.clear_agree (h : r.Consistent) (h' : r'.Consistent) (hagree : Agree target r r')
    (among : Place → Bool) : Agree target (r.clear among) (r'.clear among) where
  nowMs := hagree.nowMs
  scale := hagree.scale
  played := by rw [h.played?_clear, h'.played?_clear, hagree.played]

/-- A step that concerns a target shows the same of it in registers that agree on it. -/
theorem Consistent.step?_agree (h : r.Consistent) (h' : r'.Consistent) (hagree : Agree target r r')
    (hstep : r.step? command = some step) (hyes : command.concerns target = true) :
    ∃ step', r'.step? command = some step' ∧ step.sight target = step'.sight target ∧
      Agree target step.register step'.register := by
  unfold step? at hstep ⊢
  cases command with
  | play name cycle =>
    obtain rfl : name = target := by simpa [Command.concerns] using hyes
    exact h.start?_agree h' hagree hstep
  | simulate name text =>
    obtain rfl : name = target := by simpa [Command.concerns] using hyes
    dsimp only at hstep ⊢
    cases hread : Characteristic.read text with
    | ok light =>
      rw [hread] at hstep
      exact h.start?_agree h' hagree hstep
    | error fault =>
      rw [hread] at hstep
      cases hstep
      exact ⟨_, rfl, Step.sight_congr rfl (by rw [callsOn_silent, callsOn_silent]) hagree, hagree⟩
  | cancel name =>
    obtain rfl : name = target := by simpa [Command.concerns] using hyes
    cases hstep
    have hnext := h.clear_agree h' hagree (· == .target name)
    refine ⟨_, rfl, Step.sight_congr ?_ (by rw [callsOn_silent, callsOn_silent]) hnext, hnext⟩
    dsimp only
    rw [← h.at?_target, ← h'.at?_target]
    exact congrArg (Outcome.flag ·.isSome) hagree.played
  | cancelAll =>
    cases hstep
    have hnext := h.clear_agree h' hagree (!·.held)
    exact ⟨_, rfl, Step.sight_congr rfl (by rw [callsOn_silent, callsOn_silent]) hnext, hnext⟩
  | advance ms =>
    cases hstep
    have hnext : Agree target (r.advance (r.nowMs + ms)) (r'.advance (r'.nowMs + ms)) :=
      ⟨congrArg (· + ms) hagree.nowMs, hagree.scale, by
        rw [played?_advance, played?_advance, hagree.played, hagree.nowMs]⟩
    refine ⟨_, rfl, Step.sight_congr rfl ?_ hnext, hnext⟩
    rw [h.callsOn_advance, h'.callsOn_advance, hagree.played, hagree.nowMs]
  | start holder cycle scale => cases hyes
  | stop holder => cases hyes
  | drop holder => cases hyes
  | look holder => cases hyes

end Steps

/-- So do runs, when the steps that do not concern the target are left out of one of them. -/
theorem Consistent.run?_agree {r r' : Register} {target : String} (h : r.Consistent)
    (h' : r'.Consistent) (hagree : Agree target r r') {commands : List Command} {log : List Step}
    (hrun : r.run? commands = some log) :
    ∃ log', r'.run? (commands.filter (·.concerns target)) = some log' ∧
      ((commands.zip log).filter (·.1.concerns target)).map (·.2.sight target) =
        log'.map (·.sight target) ∧
      log.flatMap (·.callsOn target) = log'.flatMap (·.callsOn target) ∧
      Agree target (r.after log) (r'.after log') := by
  -- the second register stands still while the first makes a step that is left out
  induction commands generalizing r r' log with
  | nil =>
    cases hrun
    exact ⟨[], rfl, rfl, rfl, hagree⟩
  | cons command commands ih =>
    obtain ⟨step, rest, hstep, hrest, rfl⟩ := Steps.run?_cons_eq_some_iff.mp hrun
    rw [List.zip_cons_cons, List.flatMap_cons, after, Steps.after_cons]
    cases hyes : command.concerns target with
    | false =>
      obtain ⟨hnone, hback⟩ := h.step?_elsewhere hstep hyes
      obtain ⟨log', hlog', hsights, hcalls, hlast⟩ := ih (h.step hstep) h' (hback.trans hagree) hrest
      rw [List.filter_cons_of_neg (by simp [hyes]), List.filter_cons_of_neg (by simp [hyes]), hnone]
      exact ⟨log', hlog', hsights, hcalls, hlast⟩
    | true =>
      obtain ⟨step', hstep', hsight, hnext⟩ := h.step?_agree h' hagree hstep hyes
      obtain ⟨log', hlog', hsights, hcalls, hlast⟩ :=
        ih (h.step hstep) (h'.step hstep') hnext hrest
      rw [List.filter_cons_of_pos hyes, List.filter_cons_of_pos (a := (command, step)) hyes,
        List.map_cons, hsights, hcalls]
      have hrun' := Steps.run?_cons_eq_some_iff.mpr ⟨step', log', hstep', hlog', rfl⟩
      refine ⟨step' :: log', hrun', ?_, ?_, ?_⟩
      · rw [List.map_cons, hsight]
      · have hon : step.callsOn target = step'.callsOn target := congrArg Sight.calls hsight
        rw [List.flatMap_cons, hon]
      · rwa [after, Steps.after_cons]

/-- When the steps on other targets and with holders are left out of a run, it can still be made, and
nothing changes for a target: each step that concerns it shows the same of it, the calls on it are the
same, and in the end it stands the same. -/
theorem targets_independent (scale : Binary64) (commands : List Command) (target : String)
    {steps : List Session.Step} (hrun : (Session.ofScale scale).run? commands = some steps) :
    let kept := commands.filter (·.concerns target)
    ∃ log log', (ofScale scale).run? commands = some log ∧ steps = log.map Step.view ∧
      (ofScale scale).run? kept = some log' ∧
      (Session.ofScale scale).run? kept = some (log'.map Step.view) ∧
      ((commands.zip log).filter (·.1.concerns target)).map (·.2.sight target) =
        log'.map (·.sight target) ∧
      log.flatMap (·.callsOn target) = log'.flatMap (·.callsOn target) ∧
      let s := ((ofScale scale).after log).session.scheduler
      let s' := ((ofScale scale).after log').session.scheduler
      s.targets.find? target = s'.targets.find? target ∧
        (target ∈ s.targets.names ↔ target ∈ s'.targets.names) ∧
        s.isPlaying target = s'.isPlaying target := by
  intro kept
  have hnew := ofScale_consistent scale
  obtain ⟨log, hlog, rfl⟩ := exists_run? hrun
  obtain ⟨log', hlog', hsights, hcalls, hagree⟩ := hnew.run?_agree hnew ⟨rfl, rfl, rfl⟩ hlog
  have hview' := hnew.run?_view kept
  rw [hlog', Option.map_some] at hview'
  have hfind : ((ofScale scale).after log).session.scheduler.targets.find? target =
      ((ofScale scale).after log').session.scheduler.targets.find? target := hagree.played
  refine ⟨log, log', hlog, rfl, hlog', hview'.symm, hsights, hcalls, hfind, ?_, ?_⟩
  · rw [Roster.mem_names, Roster.mem_names, hfind]
  · rw [Scheduler.isPlaying, Scheduler.isPlaying, hfind]

/-- A second target comes and goes, and so does a playback held apart under the name of the first. -/
theorem targets_independent_north :
    let r := ofScale (Binary64.ofNat 1)
    let blink := Cycle.mk 3 [⟨1, true, .red⟩, ⟨2, false, .red⟩]
    let commands := [Command.play "north" blink, .play "south" blink, .advance 2,
      .start "north" blink (Binary64.ofNat 1), .cancel "south", .advance 2, .stop "north"]
    ∃ log log', r.run? commands = some log ∧
      r.run? [.play "north" blink, .advance 2, .advance 2] = some log' ∧
      log.flatMap (·.callsOn "north") = log'.flatMap (·.callsOn "north") ∧
      (log.flatMap (·.callsOn "north")).length = 4 := by
  intro r blink commands
  obtain ⟨steps, hrun⟩ := Option.isSome_iff_exists.mp
    (by decide +kernel : ((Session.ofScale (Binary64.ofNat 1)).run? commands).isSome)
  obtain ⟨log, log', hlog, -, hlog', -, -, hcalls, -⟩ := targets_independent _ _ "north" hrun
  have hlength : (r.run? commands).map
      (fun log => (log.flatMap (·.callsOn "north")).length) = some 4 := by decide +kernel
  rw [hlog, Option.map_some, Option.some.injEq] at hlength
  exact ⟨log, log', hlog, hlog', hcalls, hlength⟩

end Register

end ChartLight

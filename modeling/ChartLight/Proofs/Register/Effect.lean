import ChartLight.Proofs.Register

/-! What a command does to a register. `Effect` says it with the command in view: which playback it
begins, and that the only playbacks it marks are those at the places where it ends what is played.
`Change` is what is left of it without the command. From these, and not from the commands one by one,
come the facts that hold along every run. -/

namespace ChartLight

open Number

/-- The place at which a command begins a playback, and the cycle that is played. -/
def Command.begun? : Command → Option (Place × Cycle)
  | .play target cycle => some (.target target, cycle)
  | .simulate target text =>
    match Characteristic.read text with
    | .ok light => some (.target target, light.cycle .extend)
    | .error _ => none
  | .start holder cycle _ => some (.holder holder, cycle)
  | .cancel _ | .cancelAll | .advance _ | .stop _ | .drop _ | .look _ => none

/-- A new playback ends the one at its place, and no other. -/
theorem Command.ends_eq_of_begun? {command : Command} {place : Place} {cycle : Cycle}
    (h : command.begun? = some (place, cycle)) : command.ends = (· == place) := by
  unfold begun? at h
  unfold ends
  cases command with
  | play target c | start holder c scale =>
    cases h
    rfl
  | simulate target text =>
    dsimp only at h ⊢
    cases hread : Characteristic.read text with
    | ok light =>
      rw [hread] at h
      cases h
      rfl
    | error fault =>
      rw [hread] at h
      cases h
  | cancel | cancelAll | advance | stop | drop | look => cases h

theorem Command.ends_of_begun? {command : Command} {place : Place} {cycle : Cycle}
    (h : command.begun? = some (place, cycle)) : command.ends place = true := by
  rw [ends_eq_of_begun? h]
  exact beq_self_eq_true place

namespace Register

/-- What a command can do: begin a playback, take playbacks away, stop one where it stands, let time
pass, or nothing. -/
inductive Effect (r : Register) (command : Command) : Step → Prop
  | begin {place : Place} {cycle : Cycle} {scale : Binary64} {p : Playback} {calls : List Call}
      (hbegun : command.begun? = some (place, cycle)) (hends : command.ends = (· == place))
      (hstart : Playback.start? r.nowMs cycle scale = some (p, calls)) :
    Effect r command ⟨.status p.status, r.opening calls, r.begin place p⟩
  | clear (outcome : Outcome) (hbegun : command.begun? = none) :
    Effect r command ⟨outcome, fun _ => [], r.clear command.ends⟩
  | keep (outcome : Outcome) {holder : String} {k : Nat} (hbegun : command.begun? = none)
      (hends : command.ends = (· == .holder holder))
      (hk : r.places.lookup (.holder holder) = some k) :
    Effect r command ⟨outcome, fun _ => [], r.keep (.holder holder) k⟩
  | advance (nowMs : Nat) (hbegun : command.begun? = none)
      (hends : ∀ place, command.ends place = false) :
    Effect r command ⟨.nothing, r.due nowMs, r.advance nowMs⟩
  | rest (outcome : Outcome) (hbegun : command.begun? = none)
      (hends : ∀ place k, (place, k) ∈ r.places → command.ends place = false) :
    Effect r command ⟨outcome, fun _ => [], r⟩

theorem effect_of_start? {r : Register} {command : Command} {place : Place} {cycle : Cycle}
    {scale : Binary64} {step : Step} (hbegun : command.begun? = some (place, cycle))
    (h : r.start? place cycle scale = some step) : r.Effect command step := by
  obtain ⟨⟨p, calls⟩, hstart, rfl⟩ := Option.map_eq_some_iff.mp h
  exact .begin hbegun (Command.ends_eq_of_begun? hbegun) hstart

theorem effect_of_step? {r : Register} {command : Command} {step : Step}
    (h : r.step? command = some step) : r.Effect command step := by
  unfold step? at h
  cases command with
  | play target cycle => exact effect_of_start? rfl h
  | simulate target text =>
    dsimp only at h
    cases hread : Characteristic.read text with
    | ok light =>
      rw [hread] at h
      have hbegun : (Command.simulate target text).begun? =
          some (.target target, light.cycle .extend) := by
        unfold Command.begun?
        dsimp only
        rw [hread]
      exact effect_of_start? hbegun h
    | error fault =>
      rw [hread] at h
      cases h
      have hbegun : (Command.simulate target text).begun? = none := by
        unfold Command.begun?
        dsimp only
        rw [hread]
      have hends : (Command.simulate target text).ends = fun _ => false := by
        unfold Command.ends
        dsimp only
        rw [hread]
      exact .rest _ hbegun fun place _ _ => congrFun hends place
  | cancel target =>
    cases h
    exact .clear _ rfl
  | cancelAll =>
    cases h
    exact .clear _ rfl
  | advance ms =>
    cases h
    exact .advance _ rfl fun _ => rfl
  | start holder cycle scale => exact effect_of_start? rfl h
  | stop holder =>
    dsimp only at h
    split at h
    · next k hk =>
      obtain ⟨p, -, rfl⟩ := Option.map_eq_some_iff.mp h
      exact .keep _ rfl rfl hk
    · next hempty =>
      cases h
      refine .rest _ rfl fun place k hmem => ?_
      have hne := bne_iff_ne.mp (List.lookup_eq_none_iff.mp hempty _ hmem)
      exact beq_false_of_ne hne.symm
  | drop holder =>
    cases h
    exact .clear _ rfl
  | look holder =>
    dsimp only at h
    split at h
    · cases h
      exact .rest _ rfl fun _ _ _ => rfl
    · cases h
      exact .rest _ rfl fun _ _ _ => rfl

/-- What a step can do to a register, whatever the command was. -/
inductive Change (r : Register) : Step → Prop
  | rest (outcome : Outcome) : Change r ⟨outcome, fun _ => [], r⟩
  | clear (outcome : Outcome) (among : Place → Bool) :
    Change r ⟨outcome, fun _ => [], r.clear among⟩
  | begin (place : Place) (p : Playback) (calls : List Call) :
    Change r ⟨.status p.status, r.opening calls, r.begin place p⟩
  | keep (outcome : Outcome) (place : Place) (k : Nat) (h : r.places.lookup place = some k) :
    Change r ⟨outcome, fun _ => [], r.keep place k⟩
  | advance (nowMs : Nat) : Change r ⟨.nothing, r.due nowMs, r.advance nowMs⟩

theorem Effect.change {r : Register} {command : Command} {step : Step}
    (heffect : r.Effect command step) : r.Change step := by
  cases heffect with
  | begin hbegun hends hstart => exact .begin _ _ _
  | clear outcome hbegun => exact .clear outcome _
  | keep outcome hbegun hends hk => exact .keep outcome _ _ hk
  | advance nowMs hbegun hends => exact .advance nowMs
  | rest outcome hbegun hends => exact .rest outcome

theorem change_of_step? {r : Register} {command : Command} {step : Step}
    (h : r.step? command = some step) : r.Change step := (effect_of_step? h).change

theorem Consistent.step {r : Register} (h : r.Consistent) {command : Command} {step : Step}
    (hstep : r.step? command = some step) : step.register.Consistent := by
  cases change_of_step? hstep with
  | rest outcome => exact h
  | clear outcome among => exact h.clear among
  | begin place p calls => exact h.begin place p
  | keep outcome place k hk => exact h.keep hk
  | advance nowMs => exact h.advance nowMs

section Run

variable {r : Register} {commands : List Command} {log : List Step}

theorem Consistent.run_mem (h : r.Consistent) (hrun : r.run? commands = some log) :
    ∀ step ∈ log, step.register.Consistent :=
  Steps.kept_of_mem (I := Consistent) (fun _ hall hstep => hall.step hstep) h hrun

theorem Consistent.run (h : r.Consistent) (hrun : r.run? commands = some log) :
    (r.after log).Consistent :=
  Steps.kept_after (I := Consistent) (fun _ hall hstep => hall.step hstep) h hrun

end Run

section Playbacks

variable {r : Register} {P : Playback → Prop}

theorem forall_playbacks_clear (hcancel : ∀ p, P p → P p.cancel) (h : ∀ p ∈ r.playbacks, P p)
    (among : Place → Bool) : ∀ p ∈ (r.clear among).playbacks, P p := by
  intro p hp
  obtain ⟨k, hk, rfl⟩ := List.mem_mapIdx.mp hp
  have hkept := h r.playbacks[k] (List.getElem_mem hk)
  split_ifs
  · exact hcancel _ hkept
  · exact hkept

/-- What holds of every playback as it starts, and is kept where one is cancelled or goes on, is kept by
every step. -/
theorem Effect.forall_playbacks
    (hstart : ∀ {nowMs cycle scale p calls}, Playback.start? nowMs cycle scale = some (p, calls) → P p)
    (hcancel : ∀ p, P p → P p.cancel) (hadvance : ∀ nowMs p, P p → P (p.advance nowMs).2)
    (h : ∀ p ∈ r.playbacks, P p) {command : Command} {step : Step} (heffect : r.Effect command step) :
    ∀ p ∈ step.register.playbacks, P p := by
  cases heffect with
  | begin hbegun hends hnew =>
    exact List.forall_mem_append.mpr
      ⟨forall_playbacks_clear hcancel h _, List.forall_mem_singleton.mpr (hstart hnew)⟩
  | clear outcome hbegun => exact forall_playbacks_clear hcancel h _
  | keep outcome hbegun hends hk => exact forall_playbacks_clear hcancel h _
  | advance nowMs hbegun hends =>
    exact List.forall_mem_map.mpr fun p hp => hadvance nowMs p (h p hp)
  | rest outcome hbegun hends => exact h

/-- And so it holds of every playback of a run. -/
theorem forall_playbacks_after
    (hstart : ∀ {nowMs cycle scale p calls}, Playback.start? nowMs cycle scale = some (p, calls) → P p)
    (hcancel : ∀ p, P p → P p.cancel) (hadvance : ∀ nowMs p, P p → P (p.advance nowMs).2)
    (h : ∀ p ∈ r.playbacks, P p) {commands : List Command} {log : List Step}
    (hrun : r.run? commands = some log) : ∀ p ∈ (r.after log).playbacks, P p := by
  refine Steps.kept_after (I := fun r => ∀ p ∈ r.playbacks, P p) (fun _ hall hstep => ?_) h hrun
  exact (effect_of_step? hstep).forall_playbacks hstart hcancel hadvance hall

end Playbacks

end Register

end ChartLight

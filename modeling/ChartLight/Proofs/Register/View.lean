import ChartLight.Proofs.Register.Effect
import ChartLight.Proofs.Roster

/-! A register looked at through the names of its places is a session. Each move of a register is
followed through the rosters by name and through the calls made; then a step of the register is a step
of the session, and a run is a run. -/

namespace ChartLight

open Number

namespace Register

/-- The playback of a number and the name of its place, if that is of the right kind. -/
def occupant? (r : Register) (held : Bool) (e : Place × Nat) : Option (String × Playback) :=
  if e.1.held = held then r.playbacks[e.2]?.map (e.1.name, ·) else none

/-- The playbacks of the scheduler, or those of holders, by name. -/
def roster (r : Register) (held : Bool) : Roster := r.places.filterMap (r.occupant? held)

/-- A register without the numbers. -/
def session (r : Register) : Session := ⟨r.nowMs, ⟨r.scale, r.roster false⟩, r.roster true⟩

namespace Step

/-- The calls on targets, or those under holders, by name. -/
def named (step : Step) (held : Bool) : List NamedCall :=
  step.register.places.flatMap fun (place, k) =>
    if place.held = held then (step.calls k).map (⟨place.name, ·⟩) else []

/-- The calls under one name of a kind. -/
def callsUnder (step : Step) (held : Bool) (name : String) : List NamedCall :=
  (step.named held).filter (·.name == name)

def view (step : Step) : Session.Step :=
  ⟨step.outcome, step.named false ++ step.named true, step.register.session⟩

end Step

section Roster

variable {r : Register} (held : Bool)

theorem Consistent.clear_playbacks_getElem? (h : r.Consistent) {among : Place → Bool} {place : Place}
    {k : Nat} (hk : (place, k) ∈ r.places) (hnot : ¬among place) :
    (r.clear among).playbacks[k]? = r.playbacks[k]? := by
  rw [Register.clear_playbacks_getElem?]
  simp [h.not_mem_numbers hk hnot]

/-- Entries at other places stay as they are when some are cleared. -/
theorem Consistent.roster_clear (h : r.Consistent) (among : Place → Bool) :
    (r.clear among).roster held = (r.roster held).filter fun e => !among ⟨held, e.1⟩ := by
  have hplaces : (r.clear among).places = r.places.filter (!among ·.1) := rfl
  rw [roster, roster, hplaces, List.filterMap_filter, List.filter_filterMap]
  refine List.filterMap_congr fun e he => ?_
  obtain ⟨⟨held', name⟩, k⟩ := e
  simp only [occupant?]
  by_cases hheld : held' = held
  · subst hheld
    by_cases hamong : among ⟨held', name⟩ = true
    · cases r.playbacks[k]? <;> simp [hamong, Option.filter_some]
    · rw [h.clear_playbacks_getElem? he hamong]
      cases r.playbacks[k]? <;> simp [hamong, Option.filter_some]
  · simp [hheld]

theorem Consistent.roster_enter (h : r.Consistent) (p : Playback) :
    (r.enter p).roster held = r.roster held := by
  refine List.filterMap_congr fun e he => ?_
  simp [occupant?, Register.enter, List.getElem?_append_left (h.lt_length e he)]

theorem roster_stand (place : Place) (k : Nat) :
    (r.stand place k).roster held = (r.occupant? held (place, k)).toList ++ r.roster held := by
  have hplaces : (r.stand place k).places = (place, k) :: r.places := rfl
  have hoccupant : (r.stand place k).occupant? held = r.occupant? held := rfl
  rw [roster, roster, hplaces, hoccupant, List.filterMap_cons]
  cases r.occupant? held (place, k) <;> rfl

theorem roster_advance (nowMs : Nat) :
    (r.advance nowMs).roster held = ((r.roster held).advance nowMs).2 := by
  simp only [roster, Roster.advance, advance, List.map_filterMap]
  refine List.filterMap_congr fun e _ => ?_
  by_cases hheld : e.1.held = held
  · cases hk : r.playbacks[e.2]? <;> simp [occupant?, hheld, hk]
  · simp [occupant?, hheld]

theorem Consistent.find?_roster (h : r.Consistent) (name : String) :
    (r.roster held).find? name = r.at? ⟨held, name⟩ := by
  have hplaces : ∀ places : List (Place × Nat), (∀ e ∈ places, e.2 < r.playbacks.length) →
      (places.filterMap (r.occupant? held)).lookup name =
        (places.lookup ⟨held, name⟩).bind (r.playbacks[·]?) := by
    intro places hlt
    induction places with
    | nil => rfl
    | cons e places ih =>
      obtain ⟨⟨held', name'⟩, k⟩ := e
      obtain ⟨hk, hlt⟩ := List.forall_mem_cons.mp hlt
      have hp : r.playbacks[k]? = some r.playbacks[k] := List.getElem?_eq_getElem hk
      rw [List.filterMap_cons, occupant?, hp]
      by_cases hheld : held' = held
      · subst hheld
        by_cases hname : name = name'
        · simp [hname, hp]
        · have hname' : (name == name') = false := by simpa using hname
          have hne : (⟨held', name⟩ == (⟨held', name'⟩ : Place)) = false := by simp [hname]
          simp [ih hlt, hname', hne, List.lookup_cons]
      · have hne : (⟨held, name⟩ == (⟨held', name'⟩ : Place)) = false := by
          simp [Ne.symm hheld]
        simp [hheld, ih hlt, hne, List.lookup_cons]
  exact hplaces r.places h.lt_length

theorem Consistent.roster_nodup (h : r.Consistent) : ((r.roster held).map Prod.fst).Nodup := by
  let name? (place : Place) : Option String := if place.held = held then some place.name else none
  have hnames : (r.roster held).map Prod.fst = (r.places.map Prod.fst).filterMap name? := by
    rw [roster, List.map_filterMap, List.filterMap_map]
    refine List.filterMap_congr fun e he => ?_
    by_cases hheld : e.1.held = held <;>
      simp [occupant?, name?, hheld, List.getElem?_eq_getElem (h.lt_length e he)]
  rw [hnames]
  refine h.places_nodup.filterMap fun place other name hname hother => ?_
  obtain ⟨held₁, name₁⟩ := place
  obtain ⟨held₂, name₂⟩ := other
  simp only [name?, Option.mem_def, Option.ite_none_right_eq_some, Option.some.injEq] at hname hother
  rw [hname.1, hname.2, hother.1, hother.2]

/-- Clearing one place is removing one name from the roster of its kind. -/
theorem Consistent.roster_clear_place (h : r.Consistent) (place : Place) :
    (r.clear (· == place)).roster held =
      if place.held = held then (r.roster held).remove place.name else r.roster held := by
  rw [h.roster_clear]
  obtain ⟨held', name⟩ := place
  split_ifs with hheld
  · dsimp only at hheld
    subst hheld
    refine List.filter_congr fun e _ => ?_
    simp [bne]
  · refine List.filter_eq_self.mpr fun e _ => ?_
    simpa using fun heq => absurd heq.symm hheld

theorem Consistent.roster_begin (h : r.Consistent) (place : Place) (p : Playback) :
    (r.begin place p).roster held =
      if place.held = held then (r.roster held).put place.name p else r.roster held := by
  have hoccupant : ((r.clear (· == place)).enter p).occupant? held (place, r.playbacks.length) =
      if place.held = held then some (place.name, p) else none := by
    have hlength : (r.clear (· == place)).playbacks.length = r.playbacks.length := length_clear
    simp [occupant?, Register.enter, ← hlength]
  rw [Register.begin, roster_stand, hoccupant, (h.clear _).roster_enter, h.roster_clear_place]
  split_ifs
  · rfl
  · rfl

theorem Consistent.roster_keep (h : r.Consistent) {place : Place} {k : Nat} {p : Playback}
    (hk : r.places.lookup place = some k) (hp : r.playbacks[k]? = some p) :
    (r.keep place k).roster held =
      if place.held = held then (r.roster held).put place.name p.cancel else r.roster held := by
  have hmem : k ∈ r.numbers (· == place) := mem_numbers.mpr ⟨place, mem_of_lookup hk, by simp⟩
  have hoccupant : (r.clear (· == place)).occupant? held (place, k) =
      if place.held = held then some (place.name, p.cancel) else none := by
    rw [occupant?, Register.clear_playbacks_getElem?, hp]
    simp [hmem]
  rw [Register.keep, roster_stand, hoccupant, h.roster_clear_place]
  split_ifs
  · rfl
  · rfl

end Roster

section Named

variable {r : Register} (held : Bool)

theorem named_silent (outcome : Outcome) (r : Register) :
    (⟨outcome, fun _ => [], r⟩ : Step).named held = [] := by
  simp [Step.named]

/-- Only the new playback makes calls when it starts. -/
theorem Consistent.named_begin (h : r.Consistent) (place : Place) (p : Playback)
    (outcome : Outcome) (calls : List Call) :
    (⟨outcome, r.opening calls, r.begin place p⟩ : Step).named held =
      if place.held = held then calls.map (⟨place.name, ·⟩) else [] := by
  have hplaces : (r.begin place p).places =
      (place, r.playbacks.length) :: (r.clear (· == place)).places := rfl
  have hothers : ∀ e ∈ (r.clear (· == place)).places, e.2 ≠ r.playbacks.length := by
    intro e he
    exact Nat.ne_of_lt (h.lt_length e (List.mem_of_mem_filter he))
  rw [Step.named, hplaces, List.flatMap_cons]
  have hnone : (r.clear (· == place)).places.flatMap (fun (place, k) =>
      if place.held = held then
        (r.opening calls k).map (NamedCall.mk place.name) else []) = [] := by
    rw [List.flatMap_eq_nil_iff]
    intro e he
    simp [opening, hothers e he]
  rw [hnone]
  simp [opening]

theorem flatMap_filterMap {α β γ : Type} (l : List α) (f : α → Option β) (g : β → List γ) :
    (l.filterMap f).flatMap g = l.flatMap fun a => (f a).elim [] g := by
  induction l with
  | nil => rfl
  | cons a l ih => cases h : f a <;> simp [h, ih]

theorem named_advance (outcome : Outcome) (nowMs : Nat) :
    (⟨outcome, r.due nowMs, r.advance nowMs⟩ : Step).named held =
      ((r.roster held).advance nowMs).1 := by
  have hplaces : (r.advance nowMs).places = r.places := rfl
  rw [Step.named, Roster.advance, roster, hplaces]
  simp only [List.flatMap_map, flatMap_filterMap]
  refine List.flatMap_congr fun e _ => ?_
  by_cases hheld : e.1.held = held
  · cases hk : r.playbacks[e.2]? <;> simp [occupant?, due, hheld, hk]
  · simp [occupant?, hheld]

/-- When time passes, the calls under a name are those of the playback found there. -/
theorem Consistent.callsUnder_advance (h : r.Consistent) (outcome : Outcome) (nowMs : Nat)
    (name : String) :
    (⟨outcome, r.due nowMs, r.advance nowMs⟩ : Step).callsUnder held name =
      ((r.roster held).find? name).elim [] fun p => (p.advance nowMs).1.map (⟨name, ·⟩) := by
  rw [Step.callsUnder, named_advance, Roster.advance_calls (h.roster_nodup held)]

end Named

section Step

variable {r : Register}

theorem Consistent.at?_target (h : r.Consistent) (name : String) :
    r.session.scheduler.targets.find? name = r.at? (.target name) := h.find?_roster false name

theorem Consistent.at?_holder (h : r.Consistent) (name : String) :
    r.session.held.find? name = r.at? (.holder name) := h.find?_roster true name

theorem Consistent.view_start?_target (h : r.Consistent) (name : String) (cycle : Cycle) :
    (r.start? (.target name) cycle r.scale).map Step.view = r.session.play? name cycle := by
  rw [start?, Session.play?, Scheduler.play?, Option.map_map, Option.map_map]
  refine Option.map_congr fun started _ => ?_
  obtain ⟨p, calls⟩ := started
  simp only [Function.comp_apply, Step.view, h.named_begin, session, h.roster_begin, Place.target,
    if_true, Bool.false_eq_true, if_false, List.append_nil]
  rfl

theorem Consistent.view_start?_holder (h : r.Consistent) (name : String) (cycle : Cycle)
    (scale : Binary64) :
    (r.start? (.holder name) cycle scale).map Step.view =
      (Playback.start? r.nowMs cycle scale).map fun (p, calls) =>
        ⟨.status p.status, calls.map (⟨name, ·⟩),
          { r.session with held := r.session.held.put name p }⟩ := by
  rw [start?, Option.map_map]
  refine Option.map_congr fun started _ => ?_
  obtain ⟨p, calls⟩ := started
  simp only [Function.comp_apply, Step.view, h.named_begin, session, h.roster_begin, Place.holder,
    if_true, Bool.true_eq_false, if_false, List.nil_append]
  rfl

theorem view_silent (outcome : Outcome) (r : Register) :
    (⟨outcome, fun _ => [], r⟩ : Step).view = ⟨outcome, [], r.session⟩ := by
  rw [Step.view, named_silent, named_silent]
  rfl

theorem Consistent.session_clear_target (h : r.Consistent) (name : String) :
    (r.clear (· == .target name)).session =
      { r.session with scheduler := r.session.scheduler.cancel name } := by
  simp only [session, h.roster_clear_place, Place.target, if_true, Bool.false_eq_true, if_false]
  rfl

theorem Consistent.session_clear_targets (h : r.Consistent) :
    (r.clear (!·.held)).session = { r.session with scheduler := r.session.scheduler.cancelAll } := by
  simp only [session, h.roster_clear, Bool.not_not, List.filter_false, List.filter_true]
  rfl

theorem Consistent.session_clear_holder (h : r.Consistent) (name : String) :
    (r.clear (· == .holder name)).session =
      { r.session with held := r.session.held.remove name } := by
  simp only [session, h.roster_clear_place, Place.holder, if_true, Bool.true_eq_false, if_false]
  rfl

theorem Consistent.session_keep (h : r.Consistent) {name : String} {k : Nat} {p : Playback}
    (hk : r.places.lookup (.holder name) = some k) (hp : r.playbacks[k]? = some p) :
    (r.keep (.holder name) k).session =
      { r.session with held := r.session.held.put name p.cancel } := by
  have hroster := fun held => h.roster_keep held hk hp
  simp only [Place.holder] at hroster
  simp only [session, Place.holder, hroster, if_true, Bool.true_eq_false, if_false]
  rfl

/-- Seen by name, a step of a register is the step of its session. -/
theorem Consistent.step?_view (h : r.Consistent) (command : Command) :
    (r.step? command).map Step.view = r.session.step? command := by
  unfold step? Session.step?
  cases command with
  | play target cycle => exact h.view_start?_target target cycle
  | simulate target text =>
    dsimp only
    cases Characteristic.read text with
    | ok light => exact h.view_start?_target target _
    | error fault => exact congrArg some (view_silent _ r)
  | cancel target =>
    dsimp only
    rw [Option.map_some, view_silent, h.session_clear_target, Scheduler.isTarget, h.at?_target]
  | cancelAll =>
    dsimp only
    rw [Option.map_some, view_silent, h.session_clear_targets]
  | advance ms =>
    dsimp only
    simp only [Option.map_some, Step.view, named_advance, session, roster_advance]
    rfl
  | start holder cycle scale => exact h.view_start?_holder holder cycle scale
  | stop holder =>
    dsimp only
    rw [h.at?_holder]
    cases hk : r.places.lookup (.holder holder) with
    | none =>
      simp only [at?, hk, Option.bind_none, Option.map_some, view_silent]
    | some k =>
      obtain ⟨p, hp, hat⟩ := h.exists_playback hk
      simp only [hp, hat, Option.map_some, view_silent, h.session_keep hk hp]
  | drop holder =>
    dsimp only
    rw [Option.map_some, view_silent, h.session_clear_holder, h.at?_holder]
  | look holder =>
    dsimp only
    rw [h.at?_holder]
    cases r.at? (.holder holder) with
    | some p => exact congrArg some (view_silent _ r)
    | none => exact congrArg some (view_silent _ r)

/-- Seen by name, a run of a register is the run of its session. -/
theorem Consistent.run?_view (h : r.Consistent) (commands : List Command) :
    (r.run? commands).map (List.map Step.view) = r.session.run? commands := by
  induction commands generalizing r with
  | nil => rfl
  | cons command commands ih =>
    rw [run?, Session.run?, Steps.run?, Steps.run?, ← h.step?_view]
    cases hstep : r.step? command with
    | none => rfl
    | some step =>
      simp only [Option.bind_eq_bind, Option.bind_some, Option.map_some]
      change ((step.register.run? commands).bind _).map _ =
        (step.register.session.run? commands).bind _
      rw [← ih (h.step hstep)]
      cases step.register.run? commands <;> rfl

/-- From the start, every run of the session is what a run of the register shows. -/
theorem exists_run? {scale : Binary64} {commands : List Command} {steps : List Session.Step}
    (hrun : (Session.ofScale scale).run? commands = some steps) :
    ∃ log, (ofScale scale).run? commands = some log ∧ steps = log.map Step.view := by
  have hview := (ofScale_consistent scale).run?_view commands
  have hsession : (ofScale scale).session = Session.ofScale scale := rfl
  rw [hsession, hrun] at hview
  obtain ⟨log, hlog, hsteps⟩ := Option.map_eq_some_iff.mp hview
  exact ⟨log, hlog, hsteps.symm⟩

end Step

end Register

end ChartLight

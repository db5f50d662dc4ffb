import ChartLight.Proofs.Independence
import ChartLight.Proofs.Register.Standing

/-! A scheduler is a map from names to the playbacks that were begun there last. Its names, what it
says of them, what it cancels and who calls under them are all told by what stands on its targets. -/

namespace ChartLight

open Number

/-- Cancelling a name answers whether it is a target, and takes away that name only. -/
theorem Session.step?_cancel (s : Session) (name : String) :
    ∃ step, s.step? (.cancel name) = some step ∧ step.calls = [] ∧
      step.outcome = .flag (decide (name ∈ s.scheduler.targets.names)) ∧
      ∀ other, step.session.scheduler.targets.find? other =
        if other = name then none else s.scheduler.targets.find? other := by
  refine ⟨_, rfl, rfl, ?_, fun other => ?_⟩
  · simp only [Roster.mem_names, Scheduler.isTarget, Bool.decide_eq_true]
  · have hkept := s.scheduler.targets.find?_filter (· != name) other
    simpa [Scheduler.cancel, Roster.remove, bne] using hkept

namespace Register

section Targets

variable {r : Register} {commands : List Command} {name : String} {k : Nat} {cycle : Cycle}

theorem Consistent.lookup_of_mem (h : r.Consistent) {place : Place} (hmem : (place, k) ∈ r.places) :
    r.places.lookup place = some k := by
  obtain ⟨before, after, hsplit⟩ := List.append_of_mem hmem
  have hnodup := h.places_nodup
  rw [hsplit, List.map_append, List.map_cons] at hnodup
  refine List.lookup_eq_some_iff.mpr ⟨before, after, hsplit, fun e he => bne_iff_ne.mpr fun heq => ?_⟩
  have hbefore : place ∈ before.map Prod.fst := heq ▸ List.mem_map_of_mem he
  exact (List.disjoint_of_nodup_append hnodup hbefore) List.mem_cons_self

/-- The playback that a scheduler has under a name is the one that stands there. -/
theorem Reflects.find?_target (h : Reflects commands r)
    (hstands : Stands commands (.target name) k cycle) :
    ∃ p, r.playbacks[k]? = some p ∧ r.session.scheduler.targets.find? name = some p := by
  obtain ⟨p, hp, hat⟩ := h.consistent.exists_playback
    (h.consistent.lookup_of_mem (h.mem_places hstands))
  exact ⟨p, hp, by rw [h.consistent.at?_target, hat]⟩

theorem Reflects.stands_of_find? (h : Reflects commands r) {p : Playback}
    (hfind : r.session.scheduler.targets.find? name = some p) :
    ∃ k cycle, Stands commands (.target name) k cycle ∧ r.playbacks[k]? = some p := by
  rw [h.consistent.at?_target, at?] at hfind
  obtain ⟨k, hk, hp⟩ := Option.bind_eq_some_iff.mp hfind
  obtain ⟨cycle, hstands⟩ := h.stands_target (mem_of_lookup hk)
  exact ⟨k, cycle, hstands, hp⟩

theorem Reflects.mem_names_iff (h : Reflects commands r) (name : String) :
    name ∈ r.session.scheduler.targets.names ↔
      ∃ k cycle, Stands commands (.target name) k cycle := by
  rw [Roster.mem_names]
  constructor
  · intro hsome
    obtain ⟨p, hp⟩ := Option.isSome_iff_exists.mp hsome
    obtain ⟨k, cycle, hstands, -⟩ := h.stands_of_find? hp
    exact ⟨k, cycle, hstands⟩
  · rintro ⟨k, cycle, hstands⟩
    obtain ⟨p, -, hfind⟩ := h.find?_target hstands
    rw [hfind]
    rfl

theorem Reflects.names_nodup (h : Reflects commands r) :
    r.session.scheduler.targets.names.Nodup :=
  (List.mergeSort_perm _ _).nodup_iff.mpr (h.consistent.roster_nodup false)

/-- What plays is what stands and has a segment, however long it has been going on. -/
theorem Reflects.isPlaying_iff (h : Reflects commands r) (name : String) :
    r.session.scheduler.isPlaying name = true ↔
      ∃ k cycle, Stands commands (.target name) k cycle ∧ cycle.segments ≠ [] := by
  constructor
  · intro hplaying
    obtain ⟨p, hp, hscheduled⟩ := (Option.any_eq_true _ _).mp hplaying
    obtain ⟨k, cycle, hstands, hk⟩ := h.stands_of_find? hp
    have hgoing : p.cancelled = false := by simpa [Playback.status] using hscheduled
    obtain ⟨place, other, hother, hne⟩ := (h.going hk).mp hgoing
    -- one number is begun once, so it stands at one place with one cycle
    have hsame := hstands.getElem?_begun.symm.trans hother.getElem?_begun
    cases hsame
    exact ⟨k, cycle, hstands, hne⟩
  · rintro ⟨k, cycle, hstands, hne⟩
    obtain ⟨p, hk, hfind⟩ := h.find?_target hstands
    have hgoing := (h.going hk).mpr ⟨_, _, hstands, hne⟩
    rw [Scheduler.isPlaying, hfind, Option.any_some, Playback.status, hgoing]
    rfl

/-- Under a name calls whoever stands there. -/
theorem Reflects.stands_of_callsOn {step : Step} (h : Reflects commands step.register)
    {call : NamedCall} (hcall : call ∈ step.callsOn name) :
    ∃ k cycle, Stands commands (.target name) k cycle ∧ call.call ∈ step.calls k := by
  obtain ⟨hnamed, hname⟩ := List.mem_filter.mp hcall
  obtain ⟨⟨⟨held, other⟩, k⟩, hmem, hcalls⟩ := List.mem_flatMap.mp hnamed
  dsimp only at hcalls
  split_ifs at hcalls with hheld
  · obtain ⟨c, hc, rfl⟩ := List.mem_map.mp hcalls
    subst hheld
    obtain rfl : other = name := by simpa using hname
    obtain ⟨cycle, hstands⟩ := h.stands_target hmem
    exact ⟨k, cycle, hstands, hc⟩
  · cases hcalls

end Targets

/-- After any run, a scheduler is the map from names to the cycles that were begun there last and not
ended since. Its names are listed once each, those play whose cycle has a segment, and cancelling one
takes away that one. Every call under a name was made by the playback that stood there after its step,
only one stands under a name, and a playback that no longer stands is marked and never calls again. -/
theorem scheduler_maps_latest (scale : Binary64) (commands : List Command)
    {steps : List Session.Step} (hrun : (Session.ofScale scale).run? commands = some steps) :
    ∃ log, (ofScale scale).run? commands = some log ∧ steps = log.map Step.view ∧
      let r := (ofScale scale).after log
      let scheduler := r.session.scheduler
      scheduler.targets.names.Nodup ∧
      (∀ name,
        (name ∈ scheduler.targets.names ↔ ∃ k cycle, Stands commands (.target name) k cycle) ∧
        (scheduler.isPlaying name = true ↔
          ∃ k cycle, Stands commands (.target name) k cycle ∧ cycle.segments ≠ []) ∧
        ∃ step, r.session.step? (.cancel name) = some step ∧ step.calls = [] ∧
          step.outcome = .flag (decide (name ∈ scheduler.targets.names)) ∧
          ∀ other, step.session.scheduler.targets.find? other =
            if other = name then none else scheduler.targets.find? other) ∧
      (∀ i step, log[i]? = some step → ∀ name, ∀ call ∈ step.callsOn name,
        ∃ k cycle, Stands (commands.take (i + 1)) (.target name) k cycle ∧
          call.call ∈ step.calls k) ∧
      (∀ name k cycle j other, Stands commands (.target name) k cycle →
        Stands commands (.target name) j other → k = j) ∧
      ∀ name k cycle, (begun commands)[k]? = some (.target name, cycle) →
        ¬Stands commands (.target name) k cycle →
        (∀ p, r.playbacks[k]? = some p → p.cancelled = true) ∧
        ∀ later late, r.run? later = some late → ∀ step ∈ late, step.calls k = [] := by
  obtain ⟨log, hlog, rfl⟩ := exists_run? hrun
  have hnew := ofScale_reflects scale
  have hlast : Reflects commands ((ofScale scale).after log) := hnew.after hlog
  refine ⟨log, hlog, rfl, hlast.names_nodup, fun name => ?_, fun i step hi name call hcall => ?_,
    fun name k cycle j other hk hj => hk.unique hj, fun name k cycle hk hnot => ?_⟩
  · exact ⟨hlast.mem_names_iff name, hlast.isPlaying_iff name, Session.step?_cancel _ name⟩
  · have hthen : Reflects (commands.take (i + 1)) step.register := (hnew.run hlog hi).1
    exact hthen.stands_of_callsOn hcall
  · have hnone : ∀ place other, ¬Stands commands place k other := by
      intro place other hstands
      have hsame := hk.symm.trans hstands.getElem?_begun
      cases hsame
      exact hnot hstands
    constructor
    · intro p hp
      by_contra hmark
      rw [Bool.not_eq_true] at hmark
      obtain ⟨place, other, hstands, -⟩ := (hlast.going hp).mp hmark
      exact hnone place other hstands
    · intro later late hlate
      exact hlast.calls_eq_nil hlate (List.getElem?_eq_some_iff.mp hk).1 hnone

/-- One target is played twice, another is given a cycle without segments: both are targets, the first
alone is playing, and its first playback never calls again. -/
theorem scheduler_maps_latest_north :
    let r := ofScale (Binary64.ofNat 1)
    let blink := Cycle.mk 3 [⟨1, true, .red⟩, ⟨2, false, .red⟩]
    let commands := [Command.play "north" blink, .advance 2, .play "north" blink,
      .play "south" ⟨0, []⟩, .advance 4]
    ∃ log, r.run? commands = some log ∧
      let scheduler := (r.after log).session.scheduler
      "north" ∈ scheduler.targets.names ∧ "south" ∈ scheduler.targets.names ∧
      scheduler.isPlaying "north" = true ∧ scheduler.isPlaying "south" = false ∧
      ∀ later late, (r.after log).run? later = some late → ∀ step ∈ late, step.calls 0 = [] := by
  intro r blink commands
  obtain ⟨steps, hrun⟩ := Option.isSome_iff_exists.mp
    (by decide +kernel : ((Session.ofScale (Binary64.ofNat 1)).run? commands).isSome)
  obtain ⟨log, hlog, -, -, hname, -, honly, hgone⟩ := scheduler_maps_latest _ commands hrun
  have hnorth : Stands commands (.target "north") 1 blink :=
    ⟨[.play "north" blink, .advance 2], .play "north" blink, [.play "south" ⟨0, []⟩, .advance 4],
      rfl, rfl, rfl, List.forall_mem_cons.mpr ⟨by decide, List.forall_mem_singleton.mpr rfl⟩⟩
  have hsouth : Stands commands (.target "south") 2 ⟨0, []⟩ :=
    ⟨[.play "north" blink, .advance 2, .play "north" blink], .play "south" ⟨0, []⟩, [.advance 4],
      rfl, rfl, rfl, List.forall_mem_singleton.mpr rfl⟩
  have hfirst : ¬Stands commands (.target "north") 0 blink := fun hstands =>
    absurd (honly _ _ _ _ _ hstands hnorth) (by decide)
  refine ⟨log, hlog, (hname "north").1.mpr ⟨1, blink, hnorth⟩,
    (hname "south").1.mpr ⟨2, _, hsouth⟩, (hname "north").2.1.mpr ⟨1, blink, hnorth, by simp [blink]⟩,
    ?_, (hgone "north" 0 blink rfl hfirst).2⟩
  rw [← Bool.not_eq_true, (hname "south").2.1]
  rintro ⟨k, cycle, hstands, hne⟩
  obtain rfl := honly _ _ _ _ _ hstands hsouth
  have hsame := hstands.getElem?_begun.symm.trans hsouth.getElem?_begun
  cases hsame
  exact hne rfl

end Register

end ChartLight

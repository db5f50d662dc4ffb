import ChartLight.Proofs.Lengths
import ChartLight.Proofs.Register
import ChartLight.Proofs.Roster
import ChartLight.Proofs.Timing
import ChartLight.Proofs.Validity
import ChartLight.Proofs.Waits

/-! What is shown of a light that was started from its text, at any time afterwards. At a scale of one
the waits are the durations, so the deadlines can be inverted: the time since the start, divided by
the length of the cycle, gives the whole cycles, and the rest the segment. As long as nobody touches
the target, every step keeps it so. -/

namespace ChartLight

open Number

section Offsets

variable {segments : List Segment}

theorem totalMs_take_succ {i : Nat} (h : i < segments.length) :
    totalMs (segments.take (i + 1)) = totalMs (segments.take i) + segments[i].durationMs := by
  rw [List.take_add_one, List.getElem?_eq_getElem h, totalMs_append]
  rfl

theorem totalMs_take_mono {i j : Nat} (h : i ≤ j) :
    totalMs (segments.take i) ≤ totalMs (segments.take j) := by
  have happend := List.take_append_drop i (segments.take j)
  rw [List.take_take, Nat.min_eq_left h] at happend
  rw [← happend, totalMs_append]
  omega

theorem totalMs_take_le (i : Nat) : totalMs (segments.take i) ≤ totalMs segments := by
  conv_rhs => rw [← List.take_append_drop i segments, totalMs_append]
  omega

/-- A segment is shown at an offset into its cycle if the ones before it have ended by then and it has
not. -/
def ShownAt (segments : List Segment) (offset index : Nat) : Prop :=
  index < segments.length ∧ totalMs (segments.take index) ≤ offset ∧
    offset < totalMs (segments.take (index + 1))

theorem ShownAt.unique {offset i j : Nat} (hi : ShownAt segments offset i)
    (hj : ShownAt segments offset j) : i = j := by
  obtain ⟨-, hi, hi'⟩ := hi
  obtain ⟨-, hj, hj'⟩ := hj
  rcases Nat.lt_trichotomy i j with hlt | heq | hgt
  · have hmono : totalMs (segments.take (i + 1)) ≤ totalMs (segments.take j) :=
      totalMs_take_mono hlt
    omega
  · exact heq
  · have hmono : totalMs (segments.take (j + 1)) ≤ totalMs (segments.take i) :=
      totalMs_take_mono hgt
    omega

end Offsets

namespace Course

/-- A course that shows each segment for its duration. -/
def ofMs (startMs : Nat) (segments : List Segment) : Course :=
  ⟨startMs, segments, fun s => s.durationMs * 1000000⟩

variable {startMs : Nat} {segments : List Segment}

theorem total_map_ns (l : List Segment) :
    total (l.map fun s => s.durationMs * 1000000) = totalMs l * 1000000 := by
  induction l with
  | nil => rfl
  | cons s l ih =>
    rw [List.map_cons, total, ih, totalMs_cons, Nat.add_mul]

theorem cycleNs_ofMs : (ofMs startMs segments).cycleNs = totalMs segments * 1000000 :=
  total_map_ns segments

/-- Within the first cycle. -/
theorem dueNs_ofMs_of_le {i : Nat} (h : i ≤ segments.length) :
    (ofMs startMs segments).dueNs i = (startMs + totalMs (segments.take i)) * 1000000 := by
  induction i with
  | zero => rw [dueNs_zero, List.take_zero, totalMs_nil, Nat.add_zero, ofMs]
  | succ i ih =>
    have hsegment : (ofMs startMs segments).segmentAfter i = segments[i] := by
      have hlt : i < segments.length := h
      simp [segmentAfter, ofMs, Nat.mod_eq_of_lt hlt, hlt]
    rw [dueNs_succ, ih (Nat.le_of_succ_le h), hsegment, totalMs_take_succ h, ofMs]
    dsimp only
    omega

/-- In the cycle after `q` others. -/
theorem dueNs_ofMs {i : Nat} (h : i ≤ segments.length) (q : Nat) :
    (ofMs startMs segments).dueNs (i + segments.length * q) =
      (startMs + totalMs segments * q + totalMs (segments.take i)) * 1000000 := by
  have hcycles := (ofMs startMs segments).dueNs_add_mul_length i q
  rw [dueNs_ofMs_of_le h, cycleNs_ofMs] at hcycles
  rw [ofMs] at hcycles ⊢
  rw [hcycles, Nat.mul_right_comm]
  omega

/-- The segment that is due now and lasts beyond now, from the time since the start. -/
theorem shownAt_of_dueNs (hne : segments ≠ []) {k nowMs : Nat}
    (hdue : (ofMs startMs segments).dueNs k ≤ nowMs * 1000000)
    (hnext : nowMs * 1000000 < (ofMs startMs segments).dueNs (k + 1)) :
    ∃ elapsed, nowMs = startMs + elapsed ∧
      k / segments.length = elapsed / totalMs segments ∧
      ShownAt segments (elapsed % totalMs segments) (k % segments.length) := by
  have hlt : k % segments.length < segments.length := Nat.mod_lt k (List.length_pos_of_ne_nil hne)
  -- the number splits into whole cycles and a place in the next, and the two deadlines with it
  have hk := Nat.mod_add_div k segments.length
  have hk' : k + 1 = k % segments.length + 1 + segments.length * (k / segments.length) := by omega
  generalize k % segments.length = i at *
  generalize k / segments.length = q at *
  rw [← hk, dueNs_ofMs (Nat.le_of_lt hlt)] at hdue
  rw [hk', dueNs_ofMs (Nat.succ_le_of_lt hlt), Nat.succ_eq_add_one] at hnext
  have hwhole : totalMs (segments.take (i + 1)) ≤ totalMs segments := totalMs_take_le _
  obtain ⟨elapsed, rfl⟩ : ∃ elapsed, nowMs = startMs + elapsed := ⟨nowMs - startMs, by omega⟩
  have hlow : totalMs segments * q + totalMs (segments.take i) ≤ elapsed := by omega
  have hhigh : elapsed < totalMs segments * q + totalMs (segments.take (i + 1)) := by omega
  have hpos : 0 < totalMs segments := by omega
  obtain ⟨offset, rfl⟩ := Nat.exists_eq_add_of_le (Nat.le_trans (Nat.le_add_right _ _) hlow)
  have hoffset : offset < totalMs segments := by omega
  refine ⟨_, rfl, ?_, hlt, ?_, ?_⟩
  · rw [Nat.mul_add_div hpos, Nat.div_eq_of_lt hoffset, Nat.add_zero]
  · rw [Nat.mul_add_mod, Nat.mod_eq_of_lt hoffset]
    omega
  · rw [Nat.mul_add_mod, Nat.mod_eq_of_lt hoffset]
    omega

/-- A playback that could be started is at its first segment. -/
theorem eq_stateAfter_of_start? (c : Course) (hpos : 0 < c.cycleNs) {cycle : Cycle}
    {scale : Binary64} {started : Playback × List Call} (hcycle : cycle.segments = c.segments)
    (hwait : ∀ s ∈ c.segments, waitNs? scale s = some (c.waitNs s))
    (hstart : Playback.start? c.startMs cycle scale = some started) :
    started.1 = c.stateAfter 0 := by
  have hclock : c.dueNs 1 < clockBound := by
    -- otherwise there would be nothing started
    by_contra hlate
    cases hsegments : c.segments with
    | nil => exact absurd hsegments (c.ne_nil_of_pos hpos)
    | cons first rest =>
      have hfirst := hwait first (hsegments ▸ List.mem_cons_self)
      have hdue : c.dueNs 1 = c.startMs * 1000000 + c.waitNs first := by
        rw [dueNs_succ, dueNs_zero]
        simp [segmentAfter, hsegments]
      rw [hdue] at hlate
      rw [hsegments] at hcycle
      simp only [Playback.start?, hcycle, hfirst, if_neg hlate] at hstart
      cases hstart
  rw [c.start?_eq hpos hcycle hwait hclock] at hstart
  cases hstart
  rfl

/-- A target plays a course, and its playback is where the clock has brought it. -/
def PlaysOn (c : Course) (target : String) (s : Session) : Prop :=
  ∃ k, s.scheduler.targets.find? target = some (c.stateAfter k) ∧
    c.dueNs k ≤ s.nowMs * 1000000 ∧ s.nowMs * 1000000 < c.dueNs (k + 1)

/-- What is due by a later time is called, and the rest is not. -/
theorem PlaysOn.advance {c : Course} (hpos : 0 < c.cycleNs) {target : String} {s s' : Session}
    (h : c.PlaysOn target s) (hlater : s.nowMs ≤ s'.nowMs)
    (hfind : s'.scheduler.targets.find? target =
      (s.scheduler.targets.find? target).map fun p => (p.advance s'.nowMs).2) :
    c.PlaysOn target s' := by
  obtain ⟨k, hk, hdue, hnext⟩ := h
  obtain ⟨m, hadvance, hcalls⟩ := c.advance_stateAfter hpos s'.nowMs k
  refine ⟨k + m, ?_, ?_, ?_⟩
  · rw [hfind, hk, Option.map_some, hadvance]
  · rcases Nat.eq_zero_or_pos m with rfl | hm
    · exact Nat.le_trans hdue (Nat.mul_le_mul_right 1000000 hlater)
    · have hlast := (hcalls (k + m) (by omega)).1 (Nat.le_refl _)
      rwa [callAfter, tickOf_le_iff] at hlast
  · have hahead := mt (hcalls (k + m + 1) (by omega)).2 (by omega)
    rw [callAfter, tickOf_le_iff] at hahead
    exact Nat.lt_of_not_le hahead

end Course

namespace Characteristic

theorem cycleNs_pos (light : Characteristic) (startMs : Nat) :
    0 < (Course.ofMs startMs (light.cycle .extend).segments).cycleNs := by
  have hle := light.periodMs_le_cycle_totalMs .extend
  have hpos := light.periodMs_pos
  rw [Course.cycleNs_ofMs]
  exact Nat.mul_pos (Nat.lt_of_lt_of_le hpos hle) (by decide)

/-- The first segment is shown for some time. -/
theorem lt_dueNs_one (light : Characteristic) (startMs : Nat) :
    startMs * 1000000 < (Course.ofMs startMs (light.cycle .extend).segments).dueNs 1 := by
  have hlength := List.length_pos_of_ne_nil (light.cycle_ne_nil .extend)
  have hpos := light.cycle_pos .extend _ (List.getElem_mem hlength)
  rw [Course.dueNs_ofMs_of_le hlength, totalMs_take_succ hlength]
  exact Nat.mul_lt_mul_of_pos_right (by omega) (by decide)

end Characteristic

namespace Session

variable {s : Session} {target : String} {command : Command} {step : Step}

theorem play?_elsewhere {name : String} {cycle : Cycle} (h : s.play? name cycle = some step)
    (hname : name ≠ target) :
    step.session.nowMs = s.nowMs ∧
      step.session.scheduler.targets.find? target = s.scheduler.targets.find? target := by
  obtain ⟨⟨scheduler, status, calls⟩, hplay, rfl⟩ := Option.map_eq_some_iff.mp h
  obtain ⟨⟨p, calls⟩, -, hscheduler⟩ := Option.map_eq_some_iff.mp hplay
  cases hscheduler
  exact ⟨rfl, by rw [Roster.find?_put, if_neg (Ne.symm hname)]⟩

/-- A command that does not end what is played on a target moves the clock, and the playback with it,
or it changes neither. -/
theorem step?_untouched (hstep : s.step? command = some step)
    (hends : command.ends (.target target) = false) :
    (step.session.nowMs = s.nowMs ∧
      step.session.scheduler.targets.find? target = s.scheduler.targets.find? target) ∨
    ∃ ms, command = .advance ms ∧ step.session.nowMs = s.nowMs + ms ∧
      step.session.scheduler.targets.find? target =
        (s.scheduler.targets.find? target).map fun p => (p.advance step.session.nowMs).2 := by
  have hother {name : String} (hname : (Place.target target == .target name) = false) :
      name ≠ target := by
    rintro rfl
    simp at hname
  unfold step? at hstep
  cases command with
  | play name cycle => exact Or.inl (play?_elsewhere hstep (hother hends))
  | simulate name text =>
    unfold Command.ends at hends
    dsimp only at hstep hends
    cases hread : Characteristic.read text with
    | ok light =>
      rw [hread] at hstep hends
      exact Or.inl (play?_elsewhere hstep (hother hends))
    | error fault =>
      rw [hread] at hstep
      cases hstep
      exact Or.inl ⟨rfl, rfl⟩
  | cancel name =>
    cases hstep
    refine Or.inl ⟨rfl, ?_⟩
    have hkept := s.scheduler.targets.find?_filter (· != name) target
    rwa [if_pos (by simpa using Ne.symm (hother hends))] at hkept
  | cancelAll => cases hends
  | advance ms =>
    cases hstep
    exact Or.inr ⟨ms, rfl, rfl, Roster.find?_advance _ _ _⟩
  | start holder cycle scale =>
    obtain ⟨⟨p, calls⟩, -, rfl⟩ := Option.map_eq_some_iff.mp hstep
    exact Or.inl ⟨rfl, rfl⟩
  | stop holder | look holder =>
    dsimp only at hstep
    split at hstep <;> cases hstep <;> exact Or.inl ⟨rfl, rfl⟩
  | drop holder =>
    cases hstep
    exact Or.inl ⟨rfl, rfl⟩

theorem playsOn_step {c : Course} (hpos : 0 < c.cycleNs) (h : c.PlaysOn target s)
    (hstep : s.step? command = some step) (hends : command.ends (.target target) = false) :
    c.PlaysOn target step.session := by
  rcases step?_untouched hstep hends with ⟨hnow, hfind⟩ | ⟨ms, -, hnow, hfind⟩
  · obtain ⟨k, hk⟩ := h
    exact ⟨k, by rwa [hnow, hfind]⟩
  · exact h.advance hpos (by omega) hfind

theorem playsOn_run {c : Course} (hpos : 0 < c.cycleNs) (h : c.PlaysOn target s)
    {commands : List Command} {log : List Step} (hrun : s.run? commands = some log)
    (hends : ∀ command ∈ commands, command.ends (.target target) = false) :
    ∀ step ∈ log, c.PlaysOn target step.session :=
  Steps.kept_of_mem (I := c.PlaysOn target)
    (fun hmem hplays hstep => playsOn_step hpos hplays hstep (hends _ hmem)) h hrun

theorem scale_ofScale (scale : Binary64) : (ofScale scale).scheduler.scale = scale := rfl

/-- A light that was read is started as the course of its cycle, in milliseconds. -/
theorem simulate_playsOn {text : String} {light : Characteristic}
    (hscale : s.scheduler.scale = Binary64.ofNat 1) (hread : Characteristic.read text = .ok light)
    (hstep : s.step? (.simulate target text) = some step) :
    step.session.nowMs = s.nowMs ∧
      (Course.ofMs s.nowMs (light.cycle .extend).segments).PlaysOn target step.session := by
  have hvalid : light.fault? = none := (Characteristic.readable_of_readWith hread).fault?
  have hwait : ∀ segment ∈ (light.cycle .extend).segments,
      waitNs? s.scheduler.scale segment = some (segment.durationMs * 1000000) := by
    intro segment hsegment
    have hgroup := ((Characteristic.fault?_eq_none_iff_shape light).1 hvalid).2.1
    rw [hscale]
    exact waitNs?_one (Characteristic.length_le_of_mem_cycle hgroup hsegment)
  unfold step? at hstep
  dsimp only at hstep
  rw [hread] at hstep
  obtain ⟨⟨scheduler, status, calls⟩, hplay, rfl⟩ := Option.map_eq_some_iff.mp hstep
  obtain ⟨started, hstart, hscheduler⟩ := Option.map_eq_some_iff.mp hplay
  cases hscheduler
  have hcycle := light.cycleNs_pos s.nowMs
  have hfirst := Course.eq_stateAfter_of_start? _ hcycle rfl hwait hstart
  refine ⟨rfl, 0, ?_, ?_, ?_⟩
  · rw [Roster.find?_put, if_pos rfl, hfirst]
  · rw [Course.dueNs_zero]
    exact Nat.le_refl _
  · exact light.lt_dueNs_one s.nowMs

/-- At any time after a light was started from its text at a scale of one, with the target left alone,
as many cycles have been shown as fit the time since, and what is shown is the segment that the rest of
the time falls into. The length of a cycle is the period, unless it overruns. -/
theorem simulate_shows_light {text : String} {light : Characteristic} {first : Step}
    {commands : List Command} {log : List Step}
    (hscale : s.scheduler.scale = Binary64.ofNat 1) (hread : Characteristic.read text = .ok light)
    (hstart : s.step? (.simulate target text) = some first)
    (hrun : first.session.run? commands = some log)
    (huntouched : ∀ command ∈ commands, command.ends (.target target) = false) :
    let cycle := light.cycle .extend
    (∀ step ∈ first :: log, ∃ elapsed index p, step.session.nowMs = s.nowMs + elapsed ∧
      step.session.scheduler.targets.find? target = some p ∧
      p.status = ⟨true, index, elapsed / cycle.totalMs⟩ ∧
      ∀ i, ShownAt cycle.segments (elapsed % cycle.totalMs) i ↔ i = index) ∧
    (∀ ms, ∃ step, first.session.run? [.advance ms] = some [step] ∧
      step.session.nowMs = s.nowMs + ms) ∧
    (cycle.overruns = false → cycle.totalMs = light.periodMs) := by
  intro cycle
  obtain ⟨hnow, hplays⟩ := simulate_playsOn hscale hread hstart
  refine ⟨fun step hstep => ?_, fun ms => ⟨_, rfl, by rw [← hnow]⟩, fun hfits => ?_⟩
  · have hpos := light.cycleNs_pos s.nowMs
    have hall : ∀ step ∈ first :: log,
        (Course.ofMs s.nowMs cycle.segments).PlaysOn target step.session :=
      List.forall_mem_cons.mpr ⟨hplays, playsOn_run hpos hplays hrun huntouched⟩
    obtain ⟨k, hfind, hdue, hnext⟩ := hall step hstep
    obtain ⟨elapsed, helapsed, hcycles, hshown⟩ :=
      Course.shownAt_of_dueNs (light.cycle_ne_nil .extend) hdue hnext
    refine ⟨elapsed, k % cycle.segments.length, _, helapsed, hfind, ?_, fun i => ?_⟩
    · rw [Course.stateAfter_status]
      exact congrArg (Status.mk true _) hcycles
    · exact ⟨fun hi => hi.unique hshown, fun hi => hi ▸ hshown⟩
  · have hle := light.periodMs_le_cycle_totalMs .extend
    have hfits' : cycle.totalMs ≤ cycle.periodMs := by simpa [Cycle.overruns] using hfits
    exact Nat.le_antisymm hfits' hle

/-- A flash every four seconds, looked at in its second cycle. -/
theorem simulate_shows_light_flash :
    ∃ first last p, (ofScale (Binary64.ofNat 1)).step? (.simulate "north" "Fl W 4s") = some first ∧
      first.session.run? [.advance 4300] = some [last] ∧
      last.session.scheduler.targets.find? "north" = some p ∧ p.status = ⟨true, 0, 1⟩ := by
  let flash : Characteristic := ⟨.flashing, .single, .white, none, Binary64.ofNat 4, false⟩
  have hread : Characteristic.read "Fl W 4s" = .ok flash := by decide +kernel
  obtain ⟨first, hfirst⟩ := Option.isSome_iff_exists.mp
    (by decide +kernel :
      ((ofScale (Binary64.ofNat 1)).step? (.simulate "north" "Fl W 4s")).isSome)
  have hscale := scale_ofScale (Binary64.ofNat 1)
  have huntouched : ∀ command ∈ [Command.advance 4300], command.ends (.target "north") = false :=
    List.forall_mem_singleton.mpr rfl
  obtain ⟨last, hlast, hnow⟩ :=
    (@simulate_shows_light _ _ _ _ _ [] [] hscale hread hfirst rfl (by simp)).2.1 4300
  obtain ⟨elapsed, index, p, helapsed, hfind, hstatus, hindex⟩ :=
    (simulate_shows_light hscale hread hfirst hlast huntouched).1 last
      (List.mem_cons_of_mem _ List.mem_cons_self)
  obtain rfl : elapsed = 4300 := by
    rw [hnow] at helapsed
    exact (Nat.add_left_cancel helapsed).symm
  have hfirstShown :
      ShownAt (flash.cycle .extend).segments (4300 % (flash.cycle .extend).totalMs) 0 := by
    unfold ShownAt
    decide +kernel
  have hcount : 4300 / (flash.cycle .extend).totalMs = 1 := by decide +kernel
  rw [← (hindex 0).1 hfirstShown, hcount] at hstatus
  exact ⟨first, last, p, hfirst, hlast, hfind, hstatus⟩

end Session

end ChartLight

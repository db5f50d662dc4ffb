import ChartLight.Proofs.Flashes
import ChartLight.Proofs.Milliseconds
import ChartLight.Proofs.Occulting
import ChartLight.Proofs.Validity

/-! What becomes of a light that keeps the rules when it is printed and read back. It comes back as it
was, unless it is an occulting light with a number of flashes: what is read then has eclipses. The
cycle stays the same on all other lights, and on such a light only where the one eclipse read back is as
long as the quarter of the period that was dark before. -/

namespace ChartLight

open Number

section Reread

variable {rhythm : Rhythm} {group : Group}

/-- The group that the printed form of a group says on a rhythm. -/
def Group.reread (rhythm : Rhythm) : Group → Group
  | .single => .single
  | .letter c => .letter c
  | group => .ofElements rhythm group.values

theorem Group.toText_ofElements (rhythm : Rhythm) (values : List Nat) :
    (ofElements rhythm values).toText =
      "(" ++ String.intercalate "+" (values.map toString) ++ ")" := by
  unfold ofElements
  split <;> rfl

theorem Group.toText_reread (rhythm : Rhythm) (group : Group) :
    (group.reread rhythm).toText = group.toText := by
  cases group with
  | single => rfl
  | letter c => rfl
  | count n => exact Group.toText_ofElements rhythm [n]
  | composite parts => exact Group.toText_ofElements rhythm parts
  | eclipses seconds => exact Group.toText_ofElements rhythm seconds

theorem Group.Suits.reread (h : group.Suits rhythm) : group.reread rhythm = group := by
  cases h with
  | single hrhythm => rfl
  | letter hrhythm hc => rfl
  | @elements values hrhythm hne hle =>
    have hvalues := Group.values_ofElements rhythm values
    cases hgroup : Group.ofElements rhythm values with
    | single => rfl
    | letter c => rfl
    | count n | composite parts | eclipses seconds =>
      rw [hgroup] at hvalues
      simp only [Group.reread, hvalues, hgroup]

theorem Group.Flashes.reread_suits (h : group.Flashes) :
    (group.reread .occulting).Suits .occulting := by
  cases h with
  | @count n hle =>
    exact Group.Suits.elements (by decide) (List.cons_ne_nil _ _) (List.forall_mem_singleton.2 hle)
  | @composite parts hlength hle =>
    exact Group.Suits.elements (by decide) (List.ne_nil_of_length_pos (Nat.zero_lt_of_lt hlength)) hle

end Reread

namespace Characteristic

variable {light : Characteristic}

/-- The light that the printed form of a light says. -/
def reread (light : Characteristic) : Characteristic :=
  { light with group := light.group.reread light.rhythm }

theorem toText_reread (light : Characteristic) : light.reread.toText = light.toText := by
  rw [toText, reread, Group.toText_reread]
  rfl

theorem readable_reread (h : light.fault? = none) : light.reread.Readable := by
  obtain ⟨hperiod, hsuits | ⟨hrhythm, hflashes⟩⟩ := (fault?_eq_none_iff light).1 h
  · refine ⟨hperiod, ?_⟩
    rw [reread, hsuits.reread]
    exact hsuits
  · refine ⟨hperiod, ?_⟩
    rw [reread, hrhythm]
    exact hflashes.reread_suits

theorem read_toText (h : light.fault? = none) : read light.toText = .ok light.reread := by
  rw [← toText_reread]
  exact readWith_toText (readable_reread h) inHour_defaultPeriod

section Count

/-- The light of a pattern is that of its rhythm and that of its tail. -/
theorem totalMs_lit_pattern (light : Characteristic) :
    totalMs (light.pattern.filter (·.lit)) =
      totalMs (light.rhythmPattern.filter (·.lit)) + totalMs (light.tailPattern.filter (·.lit)) := by
  rw [pattern, List.filter_comm, totalMs_filter, List.filter_append, totalMs_append]

theorem rhythmPattern_occulting_count {n : Nat} (hrhythm : light.rhythm = .occulting)
    (hgroup : light.group = .count n) :
    light.rhythmPattern =
      [light.lamp.on (light.periodMs - light.periodMs / 4), light.lamp.off (light.periodMs / 4)] := by
  rw [rhythmPattern_occulting hrhythm (by simp [hgroup]), hgroup]
  rfl

theorem rhythmPattern_occulting_eclipse {n : Nat} (hrhythm : light.rhythm = .occulting)
    (hgroup : light.group = .eclipses [n]) :
    light.rhythmPattern =
      [light.lamp.on (light.periodMs - n * 1000), light.lamp.off (n * 1000)] := by
  rw [rhythmPattern_occulting hrhythm (by simp [hgroup]), hgroup, occulting_eclipses]
  simp [Lamp.eclipses, total, Nat.mod_one]

/-- A number of flashes is read as the one eclipse of so many seconds. -/
theorem cycle_reread_count_iff {n : Nat} (hrhythm : light.rhythm = .occulting)
    (hgroup : light.group = .count n) :
    (∀ overrun, light.reread.cycle overrun = light.cycle overrun) ↔
      light.periodMs / 4 = n * 1000 := by
  have hagain : light.reread.group = .eclipses [n] := by
    rw [reread, hrhythm, hgroup]
    rfl
  have hperiod : light.reread.periodMs = light.periodMs := rfl
  have hpattern := rhythmPattern_occulting_count hrhythm hgroup
  have hpattern' := @rhythmPattern_occulting_eclipse light.reread n hrhythm hagain
  rw [hperiod] at hpattern'
  constructor
  · intro hcycle
    -- both patterns are whole cycles, and both last the same time without light
    have hsame := congrArg Cycle.segments (hcycle .extend)
    rw [cycle_extend_occulting hrhythm (by simp [hgroup]),
      @cycle_extend_occulting light.reread hrhythm (by simp [hagain])] at hsame
    have hlit := congrArg (fun segments => totalMs (segments.filter (·.lit))) hsame
    have htail : light.reread.tailPattern = light.tailPattern := rfl
    simp only [totalMs_lit_pattern, htail, hpattern, hpattern'] at hlit
    simp only [List.filter_cons, List.filter_nil, Lamp.lit_on, Lamp.lit_off, if_true,
      Bool.false_eq_true, if_false, totalMs_cons, totalMs_nil, Lamp.durationMs_on] at hlit
    have hpos := light.periodMs_pos
    omega
  · intro hquarter overrun
    refine cycle_congr (a := light.reread) (b := light) rfl rfl ?_ overrun
    rw [pattern, pattern, hpattern, hpattern', ← hquarter]
    rfl

end Count

section Composite

/-- Two parts have a pause of one second and a half between them. -/
theorem pause_mem_composite (lamp : Lamp) {parts : List Nat} (hlength : 1 < parts.length) :
    lamp.off 1500 ∈ lamp.composite parts := by
  obtain ⟨a, b, rest, rfl⟩ := exists_cons_cons_of_length hlength
  rw [Lamp.composite, List.map_cons, List.map_cons, List.intercalate_cons_cons]
  simp

theorem pause_not_mem_eclipses {lamp : Lamp} {share lastShare : Nat} {es : List Nat} :
    lamp.off 1500 ∉ lamp.eclipses share lastShare es := by
  intro h
  rcases mem_eclipses h with hlit | hlit | ⟨e, -, hdark⟩
  · cases congrArg Segment.lit hlit
  · cases congrArg Segment.lit hlit
  · have hms : 1500 = e * 1000 := congrArg Segment.durationMs hdark
    omega

theorem cycle_reread_composite {parts : List Nat} (hlength : 1 < parts.length)
    (hrhythm : light.rhythm = .occulting) (hgroup : light.group = .composite parts) :
    light.reread.cycle .extend ≠ light.cycle .extend := by
  obtain ⟨e, es, rfl⟩ := List.exists_cons_of_length_pos (Nat.lt_trans Nat.zero_lt_one hlength)
  have hagain : light.reread.group = .eclipses (e :: es) := by
    rw [reread, hrhythm, hgroup]
    rfl
  have hcomposite : ∀ parts, light.reread.group ≠ .composite parts := by simp [hagain]
  have hlamp : light.reread.lamp = light.lamp := rfl
  intro hcycle
  have hpattern : light.rhythmPattern = light.lamp.composite (e :: es) := by
    rw [rhythmPattern, hgroup]
  -- the pause between two parts is no whole number of seconds, as an eclipse is
  obtain ⟨fill, hfill⟩ := light.cycle_extend_segments
  have hpause : light.lamp.off 1500 ∈ (light.cycle .extend).segments := by
    rw [hfill, pattern, hpattern]
    refine List.mem_append_left _ (List.mem_filter.2 ⟨?_, by simp⟩)
    exact List.mem_append_left _ (pause_mem_composite _ hlength)
  rw [← hcycle, @cycle_extend_occulting light.reread hrhythm hcomposite, pattern,
    @rhythmPattern_occulting light.reread hrhythm hcomposite, hagain, hlamp,
    occulting_eclipses, List.mem_filter, List.mem_append] at hpause
  rcases hpause.1 with hmem | htail
  · exact pause_not_mem_eclipses hmem
  · rw [tailPattern] at htail
    split_ifs at htail
    · cases congrArg Segment.lit (List.mem_singleton.1 htail)
    · cases htail

end Composite

/-- The printed form of a light that keeps the rules can be read, and what is read has the cycle of
the light. Only of occulting lights with flashes is this not so: never with several numbers, and with
one number just when it is the quarter of the period in seconds. -/
theorem read_toText_cycle_iff (h : light.fault? = none) :
    ∃ again, read light.toText = .ok again ∧
      ((∀ overrun, again.cycle overrun = light.cycle overrun) ↔
        (light.rhythm = .occulting → (∀ parts, light.group ≠ .composite parts) ∧
          ∀ n, light.group = .count n → light.periodMs / 4 = n * 1000)) := by
  refine ⟨light.reread, read_toText h, ?_⟩
  obtain ⟨-, hsuits | ⟨hrhythm, hflashes⟩⟩ := (fault?_eq_none_iff light).1 h
  · have hsame : light.reread = light := by rw [reread, hsuits.reread]
    refine iff_of_true (fun overrun => by rw [hsame]) fun hrhythm => ?_
    rcases (hrhythm ▸ hsuits).of_occulting with hgroup | ⟨seconds, -, hgroup⟩
    · simp [hgroup]
    · simp [hgroup]
  · cases hgroup : light.group with
    | count n =>
      rw [cycle_reread_count_iff hrhythm hgroup]
      simp [hrhythm]
    | composite parts =>
      rw [hgroup] at hflashes
      cases hflashes with
      | composite hlength hle =>
        refine iff_of_false (fun hcycle => ?_) (by simp [hrhythm])
        exact cycle_reread_composite hlength hrhythm hgroup (hcycle .extend)
    | _ => rw [hgroup] at hflashes; cases hflashes

/-- One flash in four seconds is one second of darkness either way. -/
theorem read_toText_cycle_one :
    ∃ again, read "Oc(1) W 4s" = .ok again ∧ again.group = .eclipses [1] ∧
      ∀ overrun, again.cycle overrun =
        cycle ⟨.occulting, .count 1, .white, none, Binary64.ofNat 4, false⟩ overrun := by
  have hvalid : fault? ⟨.occulting, .count 1, .white, none, Binary64.ofNat 4, false⟩ = none := by
    refine (fault?_eq_none_iff _).2 ⟨?_, .inr ⟨rfl, .count (by decide)⟩⟩
    dsimp only
    exact inHour_ofNat (by decide) (by decide)
  have htext : toText ⟨.occulting, .count 1, .white, none, Binary64.ofNat 4, false⟩ =
      "Oc(1) W 4s" := by
    rw [toText, secondsText_ofNat (by decide)]
    decide
  have hperiod : periodMs ⟨.occulting, .count 1, .white, none, Binary64.ofNat 4, false⟩ = 4 * 1000 :=
    periodMs_of_seconds (by decide) (by decide) (by dsimp only)
  obtain ⟨again, hread, hcycle⟩ := read_toText_cycle_iff hvalid
  have hagain := read_toText hvalid
  rw [hread, Except.ok.injEq] at hagain
  rw [htext] at hread
  refine ⟨again, hread, hagain ▸ rfl, hcycle.2 fun _ => ⟨by simp, ?_⟩⟩
  rintro n hn
  cases hn
  rw [hperiod]

/-- Two flashes in ten seconds are a quarter of the period dark; read back they are one eclipse of two
seconds. -/
theorem not_forall_read_toText_cycle :
    ¬ ∀ light : Characteristic, light.fault? = none →
      ∃ again, read light.toText = .ok again ∧
        ∀ overrun, again.cycle overrun = light.cycle overrun := by
  intro hall
  let light : Characteristic := ⟨.occulting, .count 2, .white, none, Binary64.ofNat 10, false⟩
  have hvalid : light.fault? = none := by
    refine (fault?_eq_none_iff _).2 ⟨?_, .inr ⟨rfl, .count (by decide)⟩⟩
    dsimp only [light]
    exact inHour_ofNat (by decide) (by decide)
  have hperiod : light.periodMs = 10 * 1000 :=
    periodMs_of_seconds (by decide) (by decide) (by dsimp only [light])
  obtain ⟨again, hread, hcycle⟩ := hall light hvalid
  rw [read_toText hvalid, Except.ok.injEq] at hread
  rw [← hread, cycle_reread_count_iff rfl rfl, hperiod] at hcycle
  omega

end Characteristic

end ChartLight

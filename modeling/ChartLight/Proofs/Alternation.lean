import ChartLight.Proofs.Flashes
import ChartLight.Proofs.Clipping
import ChartLight.Proofs.Lengths
import ChartLight.Proofs.Milliseconds

/-! The colours that a cycle shows. Everything is in the main colour, light and darkness alike, but for
the second half of a light that alternates; and that half is there whole whatever becomes of the rest of
the cycle. So a second colour is of no account to any other light. -/

namespace ChartLight

theorem color_of_mem_occulting {lamp : Lamp} {group : Group} {periodMs : Nat} {s : Segment}
    (h : s ∈ lamp.occulting group periodMs) : s.color = lamp.color := by
  unfold Lamp.occulting at h
  split at h
  · rcases mem_eclipses h with rfl | rfl | ⟨e, -, rfl⟩ <;> simp
  · simp only [List.mem_cons, List.not_mem_nil, or_false] at h
    rcases h with rfl | rfl <;> simp

namespace Characteristic

/-- A light whose second half is in a colour of its own. -/
def AlternatesTo (light : Characteristic) (color : Color) : Prop :=
  light.rhythm = .alternating ∧ light.altColor = some color ∧
    ∀ parts, light.group ≠ .composite parts

variable {light : Characteristic} {color : Color}

theorem color_of_mem_rhythmPattern {s : Segment} (h : s ∈ light.rhythmPattern) :
    s.color = light.color ∨ s.lit = true ∧ light.AlternatesTo s.color := by
  unfold rhythmPattern at h
  split at h
  · rcases mem_composite h with rfl | rfl | rfl <;> exact Or.inl rfl
  · next hgroup =>
    dsimp only at h
    split at h
    · exact Or.inl (congrArg Segment.color (List.mem_singleton.1 h))
    · rcases mem_flashes h with rfl | rfl <;> exact Or.inl rfl
    · rcases mem_flashes h with rfl | rfl <;> exact Or.inl rfl
    · simp only [List.mem_cons, List.not_mem_nil, or_false] at h
      rcases h with rfl | rfl <;> exact Or.inl rfl
    · exact Or.inl (color_of_mem_occulting h)
    · rcases mem_morse h with rfl | rfl | rfl <;> exact Or.inl rfl
    · next hrhythm =>
      split at h
      · next c halt =>
        simp only [List.mem_cons, List.not_mem_nil, or_false] at h
        rcases h with rfl | rfl
        · exact Or.inl rfl
        · exact Or.inr ⟨rfl, hrhythm, halt, hgroup⟩
      · exact Or.inl (congrArg Segment.color (List.mem_singleton.1 h))
    · split at h
      · rcases mem_quickFlashes h with rfl | rfl <;> exact Or.inl rfl
      · cases h

theorem color_of_mem_pattern {s : Segment} (h : s ∈ light.pattern) :
    s.color = light.color ∨ s.lit = true ∧ light.AlternatesTo s.color := by
  rcases mem_pattern h with hrhythm | rfl
  · exact color_of_mem_rhythmPattern hrhythm
  · exact Or.inl rfl

/-- Neither filling a cycle nor clipping it brings in another colour. -/
theorem color_of_mem_cycle {overrun : Overrun} {s : Segment}
    (h : s ∈ (light.cycle overrun).segments) :
    s.color = light.color ∨ s.lit = true ∧ light.AlternatesTo s.color := by
  rcases mem_cycle h with hpattern | hclip | ⟨ms, -, rfl⟩
  · exact color_of_mem_pattern hpattern
  · obtain ⟨t, ht, hlit, hcolor⟩ := exists_mem_of_mem_clip hclip
    rw [hlit, hcolor]
    exact color_of_mem_pattern ht
  · exact Or.inl rfl

section Alternating

/-- The first half of an alternating light; of one millisecond there is none. -/
def firstHalf (light : Characteristic) : List Segment :=
  [light.lamp.on (light.periodMs / 2)].filter (0 < ·.durationMs)

theorem totalMs_firstHalf (light : Characteristic) : totalMs light.firstHalf = light.periodMs / 2 := by
  rw [firstHalf, totalMs_filter, totalMs_cons, totalMs_nil, Lamp.durationMs_on, Nat.add_zero]

theorem pattern_alternating (h : light.AlternatesTo color) :
    light.pattern =
      light.firstHalf ++ ⟨light.periodMs - light.periodMs / 2, true, color⟩ :: light.tailPattern := by
  obtain ⟨hrhythm, halt, hgroup⟩ := h
  have htail : light.tailPattern.filter (0 < ·.durationMs) = light.tailPattern := by
    unfold tailPattern
    split_ifs <;> rfl
  have hhalf : decide (0 < light.periodMs - light.periodMs / 2) = true := by
    have hperiod := light.periodMs_pos
    rw [decide_eq_true_iff]
    omega
  have hsplit : light.rhythmPattern ++ light.tailPattern =
      [light.lamp.on (light.periodMs / 2)] ++
        ⟨light.periodMs - light.periodMs / 2, true, color⟩ :: light.tailPattern := by
    rw [rhythmPattern_alternating hgroup hrhythm halt]
    rfl
  rw [pattern, hsplit, List.filter_append, ← firstHalf, List.filter_cons, if_pos hhalf, htail]

/-- The halves fill the period, so what a long flash adds is all there is to clip. -/
theorem cycle_alternating (h : light.AlternatesTo color) (overrun : Overrun) :
    (light.cycle overrun).segments =
      light.firstHalf ++ ⟨light.periodMs - light.periodMs / 2, true, color⟩ ::
        (if overrun = .extend then light.tailPattern else []) := by
  have hpattern := pattern_alternating h
  have hperiod := light.periodMs_pos
  have hfull : ¬totalMs light.pattern < light.periodMs := by
    rw [hpattern, totalMs_append, totalMs_firstHalf, totalMs_cons]
    dsimp only
    omega
  simp only [cycle, if_neg hfull]
  cases overrun with
  | extend => exact hpattern
  | truncate =>
    have hfirst : ∀ s ∈ light.firstHalf, 0 < s.durationMs := by
      intro s hs
      simpa using (List.mem_filter.1 hs).2
    dsimp only
    rw [hpattern, clip_append hfirst (by rw [totalMs_firstHalf]; omega), totalMs_firstHalf, clip,
      if_neg (by omega), if_neg (Nat.lt_irrefl _), Nat.sub_self, clip_zero]
    rfl

end Alternating

/-- No other light has a use for a second colour. -/
theorem rhythmPattern_altColor
    (h : light.rhythm ≠ .alternating ∨ ∃ parts, light.group = .composite parts) (other : Option Color) :
    ({ light with altColor := other } : Characteristic).rhythmPattern = light.rhythmPattern := by
  rcases h with hrhythm | ⟨parts, hgroup⟩
  · obtain ⟨rhythm, group, color, altColor, period, tail⟩ := light
    cases rhythm with
    | alternating => exact absurd rfl hrhythm
    | _ => rfl
  · rw [rhythmPattern_composite hgroup]
    exact rhythmPattern_composite hgroup

theorem cycle_altColor (h : light.rhythm ≠ .alternating ∨ ∃ parts, light.group = .composite parts)
    (other : Option Color) (overrun : Overrun) :
    ({ light with altColor := other } : Characteristic).cycle overrun = light.cycle overrun := by
  have hpattern : ({ light with altColor := other } : Characteristic).pattern = light.pattern := by
    rw [pattern, pattern, rhythmPattern_altColor h]
    rfl
  refine cycle_congr ?_ ?_ hpattern overrun
  · rfl
  · rfl

/-- Two second colours on a light that alternates give two cycles. -/
theorem cycle_ne_of_alternatesTo (h : light.AlternatesTo color) {other : Color} (hne : other ≠ color)
    (overrun : Overrun) :
    ({ light with altColor := some other } : Characteristic).cycle overrun ≠ light.cycle overrun := by
  intro hsame
  have hother : ({ light with altColor := some other } : Characteristic).AlternatesTo other :=
    ⟨h.1, rfl, h.2.2⟩
  have hsegments := congrArg Cycle.segments hsame
  rw [cycle_alternating hother, cycle_alternating h] at hsegments
  have hcons := List.append_cancel_left hsegments
  exact hne (congrArg Segment.color (List.cons.inj hcons).1)

/-- The colours of the cycle of any light at all, with either way of dealing with an overrun. -/
theorem cycle_shows_colors (light : Characteristic) (overrun : Overrun) :
    let segments := (light.cycle overrun).segments
    let withAltColor (other : Option Color) : Characteristic := { light with altColor := other }
    (∀ s ∈ segments, s.lit = false → s.color = light.color) ∧
    ((∀ color, ¬light.AlternatesTo color) → ∀ s ∈ segments, s.color = light.color) ∧
    (∀ color, light.AlternatesTo color → ∃ before after,
      segments = before ++ ⟨light.periodMs - light.periodMs / 2, true, color⟩ :: after ∧
        totalMs before = light.periodMs / 2 ∧ ∀ s ∈ before ++ after, s.color = light.color) ∧
    (∀ color, light.altColor = some color → ∀ other,
      (withAltColor other).cycle overrun ≠ light.cycle overrun → light.AlternatesTo color) ∧
    ∀ color, light.AlternatesTo color → ∀ other, other ≠ color →
      (withAltColor (some other)).cycle overrun ≠ light.cycle overrun := by
  intro segments withAltColor
  refine ⟨fun s hs hdark => ?_, fun hnone s hs => ?_, fun color h => ?_,
    fun color halt other hchanged => ?_, fun color h other hne => cycle_ne_of_alternatesTo h hne overrun⟩
  · exact (color_of_mem_cycle hs).resolve_right (by simp [hdark])
  · exact (color_of_mem_cycle hs).resolve_right fun h => hnone s.color h.2
  · refine ⟨light.firstHalf, _, cycle_alternating h overrun, light.totalMs_firstHalf, ?_⟩
    intro s hs
    rcases List.mem_append.1 hs with hfirst | htail
    · rw [List.mem_singleton.1 (List.mem_of_mem_filter hfirst)]
      rfl
    · split_ifs at htail
      · rw [mem_tailPattern htail]
        rfl
      · cases htail
  · by_contra hno
    refine hchanged (cycle_altColor ?_ other overrun)
    by_contra hcase
    push Not at hcase
    exact hno ⟨hcase.1, halt, hcase.2⟩

/-- White and red for five seconds each fill ten seconds. Clipped to them, the light shows nothing of its
long flash. -/
theorem cycle_shows_colors_red :
    let light : Characteristic :=
      { ofRhythm .alternating with altColor := some .red, longFlashTail := true }
    light.AlternatesTo .red ∧ ∃ before after,
      (light.cycle .truncate).segments = before ++ ⟨5000, true, .red⟩ :: after ∧
        totalMs before = 5000 ∧ ∀ s ∈ before ++ after, s.color = .white := by
  intro light
  have hred : light.AlternatesTo .red := ⟨rfl, rfl, by simp [light, ofRhythm]⟩
  have hperiod : light.periodMs = 10000 := periodMs_of_default (by simp only [light, ofRhythm_period])
  obtain ⟨-, -, hhalves, -⟩ := cycle_shows_colors light .truncate
  have hshown := hhalves .red hred
  rw [hperiod] at hshown
  exact ⟨hred, hshown⟩

end Characteristic

end ChartLight

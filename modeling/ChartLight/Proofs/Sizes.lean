import ChartLight.Proofs.Gaps
import ChartLight.Proofs.Words

/-! How large a cycle can be, in segments and in milliseconds. Only a list of numbers can make it larger
than a constant, and then no more than in proportion to the list. Of all other lights the quick ones have
the most segments, and where they have as many as they can there is no darkness left to fill in. -/

namespace ChartLight

open Number

namespace Lamp

variable (lamp : Lamp)

theorem length_flashes (count flashMs gapMs : Nat) :
    (lamp.flashes count flashMs gapMs).length = 2 * count - 1 := by
  rw [flashes, List.length_intersperse, List.length_replicate]

theorem length_part (count : Nat) : (lamp.part count).length = 2 * count := by
  rw [part, List.length_flatten, List.map_replicate, List.sum_replicate]
  exact Nat.mul_comm count 2

theorem length_quickFlashes (count rateMs : Nat) :
    (lamp.quickFlashes count rateMs).length = 2 * count := by
  rw [quickFlashes, List.length_flatten, List.map_replicate, List.sum_replicate]
  exact Nat.mul_comm count 2

/-- A part has 99 flashes at most, each with its darkness, and one pause before the next. -/
theorem length_composite_lt {parts : List Nat} (hne : parts ≠ []) :
    (lamp.composite parts).length < 199 * parts.length := by
  have hpart (n : Nat) : (lamp.part (min n Group.maxElement)).length ≤ 2 * 99 := by
    rw [length_part]
    exact Nat.mul_le_mul_left 2 (Nat.min_le_right n Group.maxElement)
  induction parts with
  | nil => exact absurd rfl hne
  | cons n parts ih =>
    have hn := hpart n
    cases parts with
    | nil =>
      rw [composite, List.map_singleton, List.intercalate_singleton, List.length_singleton]
      omega
    | cons m parts =>
      have hrest := ih (List.cons_ne_nil m parts)
      rw [List.length_cons] at hrest ⊢
      rw [composite_cons_cons, List.length_append, List.length_cons, List.length_cons]
      omega

theorem length_eclipses (share lastShare : Nat) (seconds : List Nat) :
    (lamp.eclipses share lastShare seconds).length = 2 * seconds.length := by
  fun_induction eclipses lamp share lastShare seconds with
  | case1 => rfl
  | case2 e => rfl
  | case3 e es hne ih =>
    simp only [List.length_cons, ih]
    omega

theorem length_morse (symbols : List Morse.Symbol) :
    (lamp.morse symbols).length = 2 * symbols.length - 1 := by
  rw [morse, List.length_intersperse, List.length_map]

end Lamp

theorem length_clip_le (limit : Nat) (segments : List Segment) :
    (clip limit segments).length ≤ segments.length := by
  induction segments generalizing limit with
  | nil => exact Nat.le_refl 0
  | cons s segments ih =>
    have hrest := ih (limit - s.durationMs)
    unfold clip
    split_ifs
    all_goals
      simp only [List.length_cons, List.length_nil]
      omega

namespace Characteristic

variable {light : Characteristic}

/-- A light without a list of numbers has few segments, or they are those of a quick light, of which
none is shorter than an eighth of a second. -/
theorem length_rhythmPattern_cases (hcomposite : ∀ parts, light.group ≠ .composite parts)
    (heclipses : light.rhythm = .occulting → ∀ e es, light.group ≠ .eclipses (e :: es)) :
    light.rhythmPattern.length ≤ 200 ∨
      light.rhythmPattern.length * 125 ≤ totalMs light.rhythmPattern := by
  have hcount := flashCount?_getD_le light.group
  by_cases hquick : ∃ rate, light.rhythm.quickRate? = some rate
  · obtain ⟨rate, hrate⟩ := hquick
    have hmul := Nat.mul_le_mul_left (light.quickCount rate) (le_quickRate? hrate)
    rw [rhythmPattern_quick hcomposite hrate, Lamp.length_quickFlashes, Lamp.totalMs_quickFlashes]
    omega
  · left
    unfold rhythmPattern
    split
    · next parts hparts => exact absurd hparts (hcomposite parts)
    · dsimp only
      split
      · simp
      · rw [Lamp.length_flashes]
        omega
      · rw [Lamp.length_flashes]
        omega
      · simp
      · next hrhythm =>
        unfold Lamp.occulting
        split
        · next e es hgroup => exact absurd hgroup (heclipses hrhythm e es)
        · simp
      · rw [Lamp.length_morse]
        cases light.group.letter? with
        | none => decide
        | some c =>
          have hsymbols := Morse.length_symbols_le c
          simp only [Option.map_some, Option.getD_some]
          omega
      · split <;> simp
      · split
        · next rate hrate => exact absurd ⟨rate, hrate⟩ hquick
        · decide

/-- Eclipses make two segments each. With the light before them they last a whole period at least. -/
theorem length_rhythmPattern_eclipses {seconds : List Nat} (hrhythm : light.rhythm = .occulting)
    (hgroup : light.group = .eclipses seconds) (hne : seconds ≠ []) :
    light.rhythmPattern.length = 2 * seconds.length ∧ light.periodMs ≤ totalMs light.rhythmPattern := by
  rw [rhythmPattern_occulting hrhythm (by simp [hgroup])]
  refine ⟨?_, periodMs_le_totalMs_occulting light.lamp light.group light.periodMs⟩
  obtain ⟨e, es, rfl⟩ := List.exists_cons_of_ne_nil hne
  rw [hgroup]
  exact light.lamp.length_eclipses _ _ _

/-- An empty list of numbers counts for nothing. -/
theorem rhythmPattern_bounded (hcomposite : ∀ parts, light.group = .composite parts → parts = [])
    (heclipses : ∀ seconds, light.rhythm = .occulting → light.group = .eclipses seconds → seconds = []) :
    totalMs light.rhythmPattern ≤ 3600000 ∧
      (light.rhythmPattern.length ≤ 200 ∨
        light.rhythmPattern.length * 125 ≤ totalMs light.rhythmPattern) := by
  by_cases hnil : light.group = .composite []
  · have hrhythm : light.rhythmPattern = [] := rhythmPattern_composite hnil
    rw [hrhythm, totalMs_nil, List.length_nil]
    decide
  · have hno : ∀ parts, light.group ≠ .composite parts :=
      fun parts hparts => hnil (hcomposite parts hparts ▸ hparts)
    have hnone : light.rhythm = .occulting → ∀ e es, light.group ≠ .eclipses (e :: es) :=
      fun hrhythm e es hgroup => by cases heclipses _ hrhythm hgroup
    exact ⟨totalMs_rhythmPattern_le hno hnone, length_rhythmPattern_cases hno hnone⟩

theorem length_pattern_le (light : Characteristic) :
    light.pattern.length ≤ light.rhythmPattern.length + 1 := by
  have htail : light.tailPattern.length ≤ 1 := by
    unfold tailPattern
    split_ifs <;> simp
  have hfilter := List.length_filter_le (0 < ·.durationMs) (light.rhythmPattern ++ light.tailPattern)
  rw [List.length_append] at hfilter
  rw [pattern]
  omega

/-- A pattern that is too short for its period gets one segment more. -/
theorem length_cycle_le (light : Characteristic) (overrun : Overrun) :
    (light.cycle overrun).segments.length ≤ light.pattern.length +
      if totalMs light.pattern < light.periodMs then 1 else 0 := by
  simp only [cycle]
  split_ifs
  · rw [List.length_append, List.length_singleton]
  · cases overrun with
    | extend => exact Nat.le_refl _
    | truncate => exact length_clip_le _ _

/-- No cycle is larger than its group asks for. A composite group makes up to 199 segments for each of its
parts, eclipses two for each of theirs, and either one more behind them; all other cycles have a constant
bound, in segments and in time. -/
theorem cycle_bounded (light : Characteristic) (overrun : Overrun) :
    let cycle := light.cycle overrun
    (∀ parts, light.group = .composite parts → parts ≠ [] →
      cycle.segments.length ≤ 199 * parts.length + 1 ∧
      cycle.totalMs ≤
        max light.periodMs (99000 * parts.length + 1500 * (parts.length - 1)) + 2000) ∧
    (∀ seconds, light.rhythm = .occulting → light.group = .eclipses seconds → seconds ≠ [] →
      cycle.segments.length ≤ 2 * seconds.length + 1) ∧
    ((∀ parts, light.group = .composite parts → parts = []) →
      (∀ seconds, light.rhythm = .occulting → light.group = .eclipses seconds → seconds = []) →
      cycle.segments.length ≤ 28801 ∧ cycle.totalMs ≤ 3602000) := by
  intro cycle
  have hperiod := light.periodMs_le
  have htail := light.totalMs_tailPattern_le
  have hsum := light.totalMs_pattern
  have hlength := light.length_pattern_le
  have hfill : cycle.segments.length ≤ _ := light.length_cycle_le overrun
  have htotal : cycle.totalMs ≤ _ := light.cycle_totalMs_le overrun
  refine ⟨fun parts hgroup hne => ?_, fun seconds hrhythm hgroup hne => ?_,
    fun hcomposite heclipses => ?_⟩
  · have hparts := light.lamp.length_composite_lt hne
    have hlong := light.lamp.totalMs_composite_le parts
    rw [← rhythmPattern_composite hgroup] at hparts hlong
    split_ifs at hfill <;> omega
  · obtain ⟨heclipses, hlong⟩ := length_rhythmPattern_eclipses hrhythm hgroup hne
    -- a whole period, with or without a long flash behind it, leaves nothing to fill in
    rw [if_neg (by omega)] at hfill
    omega
  · obtain ⟨hshort, hsmall⟩ := rhythmPattern_bounded hcomposite heclipses
    -- 28800 segments of a quick light take the longest period there is, and again nothing is filled in
    split_ifs at hfill <;> omega

/-- A part of the greatest number of 32 bits has 99 flashes. With a long flash and with darkness behind
that, the cycle has as many segments as it may. -/
theorem cycle_bounded_capped :
    let light : Characteristic :=
      { ofRhythm .flashing with
        group := .composite [4294967295], period := Binary64.ofNat 3600, longFlashTail := true }
    let cycle := light.cycle .extend
    cycle.segments.length = 200 ∧ cycle.segments.length ≤ 199 * 1 + 1 ∧
      cycle.totalMs ≤ max light.periodMs (99000 * 1 + 1500 * (1 - 1)) + 2000 := by
  intro light cycle
  obtain ⟨hcomposite, -, -⟩ := cycle_bounded light .extend
  exact ⟨by decide +kernel, hcomposite [4294967295] rfl (by decide)⟩

end Characteristic

end ChartLight

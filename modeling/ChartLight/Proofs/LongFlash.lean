import ChartLight.Proofs.Expressible
import ChartLight.Proofs.Gaps
import ChartLight.Proofs.Totals

/-! The long flash that may follow a rhythm. It comes right behind the segments of the rhythm, with no
darkness of its own: it is a flash by itself behind a composite group or a quick rhythm, which end dark,
and prolongs the last flash of any other. -/

namespace ChartLight

open Number

/-- How long the light shows that goes out last. -/
def lastLitMs (segments : List Segment) : Nat :=
  totalMs ((segments.rdropWhile (!·.lit)).rtakeWhile (·.lit))

section LastLit

theorem Apart.rtakeWhile_lit {segments : List Segment} (h : Apart segments) :
    segments.rtakeWhile (·.lit) = segments.getLast?.toList.filter (·.lit) := by
  rcases List.eq_nil_or_concat segments with rfl | ⟨before, last, rfl⟩
  · rfl
  · rw [List.concat_eq_append] at h ⊢
    rw [List.getLast?_concat, List.rtakeWhile_concat]
    split_ifs with hlast
    · -- what stands before a lit segment is dark
      have hbefore : before.rtakeWhile (·.lit) = [] := by
        refine List.rtakeWhile_eq_nil_iff.2 fun hne hlit => ?_
        have hdark := (apart_append.1 h).2.2 _ (List.getLast?_eq_some_getLast hne) last rfl hlit
        rw [hlast] at hdark
        cases hdark
      simp [hbefore, hlast]
    · simp [hlast]

theorem rdropWhile_dark {fill : List Segment} (h : ∀ s ∈ fill, s.lit = false) (before : List Segment)
    {s : Segment} (hs : s.lit = true) :
    (before ++ s :: fill).rdropWhile (!·.lit) = before ++ [s] := by
  induction fill using List.reverseRecOn with
  | nil => simp [hs]
  | append_singleton fill t ih =>
    have ht : t.lit = false := h t (by simp)
    have hfill : ∀ u ∈ fill, u.lit = false := fun u hu => h u (List.mem_append_left _ hu)
    rw [← List.cons_append, ← List.append_assoc, List.rdropWhile_concat_pos _ _ _ (by simp [ht]),
      ih hfill]

/-- A lit segment before the darkness at the end is seen with the lit one before it, if there is one. -/
theorem lastLitMs_eq {before fill : List Segment} {last s : Segment} (h : Apart before)
    (hlast : before.getLast? = some last) (hs : s.lit = true) (hfill : ∀ t ∈ fill, t.lit = false) :
    lastLitMs (before ++ s :: fill) = (if last.lit then last.durationMs else 0) + s.durationMs := by
  rw [lastLitMs, rdropWhile_dark hfill before hs, List.rtakeWhile_concat_pos _ _ _ hs, totalMs_append,
    h.rtakeWhile_lit, hlast]
  cases hlit : last.lit <;> simp [hlit, totalMs, total]

end LastLit

theorem Morse.symbols_ne_nil {c : Char} (h : c.isUpper = true) : symbols c ≠ [] := by
  obtain ⟨code, hcode⟩ := exists_pattern? h
  rw [symbols, hcode]
  unfold pattern? at hcode
  split at hcode <;> cases hcode <;> decide

namespace Characteristic

variable {light : Characteristic}

section Flashes

theorem one_le_flashCount?_getD (group : Group) : 1 ≤ group.flashCount?.getD 1 := by
  cases h : group.flashCount? with
  | none => exact Nat.le_refl 1
  | some n => exact Group.one_le_flashCount? h

theorem one_le_quickCount (light : Characteristic) (rate : Nat) : 1 ≤ light.quickCount rate := by
  unfold quickCount
  split
  · next n hn => exact Group.one_le_flashCount? hn
  · exact Nat.le_max_left _ _

/-- The parts of a composite group that keeps the rules have a pause between them. -/
theorem composite_ne_nil (h : light.fault? = none) {parts : List Nat}
    (hgroup : light.group = .composite parts) : light.lamp.composite parts ≠ [] := by
  obtain ⟨-, -, hshape⟩ := (fault?_eq_none_iff_shape light).1 h
  rw [hgroup] at hshape
  have hmorse : light.rhythm ≠ .morse := by
    intro hrhythm
    rw [hrhythm] at hshape
    cases hshape
  have hlength := ((shapeFault?_of_ne_morse hmorse).2.2 parts).1 hshape
  exact List.ne_nil_of_mem (pause_mem_composite light.lamp hlength)

/-- A Morse light that keeps the rules has a letter, and every letter has a mark. -/
theorem symbols_ne_nil (h : light.fault? = none) (hrhythm : light.rhythm = .morse) :
    (light.group.letter?.map Morse.symbols).getD [] ≠ [] := by
  obtain ⟨-, -, hshape⟩ := (fault?_eq_none_iff_shape light).1 h
  rw [hrhythm] at hshape
  cases hgroup : light.group with
  | letter c =>
    rw [hgroup] at hshape
    have hc : c.isUpper = true := by
      by_contra hlower
      simp [shapeFault?, hlower] at hshape
    exact Morse.symbols_ne_nil hc
  | _ => rw [hgroup] at hshape; cases hshape

/-- A light of flashes that keeps the rules has one. -/
theorem ShowsFlashes.ne_nil (h : light.ShowsFlashes) (hvalid : light.fault? = none) :
    light.rhythmPattern ≠ [] := by
  have hflashes (flashMs gapMs : Nat) :
      light.lamp.flashes (light.group.flashCount?.getD 1) flashMs gapMs ≠ [] := by
    refine intersperse_ne_nil _ fun hnil => ?_
    have hcount := one_le_flashCount?_getD light.group
    rw [List.replicate_eq_nil_iff] at hnil
    omega
  by_cases hcomposite : ∃ parts, light.group = .composite parts
  · obtain ⟨parts, hparts⟩ := hcomposite
    rw [rhythmPattern_composite hparts]
    exact composite_ne_nil hvalid hparts
  · rcases h with hdark | hrhythm
    · obtain ⟨rate, hrate⟩ := Option.isSome_iff_exists.1 (hdark.resolve_left hcomposite)
      push Not at hcomposite
      rw [rhythmPattern_quick hcomposite hrate, Lamp.quickFlashes]
      have hcount : light.quickCount rate ≠ 0 := Nat.one_le_iff_ne_zero.1 (light.one_le_quickCount rate)
      intro hnil
      cases List.flatten_eq_nil_iff.1 hnil _ (List.mem_replicate.2 ⟨hcount, rfl⟩)
    · unfold rhythmPattern
      split
      · next parts hparts => exact absurd ⟨parts, hparts⟩ hcomposite
      · rcases hrhythm with hrhythm | hrhythm | hrhythm
        · rw [hrhythm]
          exact hflashes 500 1000
        · rw [hrhythm]
          exact hflashes 2000 2000
        · rw [hrhythm]
          exact intersperse_ne_nil _ (mt List.map_eq_nil_iff.1 (symbols_ne_nil hvalid hrhythm))

end Flashes

/-- The long flash is one by itself just if the flashes before it end dark; the last of other flashes
goes over into it. -/
theorem long_flash_lasts {text : String} {defaultPeriod : Binary64}
    (hread : readWith defaultPeriod text = .ok light) (htail : light.longFlashTail = true)
    (hflashes : light.ShowsFlashes) :
    let segments := (light.cycle .extend).segments
    ∃ last fill, light.rhythmPattern.getLast? = some last ∧
      segments = light.rhythmPattern ++ light.lamp.on 2000 :: fill ∧ (∀ s ∈ fill, s.lit = false) ∧
      (last.lit = false ↔ light.EndsDark) ∧
      lastLitMs segments = (if last.lit then last.durationMs else 0) + 2000 ∧
      (lastLitMs segments = 2000 ↔ light.EndsDark) := by
  intro segments
  have hne := hflashes.ne_nil (readable_of_readWith hread).fault?
  obtain ⟨last, hlast⟩ : ∃ last, light.rhythmPattern.getLast? = some last :=
    ⟨_, List.getLast?_eq_some_getLast hne⟩
  obtain ⟨fill, hcycle⟩ := light.cycle_extend_segments
  have hsegments : segments = light.rhythmPattern ++ light.lamp.on 2000 :: fill.map light.lamp.off := by
    rw [hflashes.pattern_eq, tailPattern, if_pos htail, List.append_assoc] at hcycle
    exact hcycle
  have hfill : ∀ s ∈ fill.map light.lamp.off, s.lit = false := by
    simp [Lamp.off]
  have hend : last.lit = false ↔ light.EndsDark := by
    refine ⟨fun hdark => ?_, fun hend => hend.shut.last _ hlast⟩
    by_contra hopen
    rw [hflashes.lit_of_edge hopen (Or.inr hlast)] at hdark
    cases hdark
  have hlasts : lastLitMs segments = (if last.lit then last.durationMs else 0) + 2000 :=
    hsegments ▸ lastLitMs_eq hflashes.apart hlast rfl hfill
  refine ⟨last, _, hlast, hsegments, hfill, hend, hlasts, ?_⟩
  -- a flash that goes over into the long one adds its time to it
  have hpos := hflashes.pos last (List.mem_of_getLast? hlast)
  rw [← hend, hlasts]
  split_ifs with hlit
  · simp [hlit]
    omega
  · simp [hlit]

/-- The six quick flashes of a south cardinal mark end dark. -/
theorem long_flash_lasts_south :
    ∃ light, read "Q(6)+LFl W 15s" = .ok light ∧ light.longFlashTail = true ∧
      lastLitMs (light.cycle .extend).segments = 2000 := by
  let light : Characteristic := ⟨.quick, .count 6, .white, none, Binary64.ofNat 15, true⟩
  have hread : read "Q(6)+LFl W 15s" = .ok light := by decide +kernel
  have hdark : light.EndsDark := Or.inr rfl
  obtain ⟨last, fill, -, -, -, -, -, hlasts⟩ := long_flash_lasts hread rfl (Or.inl hdark)
  exact ⟨light, hread, rfl, hlasts.2 hdark⟩

/-- Behind a single flash the long one lasts half a second more. -/
theorem not_forall_long_flash_lasts :
    ¬ ∀ (text : String) (light : Characteristic), read text = .ok light →
      light.longFlashTail = true → light.ShowsFlashes →
      (∀ parts, light.group = .composite parts → ∃ n ∈ parts, n ≠ 0) →
      lastLitMs (light.cycle .extend).segments = 2000 := by
  intro hall
  let light : Characteristic := { ofRhythm .flashing with longFlashTail := true }
  have hrun : read "Fl+LFl 10s" = .ok light ∧ lastLitMs (light.cycle .extend).segments = 2500 := by
    decide +kernel
  have hlasts := hall _ light hrun.1 rfl (Or.inr (Or.inl rfl)) fun parts hparts => by cases hparts
  rw [hrun.2] at hlasts
  cases hlasts

end Characteristic

end ChartLight

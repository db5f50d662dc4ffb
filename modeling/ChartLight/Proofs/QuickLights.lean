import ChartLight.Proofs.LongFlash

/-! Quick lights that leave the number of their flashes to the period. Their flashes take the period, or
the three quarters of it that an interrupted rhythm allows them, as far as whole flashes fit, and darkness
takes the rest. Three quarters that are no whole number of milliseconds are rounded up, so a flash may
come too early: at one period for each number of flashes, and there by less than a millisecond. -/

namespace ChartLight

open Number

/-- When the lit segments begin, where the first segment begins at `offset`. -/
def litStarts (offset : Nat) : List Segment → List Nat
  | [] => []
  | s :: rest =>
    if s.lit then offset :: litStarts (offset + s.durationMs) rest
    else litStarts (offset + s.durationMs) rest

/-- How long it is dark in the end. -/
def lastDarkMs (segments : List Segment) : Nat := totalMs (segments.rtakeWhile (!·.lit))

section Segments

theorem litStarts_append (offset : Nat) (a b : List Segment) :
    litStarts offset (a ++ b) = litStarts offset a ++ litStarts (offset + totalMs a) b := by
  induction a generalizing offset with
  | nil => rfl
  | cons s a ih =>
    rw [List.cons_append, litStarts, litStarts, ih, totalMs_cons, Nat.add_assoc]
    split_ifs <;> rfl

variable {fill : List Segment} (hfill : ∀ s ∈ fill, s.lit = false)

include hfill

theorem litStarts_of_dark (offset : Nat) : litStarts offset fill = [] := by
  induction fill generalizing offset with
  | nil => rfl
  | cons s fill ih =>
    obtain ⟨hs, hfill⟩ := List.forall_mem_cons.1 hfill
    rw [litStarts, hs, if_neg Bool.false_ne_true, ih hfill]

theorem filter_lit_append_dark (l : List Segment) : (l ++ fill).filter (·.lit) = l.filter (·.lit) := by
  have hnone : fill.filter (·.lit) = [] := List.filter_eq_nil_iff.2 (by simpa using hfill)
  rw [List.filter_append, hnone, List.append_nil]

theorem lastDarkMs_append_dark (l : List Segment) :
    lastDarkMs (l ++ fill) = lastDarkMs l + totalMs fill := by
  have hall : ∀ s ∈ fill.reverse, (!s.lit) = true := by simpa using hfill
  rw [lastDarkMs, lastDarkMs, List.rtakeWhile, List.reverse_append, List.takeWhile_append_of_pos hall,
    List.reverse_append, List.reverse_reverse, totalMs_append, List.rtakeWhile]

end Segments

namespace Lamp

variable (lamp : Lamp) (rateMs : Nat)

theorem quickFlashes_succ (count : Nat) :
    lamp.quickFlashes (count + 1) rateMs =
      lamp.quickFlashes count rateMs ++ [lamp.on (rateMs / 2), lamp.off (rateMs - rateMs / 2)] := by
  rw [quickFlashes, List.replicate_succ', List.flatten_append, List.flatten_singleton, quickFlashes]

/-- One flash begins a rate after the other. -/
theorem litStarts_quickFlashes (count : Nat) :
    litStarts 0 (lamp.quickFlashes count rateMs) = (List.range count).map (· * rateMs) := by
  induction count with
  | zero => rfl
  | succ count ih =>
    rw [quickFlashes_succ, litStarts_append, ih, totalMs_quickFlashes, Nat.zero_add,
      List.range_succ, List.map_append]
    rfl

theorem filter_lit_quickFlashes (count : Nat) :
    (lamp.quickFlashes count rateMs).filter (·.lit) = List.replicate count (lamp.on (rateMs / 2)) := by
  induction count with
  | zero => rfl
  | succ count ih =>
    rw [quickFlashes_succ, List.filter_append, ih, List.replicate_succ']
    rfl

theorem lastDarkMs_quickFlashes {count : Nat} (hcount : 1 ≤ count) :
    lastDarkMs (lamp.quickFlashes count rateMs) = rateMs - rateMs / 2 := by
  obtain ⟨count, rfl⟩ := Nat.exists_eq_add_of_le' hcount
  have hdark : ∀ s ∈ [lamp.off (rateMs - rateMs / 2)], s.lit = false := by simp
  rw [quickFlashes_succ, List.append_cons, lastDarkMs_append_dark hdark, lastDarkMs,
    List.rtakeWhile_concat_neg _ _ _ (by simp)]
  exact Nat.zero_add _

end Lamp

theorem Group.flashCount?_eq_none {group : Group} (h : ∀ n, group = .count n → n = 0) :
    group.flashCount? = none := by
  cases group with
  | count n => rw [h n rfl]; rfl
  | _ => rfl

namespace Characteristic

variable {light : Characteristic} {rate : Nat}

/-- A quick light that gives no number of flashes, and nothing but them. -/
structure Uncounted (light : Characteristic) (rate : Nat) : Prop where
  quick : light.rhythm.quickRate? = some rate
  composite : ∀ parts, light.group ≠ .composite parts
  count : ∀ n, light.group = .count n → n = 0
  tail : light.longFlashTail = false

/-- The time that flashes may take: all of the period, of which interrupted rhythms leave a quarter. -/
def windowMs (light : Characteristic) : Nat :=
  if light.rhythm.isInterrupted then light.periodMs - light.periodMs / 4 else light.periodMs

theorem uncounted_of_single (hquick : light.rhythm.quickRate? = some rate)
    (hgroup : light.group = .single) (htail : light.longFlashTail = false) : light.Uncounted rate :=
  ⟨hquick, by simp [hgroup], by simp [hgroup], htail⟩

namespace Uncounted

theorem rate_cases (h : light.Uncounted rate) : rate = 1000 ∨ rate = 500 ∨ rate = 250 := by
  have hquick := h.quick
  cases hrhythm : light.rhythm <;> rw [hrhythm] at hquick <;> cases hquick <;> decide

theorem pattern_eq (h : light.Uncounted rate) :
    light.pattern = light.lamp.quickFlashes (max 1 (light.windowMs / rate)) rate := by
  have hflashes : light.ShowsFlashes := Or.inl (Or.inr (by rw [h.quick]; rfl))
  have hcount : light.quickCount rate = max 1 (light.windowMs / rate) := by
    rw [quickCount, Group.flashCount?_eq_none h.count]
    rfl
  rw [hflashes.pattern_eq, tailPattern_eq_nil h.tail, List.append_nil,
    rhythmPattern_quick h.composite h.quick, hcount]

theorem countP_lit (h : light.Uncounted rate) :
    (light.cycle .extend).segments.countP (·.lit) = max 1 (light.windowMs / rate) := by
  rw [countP_lit_cycle, h.pattern_eq, List.countP_eq_length_filter, Lamp.filter_lit_quickFlashes,
    List.length_replicate]

/-- Flashes that fit are followed by as much darkness as is left of the period, whatever is done about
those that do not. -/
theorem cycle_segments (h : light.Uncounted rate) (hfit : rate ≤ light.windowMs) (overrun : Overrun) :
    ∃ fill, (light.cycle overrun).segments =
        light.lamp.quickFlashes (light.windowMs / rate) rate ++ fill ∧
      (∀ s ∈ fill, s.lit = false) ∧
      totalMs fill = light.periodMs - light.windowMs / rate * rate := by
  have hrate : 0 < rate := by
    rcases h.rate_cases with rfl | rfl | rfl <;> decide
  have hpattern := h.pattern_eq
  rw [Nat.max_eq_right (Nat.div_pos hfit hrate)] at hpattern
  have htotal : totalMs light.pattern = light.windowMs / rate * rate := by
    rw [hpattern, Lamp.totalMs_quickFlashes]
  have hwindow : light.windowMs ≤ light.periodMs := by
    unfold windowMs
    split_ifs <;> omega
  have hle := Nat.le_trans (Nat.div_mul_le_self light.windowMs rate) hwindow
  have hextend : light.cycle overrun = light.cycle .extend := by
    cases overrun with
    | extend => rfl
    | truncate => exact light.cycle_truncate_of_le (htotal ▸ hle)
  rw [hextend]
  rcases Nat.lt_or_eq_of_le hle with hlt | heq
  · refine ⟨[light.lamp.off _], ?_, by simp, Nat.add_zero _⟩
    rw [cycle_extend_of_lt (htotal ▸ hlt), hpattern, Lamp.totalMs_quickFlashes]
  · refine ⟨[], ?_, by simp, ?_⟩
    · rw [cycle_extend_of_le (htotal ▸ heq.ge), hpattern, List.append_nil]
    · rw [heq, Nat.sub_self]
      rfl

end Uncounted

/-- Where at least one flash fits, the cycle is one period: flashes at the rate, as many as fit, and
darkness. An interrupted rhythm is dark for at least a quarter of the period behind its last flash, and
others for less than another flash would take. -/
theorem quick_fits_period (h : light.Uncounted rate) (hfit : rate ≤ light.windowMs)
    (overrun : Overrun) :
    let cycle := light.cycle overrun
    let period := light.periodMs
    let flashes := light.windowMs / rate
    cycle.totalMs = period ∧
    (∀ s ∈ cycle.segments, s.lit = true → s.durationMs = rate / 2) ∧
    cycle.litMs = flashes * rate / 2 ∧
    litStarts 0 cycle.segments = (List.range flashes).map (· * rate) ∧
    lastDarkMs cycle.segments = rate / 2 + (period - flashes * rate) ∧
    (light.rhythm.isInterrupted = true → rate / 2 + period / 4 ≤ lastDarkMs cycle.segments) ∧
    (light.rhythm.isInterrupted = false → lastDarkMs cycle.segments < rate / 2 + rate) := by
  intro cycle period flashes
  have hrate := h.rate_cases
  have hflashes : 1 ≤ flashes := Nat.div_pos hfit (by omega)
  have hwhole : flashes * rate ≤ light.windowMs := Nat.div_mul_le_self _ _
  obtain ⟨fill, hcycle, hfill, htotal⟩ := h.cycle_segments hfit overrun
  have hsegments : cycle.segments = light.lamp.quickFlashes flashes rate ++ fill := hcycle
  have hfilled : totalMs fill = period - flashes * rate := htotal
  have hdark : lastDarkMs cycle.segments = rate / 2 + (period - flashes * rate) := by
    rw [hsegments, lastDarkMs_append_dark hfill, Lamp.lastDarkMs_quickFlashes _ _ hflashes, hfilled]
    omega
  refine ⟨?_, fun s hs hlit => ?_, ?_, ?_, hdark, fun hinterrupted => ?_, fun hplain => ?_⟩
  · have hle : flashes * rate ≤ period := by
      unfold windowMs at hwhole
      split_ifs at hwhole <;> omega
    rw [Cycle.totalMs, hsegments, totalMs_append, Lamp.totalMs_quickFlashes, hfilled]
    omega
  · rw [hsegments, List.mem_append] at hs
    rcases hs with hs | hs
    · rcases mem_quickFlashes hs with rfl | rfl
      · rfl
      · cases hlit
    · rw [hfill s hs] at hlit
      cases hlit
  · rw [Cycle.litMs, hsegments, filter_lit_append_dark hfill, Lamp.filter_lit_quickFlashes,
      totalMs_replicate, Lamp.durationMs_on]
    rcases hrate with rfl | rfl | rfl <;> omega
  · rw [hsegments, litStarts_append, Lamp.litStarts_quickFlashes, litStarts_of_dark hfill,
      List.append_nil]
  · rw [windowMs, if_pos hinterrupted] at hwhole
    omega
  · have hrest : period - flashes * rate < rate := by
      have hwindow : light.windowMs = period := by simp [windowMs, hplain, period]
      have hlt := Nat.lt_div_mul_add (a := light.windowMs) (b := rate) (by omega)
      omega
    omega

/-- An interrupted quick light of ten seconds flashes for seven and is dark for three more. -/
theorem quick_fits_period_interrupted :
    let light := ofRhythm .interruptedQuick
    (light.cycle .truncate).litMs = 3500 ∧
      litStarts 0 (light.cycle .truncate).segments = [0, 1000, 2000, 3000, 4000, 5000, 6000] ∧
      lastDarkMs (light.cycle .truncate).segments = 3500 := by
  intro light
  have huncounted : light.Uncounted 1000 := uncounted_of_single rfl rfl rfl
  have hperiod : light.periodMs = 10000 := periodMs_of_default (ofRhythm_period _)
  have hwindow : light.windowMs = 7500 := by
    rw [windowMs, hperiod]
    rfl
  obtain ⟨-, -, hlit, hstarts, hdark, -⟩ :=
    quick_fits_period huncounted (by rw [hwindow]; decide) .truncate
  rw [hwindow] at hlit hstarts hdark
  rw [hperiod] at hdark
  exact ⟨hlit, hstarts, hdark⟩

/-- The flashes of an interrupted quick light are one more than whole ones fit three quarters of the
period just where the quarters rounded up are a whole number of flashes, and the quarters themselves are
not. For each number of flashes from two on there is one such period. -/
theorem interrupted_flashes_iff (h : light.Uncounted rate)
    (hinterrupted : light.rhythm.isInterrupted = true) :
    let period := light.periodMs
    let flashes := (light.cycle .extend).segments.countP (·.lit)
    let whole := max 1 (3 * period / (4 * rate))
    flashes = max 1 ((period - period / 4) / rate) ∧
    (flashes = whole ↔ ∀ k, 2 ≤ k → period ≠ (4 * (k * rate) - 1) / 3) ∧
    (flashes ≠ whole → flashes = whole + 1) ∧
    (2 ≤ flashes → (4 * (flashes * rate) ≤ 3 * period ↔ flashes = whole)) := by
  intro period flashes whole
  have hflashes : flashes = max 1 ((period - period / 4) / rate) := by
    have hcount := h.countP_lit
    rwa [windowMs, if_pos hinterrupted] at hcount
  refine ⟨hflashes, ⟨fun heq k hk hperiod => ?_, fun hall => ?_⟩, ?_, ?_⟩
  · -- the quarters rounded up are `k` flashes, and the quarters themselves are less
    have hpos : 1 ≤ period := light.periodMs_pos
    have hquarters : period - period / 4 = k * rate := by omega
    have hless : 3 * period < 4 * (k * rate) := by omega
    rcases h.rate_cases with rfl | rfl | rfl <;> omega
  · by_contra hne
    refine hall ((period - period / 4) / rate) ?_ ?_
    · rcases h.rate_cases with rfl | rfl | rfl <;> omega
    · rcases h.rate_cases with rfl | rfl | rfl <;> omega
  · rcases h.rate_cases with rfl | rfl | rfl <;> omega
  · rcases h.rate_cases with rfl | rfl | rfl <;> omega

/-- An interrupted quick light of 2666 ms, of which three quarters are 1999.5 ms. -/
def earlyQuick : Characteristic :=
  { ofRhythm .interruptedQuick with period := Binary64.ofRatio false 2666 1000 }

theorem earlyQuick_uncounted : earlyQuick.Uncounted 1000 :=
  uncounted_of_single rfl rfl rfl

/-- It shows two flashes, which take half a millisecond more than its quarters. -/
theorem interrupted_flashes_iff_early :
    earlyQuick.rhythm.isInterrupted = true ∧
      (earlyQuick.cycle .extend).segments.countP (·.lit) = 2 ∧
      (earlyQuick.cycle .extend).segments.countP (·.lit) ≠
        max 1 (3 * earlyQuick.periodMs / (4 * 1000)) := by
  have hperiod : earlyQuick.periodMs = 2666 :=
    periodMs_of_thousandths (by decide) (by decide) (by rw [earlyQuick])
  obtain ⟨hflashes, hiff, -⟩ := interrupted_flashes_iff earlyQuick_uncounted rfl
  rw [hperiod] at hflashes
  refine ⟨rfl, hflashes, fun heq => ?_⟩
  exact hiff.1 heq 2 (Nat.le_refl 2) hperiod

/-- Not every interrupted light has the flashes that fit three quarters of its period. -/
theorem not_forall_interrupted_flashes :
    ¬ ∀ (text : String) (light : Characteristic) (rate : Nat), read text = .ok light →
      light.Uncounted rate → light.rhythm.isInterrupted = true →
      (light.cycle .extend).segments.countP (·.lit) =
        max 1 (3 * light.periodMs / (4 * rate)) := by
  intro hall
  have hrun : read "IQ 2.666s" = .ok earlyQuick ∧ earlyQuick.periodMs = 2666 ∧
      (earlyQuick.cycle .extend).segments.countP (·.lit) = 2 := by
    decide +kernel
  obtain ⟨hread, hperiod, hshown⟩ := hrun
  have hflashes := hall _ earlyQuick 1000 hread earlyQuick_uncounted rfl
  rw [hshown, hperiod] at hflashes
  cases hflashes

end Characteristic

end ChartLight

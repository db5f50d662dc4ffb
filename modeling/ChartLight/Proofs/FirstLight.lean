import ChartLight.Proofs.Eclipses
import ChartLight.Proofs.LongFlash

/-! When a light first shows in its cycle, and whether it does. The rhythms begin with light, as long as
there is time for any: parts without flashes have none, nor has half of one millisecond, nor what
eclipses leave that take the whole period. A long flash behind the rhythm shows in any case, but not in a
cycle that is clipped before it. -/

namespace ChartLight

open Number

/-- The time before the first light of some segments, if there is light in them. -/
def firstLitMs? : List Segment → Option Nat
  | [] => none
  | s :: rest =>
    if s.lit = true ∧ 0 < s.durationMs then some 0 else (firstLitMs? rest).map (s.durationMs + ·)

section FirstLight

theorem firstLitMs?_cons_of_lit {s : Segment} (hlit : s.lit = true) (hpos : 0 < s.durationMs)
    (rest : List Segment) : firstLitMs? (s :: rest) = some 0 := if_pos ⟨hlit, hpos⟩

theorem firstLitMs?_cons_of_dark {s : Segment} (hdark : s.lit = false) (rest : List Segment) :
    firstLitMs? (s :: rest) = (firstLitMs? rest).map (s.durationMs + ·) := by
  rw [firstLitMs?, if_neg (by simp [hdark])]

theorem firstLitMs?_of_dark {l : List Segment} (h : ∀ s ∈ l, s.lit = false) :
    firstLitMs? l = none := by
  induction l with
  | nil => rfl
  | cons s l ih =>
    obtain ⟨hs, hl⟩ := List.forall_mem_cons.1 h
    rw [firstLitMs?_cons_of_dark hs, ih hl]
    rfl

theorem firstLitMs?_append (a b : List Segment) :
    firstLitMs? (a ++ b) = (firstLitMs? a).or ((firstLitMs? b).map (totalMs a + ·)) := by
  induction a with
  | nil => simp [firstLitMs?, totalMs_nil]
  | cons s a ih =>
    rw [List.cons_append, firstLitMs?, firstLitMs?]
    split_ifs with hlit
    · rfl
    · simp [ih, Option.map_or, totalMs_cons, Function.comp_def, Nat.add_assoc]

/-- A segment of no length neither shows nor takes time. -/
theorem firstLitMs?_filter (l : List Segment) :
    firstLitMs? (l.filter (0 < ·.durationMs)) = firstLitMs? l := by
  induction l with
  | nil => rfl
  | cons s l ih =>
    by_cases hpos : 0 < s.durationMs
    · rw [List.filter_cons_of_pos (by simpa using hpos), firstLitMs?, firstLitMs?, ih]
    · have hzero : s.durationMs = 0 := by omega
      rw [List.filter_cons_of_neg (by simpa using hpos), ih, firstLitMs?, if_neg (by simp [hzero])]
      simp [hzero]

theorem isSome_firstLitMs?_iff (l : List Segment) :
    (firstLitMs? l).isSome = true ↔ 0 < totalMs (l.filter (·.lit)) := by
  induction l with
  | nil => simp [firstLitMs?, totalMs_nil]
  | cons s l ih =>
    cases hlit : s.lit with
    | false => rw [firstLitMs?_cons_of_dark hlit, Option.isSome_map, ih]; simp [hlit]
    | true =>
      rw [List.filter_cons_of_pos hlit, totalMs_cons]
      by_cases hpos : 0 < s.durationMs
      · simp [firstLitMs?_cons_of_lit hlit hpos, Nat.add_pos_left hpos]
      · have hzero : s.durationMs = 0 := Nat.eq_zero_of_not_pos hpos
        rw [firstLitMs?, if_neg (mt And.right hpos), Option.isSome_map, ih, hzero, Nat.zero_add]

theorem firstLitMs?_lt {l : List Segment} {ms : Nat} (h : firstLitMs? l = some ms) : ms < totalMs l := by
  induction l generalizing ms with
  | nil => cases h
  | cons s l ih =>
    rw [firstLitMs?] at h
    rw [totalMs_cons]
    split_ifs at h with hlit
    · cases h
      exact Nat.add_pos_left hlit.2 _
    · obtain ⟨later, hlater, rfl⟩ := Option.map_eq_some_iff.1 h
      exact Nat.add_lt_add_left (ih hlater) _

/-- What is clipped away is not seen, and all else is seen when it was. -/
theorem firstLitMs?_clip {l : List Segment} (hpos : ∀ s ∈ l, 0 < s.durationMs) (limit : Nat) :
    firstLitMs? (clip limit l) = (firstLitMs? l).filter (· < limit) := by
  induction l generalizing limit with
  | nil => rfl
  | cons s l ih =>
    obtain ⟨hs, hl⟩ := List.forall_mem_cons.1 hpos
    unfold clip
    split_ifs with hzero hcut
    · simp [firstLitMs?, hzero]
    · cases hlit : s.lit with
      | true =>
        have hlimit : 0 < limit := Nat.pos_of_ne_zero hzero
        rw [firstLitMs?_cons_of_lit hlit hs, firstLitMs?_cons_of_lit rfl hlimit]
        simp [Option.filter_some, hlimit]
      | false =>
        -- the segment outlasts the limit, and so does the darkness
        rw [firstLitMs?_cons_of_dark hlit, firstLitMs?_cons_of_dark rfl]
        cases firstLitMs? l with
        | none => rfl
        | some later =>
          rw [Option.map_some, Option.filter_some, if_neg (by simp; omega)]
          rfl
    · cases hlit : s.lit with
      | true =>
        rw [firstLitMs?_cons_of_lit hlit hs, firstLitMs?_cons_of_lit hlit hs]
        simp [Option.filter_some, Nat.pos_of_ne_zero hzero]
      | false =>
        rw [firstLitMs?_cons_of_dark hlit, firstLitMs?_cons_of_dark hlit, ih hl]
        cases firstLitMs? l with
        | none => rfl
        | some later =>
          have hiff : later < limit - s.durationMs ↔ s.durationMs + later < limit := by omega
          simp [Option.filter_some, hiff, apply_ite (Option.map (s.durationMs + ·))]

end FirstLight

namespace Lamp

variable (lamp : Lamp)

theorem firstLitMs?_on {ms : Nat} (h : 0 < ms) (rest : List Segment) :
    firstLitMs? (lamp.on ms :: rest) = some 0 := firstLitMs?_cons_of_lit rfl h rest

/-- Flashes that are written with the darkness after them begin with light, if there are any. -/
theorem firstLitMs?_replicate_append {litMs : Nat} (hlit : 0 < litMs) (n darkMs : Nat)
    (rest : List Segment) :
    firstLitMs? ((List.replicate n [lamp.on litMs, lamp.off darkMs]).flatten ++ rest) =
      if n = 0 then firstLitMs? rest else some 0 := by
  cases n with
  | zero => rfl
  | succ n =>
    rw [List.replicate_succ, List.flatten_cons, if_neg (Nat.succ_ne_zero n)]
    exact lamp.firstLitMs?_on hlit _

theorem firstLitMs?_quickFlashes {count rateMs : Nat} (hcount : 1 ≤ count) (hrate : 2 ≤ rateMs) :
    firstLitMs? (lamp.quickFlashes count rateMs) = some 0 := by
  have hlit : 0 < rateMs / 2 := by omega
  have happend := lamp.firstLitMs?_replicate_append hlit count (rateMs - rateMs / 2) []
  rw [List.append_nil, if_neg (by omega)] at happend
  exact happend

theorem firstLitMs?_part_append (n : Nat) (rest : List Segment) :
    firstLitMs? (lamp.part (min n Group.maxElement) ++ rest) =
      if n = 0 then firstLitMs? rest else some 0 := by
  rw [part, firstLitMs?_replicate_append lamp (by decide)]
  have hzero : min n Group.maxElement = 0 ↔ n = 0 := by simp [Group.maxElement]
  simp only [hzero]

/-- Before the first light of a composite group stand the pauses behind parts without flashes. -/
theorem firstLitMs?_composite (parts : List Nat) :
    firstLitMs? (lamp.composite parts) =
      if ∀ n ∈ parts, n = 0 then none else some (1500 * (parts.takeWhile (· = 0)).length) := by
  induction parts with
  | nil => rfl
  | cons n parts ih =>
    cases parts with
    | nil =>
      have hpart := lamp.firstLitMs?_part_append n []
      rw [List.append_nil] at hpart
      rw [composite, List.map_singleton, List.intercalate_singleton, hpart]
      by_cases hn : n = 0
      · simp [hn, firstLitMs?]
      · simp [hn]
    | cons m parts =>
      rw [composite_cons_cons, firstLitMs?_part_append, firstLitMs?_cons_of_dark rfl, ih]
      by_cases hn : n = 0
      · subst hn
        have hall : (∀ k ∈ 0 :: m :: parts, k = 0) ↔ ∀ k ∈ m :: parts, k = 0 := by simp
        have hlead : ((0 :: m :: parts).takeWhile (· = 0)).length =
            ((m :: parts).takeWhile (· = 0)).length + 1 := rfl
        rw [if_pos rfl, hlead, Nat.mul_add_one, Nat.add_comm]
        simp only [hall]
        split_ifs <;> rfl
      · simp [hn]

theorem totalMs_composite_of_zero {parts : List Nat} (h : ∀ n ∈ parts, n = 0) :
    totalMs (lamp.composite parts) = 1500 * (parts.length - 1) := by
  rw [totalMs_composite, List.eq_replicate_iff.2 ⟨rfl, h⟩, List.map_replicate, total_replicate,
    List.length_replicate]
  simp [Nat.mul_comm]

end Lamp

namespace Characteristic

/-- Whether a rhythm has no light. -/
def Unlit (light : Characteristic) : Prop :=
  match light.group with
  | .composite parts => ∀ n ∈ parts, n = 0
  | .eclipses seconds => light.periodMs ≤ total seconds * 1000
  | _ => light.rhythm = .isophase ∧ light.periodMs = 1

/-- Whether the period is over before the first light. -/
def Belated (light : Characteristic) : Prop :=
  match light.group with
  | .composite parts =>
    light.periodMs ≤ 1500 * min (parts.takeWhile (· = 0)).length (parts.length - 1)
  | _ => light.Unlit

variable {light : Characteristic}

section Rhythm

variable (hcomposite : ∀ parts, light.group ≠ .composite parts)

include hcomposite

theorem ShowsFlashes.firstLitMs?_eq (h : light.ShowsFlashes) (hvalid : light.fault? = none) :
    firstLitMs? light.rhythmPattern = some 0 := by
  by_cases hdark : light.EndsDark
  · obtain ⟨rate, hrate⟩ := Option.isSome_iff_exists.1 (hdark.resolve_left (by simp [hcomposite]))
    have hlong := le_quickRate? hrate
    rw [rhythmPattern_quick hcomposite hrate]
    exact light.lamp.firstLitMs?_quickFlashes (light.one_le_quickCount rate) (by omega)
  · obtain ⟨s, rest, hpattern⟩ := List.exists_cons_of_ne_nil (h.ne_nil hvalid)
    have hlit : s.lit = true := h.lit_of_edge hdark (Or.inl (by rw [hpattern]; rfl))
    have hpos : 0 < s.durationMs := h.pos s (hpattern ▸ List.mem_cons_self)
    rw [hpattern, firstLitMs?_cons_of_lit hlit hpos]

theorem firstLitMs?_alternating (hrhythm : light.rhythm = .alternating) :
    firstLitMs? light.rhythmPattern = some 0 := by
  have hperiod := light.periodMs_pos
  cases halt : light.altColor with
  | none =>
    rw [rhythmPattern_steady hcomposite (Or.inr ⟨hrhythm, halt⟩), Lamp.firstLitMs?_on _ hperiod]
  | some altColor =>
    rw [rhythmPattern_alternating hcomposite hrhythm halt]
    by_cases hhalf : 0 < light.periodMs / 2
    · exact light.lamp.firstLitMs?_on hhalf _
    · -- of one millisecond the second half is lit, and the first takes no time
      have hone : light.periodMs = 1 := by omega
      rw [hone]
      rfl

/-- Without parts and eclipses a light begins lit, if there is time for it. -/
theorem firstLitMs?_rhythmPattern (hvalid : light.fault? = none)
    (heclipses : ∀ seconds, light.group ≠ .eclipses seconds)
    (htime : ¬(light.rhythm = .isophase ∧ light.periodMs = 1)) :
    firstLitMs? light.rhythmPattern = some 0 := by
  by_cases hflashes : light.ShowsFlashes
  · exact hflashes.firstLitMs?_eq hcomposite hvalid
  have hperiod := light.periodMs_pos
  cases hrhythm : light.rhythm with
  | fixed => rw [rhythmPattern_steady hcomposite (Or.inl hrhythm), Lamp.firstLitMs?_on _ hperiod]
  | isophase =>
    have htwo : light.periodMs ≠ 1 := fun hone => htime ⟨hrhythm, hone⟩
    rw [rhythmPattern_isophase hcomposite hrhythm, Lamp.firstLitMs?_on _ (by omega)]
  | occulting =>
    rw [rhythmPattern_occulting hrhythm hcomposite, Lamp.occulting_of_not_eclipses _ heclipses,
      Lamp.firstLitMs?_on _ (by omega)]
  | alternating => exact firstLitMs?_alternating hcomposite hrhythm
  | flashing | longFlashing | morse => exact absurd (by simp [ShowsFlashes, hrhythm]) hflashes
  | _ => exact absurd (by simp [ShowsFlashes, EndsDark, hrhythm, Rhythm.quickRate?]) hflashes

end Rhythm

/-- How long the rhythm of a light is dark at first, or altogether where it has no light. -/
structure DarkAtFirst (light : Characteristic) (darkMs : Nat) : Prop where
  belated : light.Belated ↔ light.periodMs ≤ darkMs
  unlit : light.Unlit → firstLitMs? light.rhythmPattern = none ∧ totalMs light.rhythmPattern = darkMs
  lit : ¬light.Unlit → firstLitMs? light.rhythmPattern = some darkMs

theorem darkAtFirst_composite {parts : List Nat} (hgroup : light.group = .composite parts) :
    light.DarkAtFirst (1500 * min (parts.takeWhile (· = 0)).length (parts.length - 1)) := by
  have hpattern := rhythmPattern_composite hgroup
  have hfirst := light.lamp.firstLitMs?_composite parts
  constructor
  · simp [Belated, hgroup]
  · intro hunlit
    have hzero : ∀ n ∈ parts, n = 0 := by simpa [Unlit, hgroup] using hunlit
    have hall : parts.takeWhile (· = 0) = parts := List.takeWhile_eq_self_iff.2 (by simpa using hzero)
    rw [hpattern, hfirst, if_pos hzero, light.lamp.totalMs_composite_of_zero hzero, hall]
    exact ⟨rfl, by omega⟩
  · intro hlit
    have hsome : ¬∀ n ∈ parts, n = 0 := by simpa [Unlit, hgroup] using hlit
    have hbegin : parts.takeWhile (· = 0) <+: parts := List.takeWhile_prefix _
    have hlength : (parts.takeWhile (· = 0)).length ≠ parts.length := by
      intro heq
      exact hsome (by simpa using List.takeWhile_eq_self_iff.1 (hbegin.eq_of_length heq))
    have hle := hbegin.length_le
    rw [hpattern, hfirst, if_neg hsome, Nat.min_eq_left (by omega)]

section Steady

variable (hcomposite : ∀ parts, light.group ≠ .composite parts)

include hcomposite

theorem belated_iff_unlit : light.Belated ↔ light.Unlit := by
  unfold Belated
  split
  · next parts hparts => exact absurd hparts (hcomposite parts)
  · exact Iff.rfl

theorem DarkAtFirst.of_unlit (hunlit : light.Unlit) (hfirst : firstLitMs? light.rhythmPattern = none)
    (hwhole : light.periodMs ≤ totalMs light.rhythmPattern) :
    light.DarkAtFirst (totalMs light.rhythmPattern) where
  belated := (belated_iff_unlit hcomposite).trans (iff_of_true hunlit hwhole)
  unlit := fun _ => ⟨hfirst, rfl⟩
  lit := fun hlit => absurd hunlit hlit

theorem DarkAtFirst.of_lit {darkMs : Nat} (hlit : ¬light.Unlit)
    (hfirst : firstLitMs? light.rhythmPattern = some darkMs) (hlt : darkMs < light.periodMs) :
    light.DarkAtFirst darkMs where
  belated := (belated_iff_unlit hcomposite).trans (iff_of_false hlit (Nat.not_le.2 hlt))
  unlit := fun hunlit => absurd hunlit hlit
  lit := fun _ => hfirst

end Steady

/-- Eclipses that take the whole period leave no light; others leave some before the period is over. -/
theorem darkAtFirst_eclipses (hvalid : light.fault? = none) {seconds : List Nat}
    (hgroup : light.group = .eclipses seconds) : ∃ darkMs, light.DarkAtFirst darkMs := by
  obtain ⟨hrhythm, hne⟩ := of_eclipses hvalid hgroup
  have hcomposite : ∀ parts, light.group ≠ .composite parts := by simp [hgroup]
  have hunlit : light.Unlit ↔ light.periodMs ≤ total seconds * 1000 := by simp [Unlit, hgroup]
  have hpattern := rhythmPattern_occulting hrhythm hcomposite
  rw [hgroup] at hpattern
  have htotal : totalMs light.rhythmPattern = max light.periodMs (total seconds * 1000) := by
    rw [hpattern, Lamp.totalMs_occulting _ hne]
  have hlit := isSome_firstLitMs?_iff light.rhythmPattern
  rw [hpattern, Lamp.totalMs_lit_occulting _ hne, ← hpattern] at hlit
  cases hfirst : firstLitMs? light.rhythmPattern with
  | none =>
    rw [hfirst] at hlit
    have hwhole : light.periodMs ≤ total seconds * 1000 := by simpa using hlit
    exact ⟨_, DarkAtFirst.of_unlit hcomposite (hunlit.2 hwhole) hfirst (by omega)⟩
  | some darkMs =>
    rw [hfirst] at hlit
    have hleft : total seconds * 1000 < light.periodMs := by simpa using hlit
    have hlt := firstLitMs?_lt hfirst
    exact ⟨_, DarkAtFirst.of_lit hcomposite (by rw [hunlit]; omega) hfirst (by omega)⟩

theorem exists_darkAtFirst (hvalid : light.fault? = none) : ∃ darkMs, light.DarkAtFirst darkMs := by
  by_cases hcomposite : ∃ parts, light.group = .composite parts
  · obtain ⟨parts, hparts⟩ := hcomposite
    exact ⟨_, darkAtFirst_composite hparts⟩
  by_cases heclipses : ∃ seconds, light.group = .eclipses seconds
  · obtain ⟨seconds, hseconds⟩ := heclipses
    exact darkAtFirst_eclipses hvalid hseconds
  push Not at hcomposite heclipses
  have hunlit : light.Unlit ↔ light.rhythm = .isophase ∧ light.periodMs = 1 := by
    unfold Unlit
    split
    · next parts hparts => exact absurd hparts (hcomposite parts)
    · next seconds hseconds => exact absurd hseconds (heclipses seconds)
    · exact Iff.rfl
  by_cases htime : light.rhythm = .isophase ∧ light.periodMs = 1
  · have hpattern := rhythmPattern_isophase hcomposite htime.1
    rw [htime.2] at hpattern
    refine ⟨_, DarkAtFirst.of_unlit hcomposite (hunlit.2 htime) ?_ ?_⟩
    · rw [hpattern]
      rfl
    · rw [hpattern, htime.2]
      exact Nat.le_refl 1
  · have hfirst := firstLitMs?_rhythmPattern hcomposite hvalid heclipses htime
    exact ⟨0, DarkAtFirst.of_lit hcomposite (mt hunlit.1 htime) hfirst light.periodMs_pos⟩

section Pattern

/-- A long flash is seen behind a rhythm without light. -/
theorem DarkAtFirst.pattern {darkMs : Nat} (h : light.DarkAtFirst darkMs)
    (hshown : light.longFlashTail = true ∨ ¬light.Unlit) :
    firstLitMs? light.pattern = some darkMs := by
  rw [Characteristic.pattern, firstLitMs?_filter, firstLitMs?_append]
  by_cases hunlit : light.Unlit
  · obtain ⟨hdark, htotal⟩ := h.unlit hunlit
    have htail := hshown.resolve_right (not_not_intro hunlit)
    rw [hdark, htotal, tailPattern, if_pos htail]
    rfl
  · rw [h.lit hunlit]
    rfl

theorem DarkAtFirst.pattern_eq_none {darkMs : Nat} (h : light.DarkAtFirst darkMs)
    (htail : light.longFlashTail = false) (hunlit : light.Unlit) : firstLitMs? light.pattern = none := by
  rw [Characteristic.pattern, firstLitMs?_filter, tailPattern_eq_nil htail, List.append_nil,
    (h.unlit hunlit).1]

theorem litMs_extend_pos_iff (light : Characteristic) :
    0 < (light.cycle .extend).litMs ↔ ∃ ms, firstLitMs? light.pattern = some ms := by
  obtain ⟨fill, hcycle⟩ := light.cycle_extend_segments
  have hfill : firstLitMs? (fill.map light.lamp.off) = none := firstLitMs?_of_dark (by simp)
  rw [Cycle.litMs, ← isSome_firstLitMs?_iff, hcycle, firstLitMs?_append, hfill, Option.map_none,
    Option.or_none, Option.isSome_iff_exists]

theorem litMs_truncate_pos_iff (light : Characteristic) :
    0 < (light.cycle .truncate).litMs ↔
      ∃ ms, firstLitMs? light.pattern = some ms ∧ ms < light.periodMs := by
  by_cases hfits : totalMs light.pattern ≤ light.periodMs
  · rw [cycle_truncate_of_le light hfits, litMs_extend_pos_iff]
    constructor
    · rintro ⟨ms, hms⟩
      exact ⟨ms, hms, Nat.lt_of_lt_of_le (firstLitMs?_lt hms) hfits⟩
    · rintro ⟨ms, hms, -⟩
      exact ⟨ms, hms⟩
  · rw [Cycle.litMs, ← isSome_firstLitMs?_iff, (cycle_segments_of_lt light (Nat.not_le.1 hfits)).2,
      firstLitMs?_clip light.pattern_pos, Option.isSome_iff_exists]
    simp [Option.filter_eq_some_iff]

end Pattern

/-- The cycle of a light that was read shows light, but for rhythms that have none: only parts without
flashes, the halves of one millisecond, or eclipses that take the whole period. Behind them a long flash
still shows. A clipped cycle shows light if the first comes before the period is over. -/
theorem shows_light_iff {text : String} {defaultPeriod : Binary64}
    (hread : readWith defaultPeriod text = .ok light) :
    (0 < (light.cycle .extend).litMs ↔ light.longFlashTail = true ∨ ¬light.Unlit) ∧
    (0 < (light.cycle .truncate).litMs ↔
      (light.longFlashTail = true ∨ ¬light.Unlit) ∧ ¬light.Belated) := by
  obtain ⟨darkMs, hdark⟩ := exists_darkAtFirst (readable_of_readWith hread).fault?
  rw [litMs_extend_pos_iff, litMs_truncate_pos_iff, hdark.belated, Nat.not_le]
  by_cases hshown : light.longFlashTail = true ∨ ¬light.Unlit
  · rw [hdark.pattern hshown]
    simp [hshown]
  · obtain ⟨htail, hunlit⟩ := not_or.1 hshown
    rw [hdark.pattern_eq_none (by simpa using htail) (not_not.1 hunlit)]
    simp [hshown]

/-- The pause behind a part without flashes outlasts a period of one second. -/
theorem shows_light_iff_late :
    ∃ light, read "Fl(0+1) 1s" = .ok light ∧ 0 < (light.cycle .extend).litMs ∧
      (light.cycle .truncate).litMs = 0 := by
  let light : Characteristic :=
    { ofRhythm .flashing with group := .composite [0, 1], period := Binary64.ofNat 1 }
  have hrun : read "Fl(0+1) 1s" = .ok light ∧ light.periodMs = 1000 := by decide +kernel
  obtain ⟨hextend, htruncate⟩ := shows_light_iff hrun.1
  have hlit : ¬light.Unlit := by simp [Unlit, light]
  have hlate : light.Belated := by
    show light.periodMs ≤ 1500
    rw [hrun.2]
    decide
  refine ⟨light, hrun.1, hextend.2 (Or.inr hlit), Nat.eq_zero_of_not_pos fun hpos => ?_⟩
  exact (htruncate.1 hpos).2 hlate

/-- Not every light shows, even where eclipses leave some of the period: not one of parts without
flashes, nor one of half a millisecond of light. And not every light that shows does when clipped. -/
theorem not_forall_shows_light :
    let Spares (light : Characteristic) : Prop :=
      ∀ seconds, light.group = .eclipses seconds → total seconds * 1000 < light.periodMs
    (¬ ∀ (text : String) (light : Characteristic), read text = .ok light → Spares light →
      0 < (light.cycle .extend).litMs) ∧
    (¬ ∀ (text : String) (light : Characteristic), read text = .ok light → Spares light →
      (∀ parts, light.group ≠ .composite parts) → 0 < (light.cycle .extend).litMs) ∧
    ¬ ∀ (text : String) (light : Characteristic), read text = .ok light → Spares light →
      0 < (light.cycle .extend).litMs → 0 < (light.cycle .truncate).litMs := by
  intro Spares
  refine ⟨fun hall => ?_, fun hall => ?_, fun hall => ?_⟩
  · let light : Characteristic := { ofRhythm .flashing with group := .composite [0, 0] }
    have hrun : read "Fl(0+0) 10s" = .ok light ∧ (light.cycle .extend).litMs = 0 := by decide +kernel
    have hlit := hall _ light hrun.1 (fun seconds hseconds => by cases hseconds)
    omega
  · let light : Characteristic := { ofRhythm .isophase with period := Binary64.ofRatio false 1 1000 }
    have hrun : read "Iso 0.001s" = .ok light ∧ (light.cycle .extend).litMs = 0 := by decide +kernel
    have hlit := hall _ light hrun.1 (fun seconds hseconds => by cases hseconds)
      fun parts hparts => by cases hparts
    omega
  · let light : Characteristic :=
      { ofRhythm .flashing with group := .composite [0, 1], period := Binary64.ofNat 1 }
    have hrun : read "Fl(0+1) 1s" = .ok light ∧ 0 < (light.cycle .extend).litMs ∧
        (light.cycle .truncate).litMs = 0 := by
      decide +kernel
    have hlit := hall _ light hrun.1 (fun seconds hseconds => by cases hseconds) hrun.2.1
    omega

end Characteristic

end ChartLight

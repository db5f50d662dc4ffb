import ChartLight.Proofs.RoundTrip

/-! Which lights keep the rules. They are those whose group suits the rhythm, as it does in every light
that is read from a text, and besides them the occulting lights with a number of flashes, which no
text says: on that rhythm numbers are read as eclipses. -/

namespace ChartLight

open Number Text

theorem exists_cons_cons_of_length {α : Type} {l : List α} (h : 1 < l.length) :
    ∃ a b rest, l = a :: b :: rest := by
  match l, h with
  | a :: b :: rest, _ => exact ⟨a, b, rest, rfl⟩

section Shape

variable {rhythm : Rhythm} {group : Group}

theorem Group.ofElements_occulting (values : List Nat) :
    ofElements .occulting values = .eclipses values := rfl

theorem Group.ofElements_one (h : rhythm ≠ .occulting) (n : Nat) :
    ofElements rhythm [n] = .count n := by
  cases rhythm with
  | occulting => exact absurd rfl h
  | _ => rfl

theorem Group.ofElements_more (h : rhythm ≠ .occulting) {values : List Nat}
    (hlength : 1 < values.length) : ofElements rhythm values = .composite values := by
  obtain ⟨a, b, rest, rfl⟩ := exists_cons_cons_of_length hlength
  cases rhythm with
  | occulting => exact absurd rfl h
  | _ => rfl

/-- Numbers of flashes, one or several. -/
inductive Group.Flashes : Group → Prop
  | count {n : Nat} (hle : n ≤ 99) : Flashes (.count n)
  | composite {parts : List Nat} (hlength : 1 < parts.length) (hle : ∀ n ∈ parts, n ≤ 99) :
      Flashes (.composite parts)

/-- On any other rhythm than an occulting one, numbers of flashes suit. -/
theorem Group.Flashes.suits (h : group.Flashes) (hmorse : rhythm ≠ .morse)
    (hocculting : rhythm ≠ .occulting) : group.Suits rhythm := by
  cases h with
  | @count n hle =>
    rw [← Group.ofElements_one hocculting n]
    exact Group.Suits.elements hmorse (List.cons_ne_nil _ _) (List.forall_mem_singleton.2 hle)
  | @composite parts hlength hle =>
    rw [← Group.ofElements_more hocculting hlength]
    exact Group.Suits.elements hmorse (List.ne_nil_of_length_pos (by omega)) hle

theorem shapeFault?_of_ne_morse (h : rhythm ≠ .morse) :
    shapeFault? .single rhythm = none ∧ (∀ n, shapeFault? (.count n) rhythm = none) ∧
      ∀ parts, shapeFault? (.composite parts) rhythm = none ↔ 1 < parts.length := by
  cases rhythm with
  | morse => exact absurd rfl h
  | _ => simp [shapeFault?]

theorem shapeFault?_of_suits (h : group.Suits rhythm) :
    shapeFault? group rhythm = none ∧ ∀ n ∈ group.values, n ≤ 99 := by
  cases h with
  | single hrhythm => exact ⟨(shapeFault?_of_ne_morse hrhythm).1, by simp [Group.values]⟩
  | letter hrhythm hc =>
    subst hrhythm
    simp [shapeFault?, Group.values, hc]
  | @elements values hrhythm hne hle =>
    refine ⟨?_, by rwa [Group.values_ofElements]⟩
    by_cases hocculting : rhythm = .occulting
    · subst hocculting
      simp [Group.ofElements_occulting, shapeFault?, hne]
    · obtain ⟨-, hcount, hcomposite⟩ := shapeFault?_of_ne_morse hrhythm
      match values, hne with
      | [n], _ => rw [Group.ofElements_one hocculting, hcount]
      | a :: b :: rest, _ => rw [Group.ofElements_more hocculting (by simp), hcomposite]; simp

theorem suits_or_flashes_of_shapeFault? (h : shapeFault? group rhythm = none)
    (hle : ∀ n ∈ group.values, n ≤ 99) :
    group.Suits rhythm ∨ rhythm = .occulting ∧ group.Flashes := by
  have hflashes (hgroup : group.Flashes) (hmorse : rhythm ≠ .morse) :
      group.Suits rhythm ∨ rhythm = .occulting ∧ group.Flashes := by
    by_cases hocculting : rhythm = .occulting
    · exact Or.inr ⟨hocculting, hgroup⟩
    · exact Or.inl (hgroup.suits hmorse hocculting)
  cases group with
  | single => exact Or.inl (Group.Suits.single (by rintro rfl; simp [shapeFault?] at h))
  | letter c =>
    cases rhythm with
    | morse => exact Or.inl (Group.Suits.letter rfl (by simpa [shapeFault?] using h))
    | _ => simp [shapeFault?] at h
  | eclipses seconds =>
    cases rhythm with
    | occulting =>
      rw [← Group.ofElements_occulting seconds]
      exact Or.inl (Group.Suits.elements (by decide) (by simpa [shapeFault?] using h) hle)
    | _ => simp [shapeFault?] at h
  | count n =>
    have hmorse : rhythm ≠ .morse := by rintro rfl; simp [shapeFault?] at h
    exact hflashes (.count (hle n List.mem_cons_self)) hmorse
  | composite parts =>
    have hmorse : rhythm ≠ .morse := by rintro rfl; simp [shapeFault?] at h
    exact hflashes (.composite (((shapeFault?_of_ne_morse hmorse).2.2 parts).1 h) hle) hmorse

/-- Only a Morse light has a letter, and it must. -/
theorem Group.Suits.letter_iff (h : group.Suits rhythm) :
    (∃ c, group = .letter c) ↔ rhythm = .morse := by
  cases h with
  | single hrhythm => exact iff_of_false (by rintro ⟨c, hc⟩; cases hc) hrhythm
  | letter hrhythm hc => exact iff_of_true ⟨_, rfl⟩ hrhythm
  | @elements values hrhythm hne hle =>
    refine iff_of_false ?_ hrhythm
    rintro ⟨c, hc⟩
    have hvalues := congrArg Group.values hc
    rw [Group.values_ofElements] at hvalues
    exact hne hvalues

theorem Group.Suits.of_occulting (h : group.Suits .occulting) :
    group = .single ∨ ∃ seconds, seconds ≠ [] ∧ group = .eclipses seconds := by
  cases h with
  | single hrhythm => exact Or.inl rfl
  | letter hrhythm hc => cases hrhythm
  | @elements values hrhythm hne hle =>
    exact Or.inr ⟨values, hne, Group.ofElements_occulting values⟩

theorem shapeFault?_of_flashes (hrhythm : rhythm = .occulting) (h : group.Flashes) :
    shapeFault? group rhythm = none ∧ ∀ n ∈ group.values, n ≤ 99 := by
  subst hrhythm
  cases h with
  | count hle => exact ⟨rfl, List.forall_mem_singleton.2 hle⟩
  | composite hlength hle => exact ⟨by simpa [shapeFault?] using hlength, hle⟩

end Shape

theorem BodyText.colors {r : Reading} {cs : List Char} (h : BodyText r cs) :
    ∃ before codes, cs = before ++ codes ∧ ColorsText codes r.colors := by
  obtain ⟨-, -, -, -, -, -, -, -, hcolors⟩ := h
  exact ⟨_, _, rfl, hcolors⟩

/-- The colours of a reading stand in the text, one after the other. -/
theorem Written.colors {r : Reading} {cs : List Char} (h : Written r cs) :
    ∃ before codes after, cs = before ++ codes ++ after ∧ ColorsText codes r.colors := by
  cases h with
  | untimed hcs hperiod =>
    obtain ⟨before, codes, rfl, hcodes⟩ := hcs.colors
    exact ⟨before, codes, [], (List.append_nil _).symm, hcodes⟩
  | @timed body a numeral b decimal hbody ha hlongest hnumeral hb hperiod hrange =>
    obtain ⟨before, codes, rfl, hcodes⟩ := hbody.colors
    exact ⟨before, codes, a ++ numeral ++ b ++ ['S'], by simp only [List.append_assoc], hcodes⟩

namespace Characteristic

theorem fault?_eq_none_iff_shape (light : Characteristic) :
    light.fault? = none ↔ InHour light.period ∧ (∀ n ∈ light.group.values, n ≤ 99) ∧
      shapeFault? light.group light.rhythm = none := by
  simp only [fault?, Option.or_eq_none_iff, Option.map_eq_none_iff, periodFault?_eq_none_iff,
    List.find?_eq_none, decide_eq_true_eq, not_lt]
  rfl

/-- The rules allow what a text can say and, on an occulting light, numbers of flashes. -/
theorem fault?_eq_none_iff (light : Characteristic) :
    light.fault? = none ↔ InHour light.period ∧
      (light.group.Suits light.rhythm ∨ light.rhythm = .occulting ∧ light.group.Flashes) := by
  rw [fault?_eq_none_iff_shape, and_congr_right_iff]
  rintro -
  constructor
  · rintro ⟨hle, hshape⟩
    exact suits_or_flashes_of_shapeFault? hshape hle
  · rintro (hsuits | ⟨hrhythm, hflashes⟩)
    · exact (shapeFault?_of_suits hsuits).symm
    · exact (shapeFault?_of_flashes hrhythm hflashes).symm

theorem Readable.fault? {light : Characteristic} (h : light.Readable) : light.fault? = none :=
  (fault?_eq_none_iff light).2 ⟨h.period, Or.inl h.group⟩

/-- A light that is read keeps all rules. Its group is the one its rhythm takes: eclipses or none on an
occulting light, a letter on a Morse light and on no other. Where it has a second colour, the text
has both, the main one first. -/
theorem readWith_wellFormed {text : String} {defaultPeriod : Binary64} {light : Characteristic}
    (h : readWith defaultPeriod text = .ok light) :
    light.fault? = none ∧
    (light.rhythm = .occulting →
      light.group = .single ∨ ∃ seconds, seconds ≠ [] ∧ light.group = .eclipses seconds) ∧
    ((∃ c, light.group = .letter c) ↔ light.rhythm = .morse) ∧
    ∀ alt, light.altColor = some alt → ∃ before codes after more,
      normalize text.toList = before ++ codes ++ after ∧
        ColorsText codes (light.color :: alt :: more) := by
  have hreadable := readable_of_readWith h
  refine ⟨hreadable.fault?, fun hocculting => ?_, hreadable.group.letter_iff, fun alt halt => ?_⟩
  · exact (hocculting ▸ hreadable.group).of_occulting
  · obtain ⟨-, r, hr, rfl⟩ := readWith_eq_ok_iff.1 h
    obtain ⟨before, codes, after, htext, hcodes⟩ := hr.colors
    have hsecond : r.colors[1]? = some alt := halt
    match hcolors : r.colors, hsecond with
    | first :: second :: more, hsecond =>
      obtain rfl : second = alt := by simpa using hsecond
      have hfirst : (r.characteristic defaultPeriod).color = first := by
        simp [Reading.characteristic, hcolors]
      rw [hcolors] at hcodes
      exact ⟨before, codes, after, more, htext, hfirst ▸ hcodes⟩

/-- Two eclipses and two sector colours. -/
theorem readWith_wellFormed_eclipses :
    ∃ light, read "Oc. (3+1) W-R 10s" = .ok light ∧ light.fault? = none ∧
      light.group = .eclipses [3, 1] ∧ light.altColor = some .red ∧
      ∃ before codes after more, normalize "Oc. (3+1) W-R 10s".toList = before ++ codes ++ after ∧
        ColorsText codes (.white :: .red :: more) := by
  have hread : read "Oc. (3+1) W-R 10s" =
      .ok ⟨.occulting, .eclipses [3, 1], .white, some .red, Binary64.ofNat 10, false⟩ := by
    decide +kernel
  obtain ⟨hvalid, -, -, hcolors⟩ := readWith_wellFormed hread
  exact ⟨_, hread, hvalid, rfl, rfl, hcolors .red rfl⟩

end Characteristic

end ChartLight

import ChartLight.Characteristic.Reading
import ChartLight.Proofs.Clipping
import ChartLight.Proofs.Flashes
import ChartLight.Proofs.Lengths

/-! Whether the flashes of a light stay apart. Composite groups and quick rhythms have darkness behind
every flash. The flashes of other rhythms and the marks of a Morse letter have it only between them,
and what follows the last is left to the darkness that fills the period: where there is nothing to
fill, the last flash and the first of the next cycle are one. -/

namespace ChartLight

open Number

/-- No lit segment comes right after a lit one. -/
def Apart (segments : List Segment) : Prop :=
  segments.IsChain fun s t => s.lit = true → t.lit = false

instance : DecidablePred Apart := fun segments =>
  inferInstanceAs (Decidable (segments.IsChain fun s t => s.lit = true → t.lit = false))

/-- A cycle played over and over. -/
def Cycle.rounds (cycle : Cycle) (n : Nat) : List Segment := (List.replicate n cycle.segments).flatten

/-- How often the light comes on that is `lit` before. -/
def onsets (lit : Bool) : List Segment → Nat
  | [] => 0
  | s :: rest => (if s.lit && !lit then 1 else 0) + onsets s.lit rest

section Apart

theorem apart_append {a b : List Segment} :
    Apart (a ++ b) ↔
      Apart a ∧ Apart b ∧ ∀ s ∈ a.getLast?, ∀ t ∈ b.head?, s.lit = true → t.lit = false :=
  List.isChain_append

/-- Apart, and dark in the end. -/
structure Shut (segments : List Segment) : Prop where
  apart : Apart segments
  last : ∀ s ∈ segments.getLast?, s.lit = false

theorem Shut.nil : Shut [] := ⟨List.isChain_nil, fun s hs => by cases hs⟩

theorem Shut.pair (lamp : Lamp) (litMs darkMs : Nat) : Shut [lamp.on litMs, lamp.off darkMs] :=
  ⟨List.isChain_pair.2 fun _ => rfl, fun s hs => by cases hs; rfl⟩

theorem Apart.shut_off {l : List Segment} (h : Apart l) (lamp : Lamp) (darkMs : Nat) :
    Shut (l ++ [lamp.off darkMs]) := by
  refine ⟨apart_append.2 ⟨h, List.isChain_singleton _, ?_⟩, fun s hs => ?_⟩
  · rintro s - t ht -
    cases ht
    rfl
  · rw [List.getLast?_concat] at hs
    cases hs
    rfl

theorem Shut.append {a b : List Segment} (ha : Shut a) (hb : Shut b) : Shut (a ++ b) := by
  refine ⟨apart_append.2 ⟨ha.apart, hb.apart, fun s hs t _ hlit => ?_⟩, fun s hs => ?_⟩
  · rw [ha.last s hs] at hlit
    cases hlit
  · rw [Option.mem_def, List.getLast?_append, Option.or_eq_some_iff] at hs
    rcases hs with hs | ⟨-, hs⟩
    · exact hb.last s hs
    · exact ha.last s hs

theorem Shut.flatten {parts : List (List Segment)} (h : ∀ l ∈ parts, Shut l) : Shut parts.flatten := by
  induction parts with
  | nil => exact Shut.nil
  | cons l parts ih =>
    obtain ⟨hl, hparts⟩ := List.forall_mem_cons.1 h
    exact hl.append (ih hparts)

theorem Shut.flatten_replicate {l : List Segment} (h : Shut l) (n : Nat) :
    Shut (List.replicate n l).flatten :=
  Shut.flatten fun _ hl => List.eq_of_mem_replicate hl ▸ h

theorem Shut.composite (lamp : Lamp) (parts : List Nat) : Shut (lamp.composite parts) := by
  refine Shut.flatten fun l hl => ?_
  rcases mem_intersperse hl with rfl | hpart
  · exact ⟨List.isChain_singleton _, fun s hs => by cases hs; rfl⟩
  · obtain ⟨n, -, rfl⟩ := List.mem_map.1 hpart
    exact (Shut.pair lamp 500 500).flatten_replicate _

theorem head?_intersperse {α : Type} (sep : α) (l : List α) : (l.intersperse sep).head? = l.head? := by
  cases l with
  | nil => rfl
  | cons a rest => cases rest <;> rfl

theorem intersperse_ne_nil {α : Type} (sep : α) {l : List α} (h : l ≠ []) : l.intersperse sep ≠ [] := by
  intro hnil
  have hhead := head?_intersperse sep l
  rw [hnil, List.head?_nil] at hhead
  exact h (List.head?_eq_none_iff.1 hhead.symm)

theorem getLast?_intersperse {α : Type} (sep : α) (l : List α) :
    (l.intersperse sep).getLast? = l.getLast? := by
  induction l using List.intersperse.induct with
  | case1 => rfl
  | case2 a => rfl
  | case3 a rest hne ih =>
    obtain ⟨b, rest, rfl⟩ : ∃ b r, rest = b :: r := List.exists_cons_of_ne_nil hne
    rw [List.intersperse_cons_cons, List.getLast?_cons, List.getLast?_cons, ih]
    simp only [List.getLast?_cons, Option.getD_some]

/-- Darkness put between segments keeps them apart, whatever they are. -/
theorem apart_intersperse {sep : Segment} (h : sep.lit = false) (l : List Segment) :
    Apart (l.intersperse sep) := by
  induction l using List.intersperse.induct with
  | case1 => exact List.isChain_nil
  | case2 a => exact List.isChain_singleton a
  | case3 a rest hne ih =>
    obtain ⟨b, rest, rfl⟩ : ∃ b r, rest = b :: r := List.exists_cons_of_ne_nil hne
    rw [List.intersperse_cons_cons]
    refine List.isChain_cons_cons.2 ⟨fun _ => h, List.isChain_cons.2 ⟨fun t _ hsep => ?_, ih⟩⟩
    rw [h] at hsep
    cases hsep

theorem Cycle.rounds_succ (cycle : Cycle) (n : Nat) :
    cycle.rounds (n + 1) = cycle.segments ++ cycle.rounds n := by
  rw [rounds, List.replicate_succ, List.flatten_cons, ← rounds]

theorem Cycle.length_rounds (cycle : Cycle) (n : Nat) :
    (cycle.rounds n).length = n * cycle.segments.length := by
  rw [rounds, List.length_flatten, List.map_replicate, List.sum_replicate, smul_eq_mul]

/-- Rounds of a cycle are apart if one is, and the end of one from the beginning of the next. -/
theorem apart_rounds_iff (cycle : Cycle) :
    (∀ n, Apart (cycle.rounds n)) ↔ Apart cycle.segments ∧
      ∀ s ∈ cycle.segments.getLast?, ∀ t ∈ cycle.segments.head?, s.lit = true → t.lit = false := by
  constructor
  · intro h
    have hnone : cycle.rounds 0 = [] := rfl
    have htwo := h 2
    rw [cycle.rounds_succ, cycle.rounds_succ, hnone, List.append_nil] at htwo
    obtain ⟨hone, -, hseam⟩ := apart_append.1 htwo
    exact ⟨hone, hseam⟩
  · rintro ⟨hone, hseam⟩ n
    induction n with
    | zero => exact List.isChain_nil
    | succ n ih =>
      rw [cycle.rounds_succ]
      refine apart_append.2 ⟨hone, ih, fun s hs t ht => hseam s hs t ?_⟩
      -- the next round begins as every round does
      cases n with
      | zero => cases ht
      | succ n =>
        obtain ⟨u, hu⟩ : ∃ u, cycle.segments.head? = some u := by
          refine Option.ne_none_iff_exists'.1 fun hnil => ?_
          rw [List.head?_eq_none_iff.1 hnil] at hs
          cases hs
        rw [Option.mem_def, cycle.rounds_succ, List.head?_append, hu] at ht
        rwa [Option.mem_def, hu]

/-- Of segments that are apart, each lit one is seen by itself. -/
theorem onsets_eq_of_apart {segments : List Segment} {lit : Bool} (h : Apart segments)
    (hfirst : lit = true → ∀ s ∈ segments.head?, s.lit = false) :
    onsets lit segments = (segments.filter (·.lit)).length := by
  induction segments generalizing lit with
  | nil => rfl
  | cons s rest ih =>
    obtain ⟨hnext, hrest⟩ := List.isChain_cons.1 h
    rw [onsets, ih hrest fun hs t ht => hnext t ht hs]
    cases hs : s.lit with
    | false => simp [hs]
    | true =>
      have hdark : lit = false := by
        by_contra hlit
        rw [Bool.not_eq_false] at hlit
        rw [hfirst hlit s rfl] at hs
        cases hs
      simp [hs, hdark, Nat.add_comm]

theorem Shut.rounds {cycle : Cycle} (h : Shut cycle.segments) (n : Nat) : Apart (cycle.rounds n) := by
  refine (apart_rounds_iff cycle).2 ⟨h.apart, fun s hs t _ hlit => ?_⟩ n
  rw [h.last s hs] at hlit
  cases hlit

theorem length_filter_rounds (cycle : Cycle) (n : Nat) :
    ((cycle.rounds n).filter (·.lit)).length = n * (cycle.segments.filter (·.lit)).length := by
  rw [Cycle.rounds, List.filter_flatten, List.length_flatten, List.map_map, List.map_replicate,
    List.sum_replicate, smul_eq_mul]
  rfl

end Apart

namespace Characteristic

variable {light : Characteristic}

/-- Darkness of its own stands behind each flash of a composite group and of a quick rhythm. -/
def EndsDark (light : Characteristic) : Prop :=
  (∃ parts, light.group = .composite parts) ∨ light.rhythm.quickRate?.isSome = true

/-- A light of separate flashes, be it by its group or by its rhythm. -/
def ShowsFlashes (light : Characteristic) : Prop :=
  light.EndsDark ∨ light.rhythm = .flashing ∨ light.rhythm = .longFlashing ∨ light.rhythm = .morse

section Rhythm

theorem le_quickRate? {rhythm : Rhythm} {rate : Nat} (h : rhythm.quickRate? = some rate) :
    250 ≤ rate := by
  cases rhythm <;> cases h <;> decide

/-- What a light whose flashes end dark is made of. -/
theorem EndsDark.rhythmPattern_cases (h : light.EndsDark) :
    (∃ parts, light.group = .composite parts ∧ light.rhythmPattern = light.lamp.composite parts) ∨
      ∃ rate, 250 ≤ rate ∧
        light.rhythmPattern = light.lamp.quickFlashes (light.quickCount rate) rate := by
  by_cases hcomposite : ∃ parts, light.group = .composite parts
  · obtain ⟨parts, hparts⟩ := hcomposite
    exact Or.inl ⟨parts, hparts, rhythmPattern_composite hparts⟩
  · obtain ⟨rate, hrate⟩ := Option.isSome_iff_exists.1 (h.resolve_left hcomposite)
    push Not at hcomposite
    exact Or.inr ⟨rate, le_quickRate? hrate, rhythmPattern_quick hcomposite hrate⟩

theorem EndsDark.shut (h : light.EndsDark) : Shut light.rhythmPattern := by
  rcases h.rhythmPattern_cases with ⟨parts, -, hpattern⟩ | ⟨rate, -, hpattern⟩
  · exact hpattern ▸ Shut.composite light.lamp parts
  · exact hpattern ▸ (Shut.pair light.lamp _ _).flatten_replicate _

/-- The other flashes and marks have darkness between them only. -/
theorem ShowsFlashes.marks (h : light.ShowsFlashes) (hopen : ¬light.EndsDark) :
    ∃ (marks : List Segment) (gapMs : Nat),
      light.rhythmPattern = marks.intersperse (light.lamp.off gapMs) ∧ 0 < gapMs ∧
      ∀ s ∈ marks, s.lit = true ∧ 0 < s.durationMs := by
  have hflash (n ms : Nat) (hms : 0 < ms) :
      ∀ s ∈ List.replicate n (light.lamp.on ms), s.lit = true ∧ 0 < s.durationMs :=
    fun s hs => List.eq_of_mem_replicate hs ▸ ⟨rfl, hms⟩
  unfold rhythmPattern
  split
  · next parts hparts => exact absurd (Or.inl ⟨parts, hparts⟩) hopen
  · rcases h.resolve_left hopen with hrhythm | hrhythm | hrhythm
    · rw [hrhythm]
      exact ⟨_, 1000, rfl, by decide, hflash _ 500 (by decide)⟩
    · rw [hrhythm]
      exact ⟨_, 2000, rfl, by decide, hflash _ 2000 (by decide)⟩
    · rw [hrhythm]
      refine ⟨_, 300, rfl, by decide, fun s hs => ?_⟩
      obtain ⟨symbol, -, rfl⟩ := List.mem_map.1 hs
      cases symbol with
      | dot => exact ⟨rfl, Nat.succ_pos _⟩
      | dash => exact ⟨rfl, Nat.succ_pos _⟩

theorem ShowsFlashes.apart (h : light.ShowsFlashes) : Apart light.rhythmPattern := by
  by_cases hdark : light.EndsDark
  · exact hdark.shut.apart
  · obtain ⟨marks, gapMs, hpattern, -⟩ := h.marks hdark
    exact hpattern ▸ apart_intersperse rfl marks

/-- Where darkness stands only between flashes, the first and the last segment are flashes. -/
theorem ShowsFlashes.lit_of_edge (h : light.ShowsFlashes) (hopen : ¬light.EndsDark) {s : Segment}
    (hs : s ∈ light.rhythmPattern.head? ∨ s ∈ light.rhythmPattern.getLast?) : s.lit = true := by
  obtain ⟨marks, gapMs, hpattern, -, hmarks⟩ := h.marks hopen
  rw [hpattern, head?_intersperse, getLast?_intersperse] at hs
  rcases hs with hs | hs
  · exact (hmarks s (List.mem_of_head? hs)).1
  · exact (hmarks s (List.mem_of_getLast? hs)).1

theorem ShowsFlashes.pos (h : light.ShowsFlashes) : ∀ s ∈ light.rhythmPattern, 0 < s.durationMs := by
  intro s hs
  by_cases hdark : light.EndsDark
  · rcases hdark.rhythmPattern_cases with ⟨parts, -, hpattern⟩ | ⟨rate, hrate, hpattern⟩
    · rw [hpattern] at hs
      rcases mem_composite hs with rfl | rfl | rfl <;> simp
    · rw [hpattern] at hs
      rcases mem_quickFlashes hs with rfl | rfl <;> simp <;> omega
  · obtain ⟨marks, gapMs, hpattern, hgap, hmarks⟩ := h.marks hdark
    rw [hpattern] at hs
    rcases mem_intersperse hs with rfl | hmark
    · exact hgap
    · exact (hmarks s hmark).2

theorem ShowsFlashes.pattern_eq (h : light.ShowsFlashes) :
    light.pattern = light.rhythmPattern ++ light.tailPattern := by
  rw [pattern, List.filter_eq_self]
  intro s hs
  rw [decide_eq_true_eq]
  rcases List.mem_append.1 hs with hrhythm | htail
  · exact h.pos s hrhythm
  · unfold tailPattern at htail
    split_ifs at htail
    · rw [List.mem_singleton.1 htail]
      exact Nat.succ_pos _
    · cases htail

end Rhythm

theorem cycle_extend_of_lt (h : totalMs light.pattern < light.periodMs) :
    (light.cycle .extend).segments =
      light.pattern ++ [light.lamp.off (light.periodMs - totalMs light.pattern)] := by
  simp only [cycle, if_pos h]

/-- The flashes of a cycle stay apart for ever, and each is seen as one, just if they end dark or leave
something of the period. -/
theorem flashes_stay_apart_iff (htail : light.longFlashTail = false) (hflashes : light.ShowsFlashes) :
    let cycle := light.cycle .extend
    ((∀ n, Apart (cycle.rounds n)) ↔ light.EndsDark ∨ totalMs light.pattern < light.periodMs) ∧
    ((∀ n, Apart (cycle.rounds n)) →
      ∀ n, onsets false (cycle.rounds n) = n * (cycle.segments.filter (·.lit)).length) := by
  intro cycle
  have hpattern : light.pattern = light.rhythmPattern := by
    rw [hflashes.pattern_eq, tailPattern, htail, if_neg Bool.false_ne_true, List.append_nil]
  refine ⟨⟨fun hapart => ?_, fun hend => ?_⟩, fun hapart n => ?_⟩
  · by_contra hmeet
    obtain ⟨hopen, hfull⟩ := not_or.1 hmeet
    have hsegments : cycle.segments = light.rhythmPattern := by
      rw [← hpattern]
      exact cycle_extend_of_le (not_lt.1 hfull)
    -- the period is not nothing, so there are flashes, and they fill it from its beginning to its end
    have hne : light.rhythmPattern ≠ [] := by
      rw [← hsegments]
      exact light.cycle_ne_nil .extend
    have hseam := ((apart_rounds_iff cycle).1 hapart).2
    rw [hsegments] at hseam
    have hlast := List.getLast?_eq_some_getLast hne
    have hhead := List.head?_eq_some_head hne
    have hdark := hseam _ hlast _ hhead (hflashes.lit_of_edge hopen (Or.inr hlast))
    rw [hflashes.lit_of_edge hopen (Or.inl hhead)] at hdark
    cases hdark
  · refine Shut.rounds ?_
    by_cases hshort : totalMs light.pattern < light.periodMs
    · rw [cycle_extend_of_lt hshort, hpattern]
      exact hflashes.apart.shut_off light.lamp _
    · rw [cycle_extend_of_le (not_lt.1 hshort), hpattern]
      exact (hend.resolve_right hshort).shut
  · rw [onsets_eq_of_apart (hapart n) fun hlit => by cases hlit]
    exact length_filter_rounds cycle n

/-- Two flashes leave eight of ten seconds dark, so two are seen every time. -/
theorem flashes_stay_apart_two :
    let cycle := cycle { ofRhythm .flashing with group := .count 2 } .extend
    (∀ n, Apart (cycle.rounds n)) ∧ ∀ n, onsets false (cycle.rounds n) = n * 2 := by
  intro cycle
  have hrun : totalMs (pattern { ofRhythm .flashing with group := .count 2 }) <
      periodMs { ofRhythm .flashing with group := .count 2 } ∧
      (cycle.segments.filter (·.lit)).length = 2 := by
    decide +kernel
  obtain ⟨hapart, hseen⟩ := @flashes_stay_apart_iff
    { ofRhythm .flashing with group := .count 2 } rfl (Or.inr (Or.inl rfl))
  have hleft := hapart.2 (Or.inr hrun.1)
  exact ⟨hleft, fun n => hrun.2 ▸ hseen hleft n⟩

/-- A flash as long as its period leaves nothing of it: the light is steady. -/
theorem not_forall_flashes_stay_apart :
    ¬ ∀ (text : String) (light : Characteristic), read text = .ok light →
      light.longFlashTail = false → light.ShowsFlashes → (light.cycle .extend).overruns = false →
      ∀ n, Apart ((light.cycle .extend).rounds n) := by
  intro hall
  let light : Characteristic := { ofRhythm .flashing with period := Binary64.ofRatio false 1 2 }
  have hrun : read "Fl 0.5s" = .ok light ∧ (light.cycle .extend).overruns = false ∧
      ¬Apart ((light.cycle .extend).rounds 2) := by
    decide +kernel
  exact hrun.2.2 (hall _ light hrun.1 rfl (Or.inr (Or.inl rfl)) hrun.2.1 2)

end Characteristic

end ChartLight

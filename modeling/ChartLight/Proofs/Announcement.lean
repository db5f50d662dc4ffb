import ChartLight.Proofs.LongFlash
import ChartLight.Proofs.Prose

/-! The number of flashes that the prose on a light announces, and the number that its cycle shows. The
prose is read as a reader would: the numbers count that stand in a clause on flashes. On every rhythm
composite groups show as many flashes as are announced, and so does a number of flashes on a rhythm of
flashes. Rhythms that have no separate flashes are told with a number and shown without, and so is no
flash at all. -/

namespace ChartLight

open Number Text

/-- The numbers that are written in a text. -/
def numbersIn (cs : List Char) : List Nat :=
  ((cs.splitOnP (!·.isDigit)).filter (!·.isEmpty)).map (Nat.ofDigitChars 10 · 0)

/-- The word for a flash. -/
def Language.flash : Language → List Char
  | .english => "flash".toList
  | .french => "éclat".toList

/-- The flashes that a sentence announces: the numbers in its clauses on flashes, added up. -/
def announced (language : Language) (cs : List Char) : Nat :=
  total (((cs.splitOn ',').filter (language.flash <:+: ·)).flatMap numbersIn)

/-- One number of flashes or several. -/
def Group.TellsFlashes (group : Group) : Prop :=
  (∃ n, group = .count n) ∨ ∃ parts, group = .composite parts

/-- Whether the numbers of a group are those of the flashes shown: not zero flashes of one group, nor any
number of them on a rhythm without separate flashes. -/
def Characteristic.CountsFlashes (light : Characteristic) : Prop :=
  (∃ parts, light.group = .composite parts) ∨
    light.rhythm.flash?.isSome = true ∧ light.group ≠ .count 0

section Numbers

def digitless (cs : List Char) : Bool := cs.all (!·.isDigit)

@[simp] theorem digitless_nil : digitless [] = true := rfl

@[simp] theorem digitless_cons (c : Char) (cs : List Char) :
    digitless (c :: cs) = (!c.isDigit && digitless cs) := List.all_cons

@[simp] theorem digitless_append (a b : List Char) :
    digitless (a ++ b) = (digitless a && digitless b) := List.all_append

/-- As with `not_mem_literal`, a literal is not decoded for this. -/
theorem digitless_literal {cs : List Char} (h : digitless cs = true) :
    digitless (String.ofList cs).toList = true := by
  rwa [String.toList_ofList]

theorem digitless_of_subset {a b : List Char} (h : a ⊆ b) (hb : digitless b = true) :
    digitless a = true := by
  rw [digitless, List.all_eq_true] at hb ⊢
  exact fun c hc => hb c (h hc)

theorem numbersIn_cons {c : Char} (hc : c.isDigit = false) (cs : List Char) :
    numbersIn (c :: cs) = numbersIn cs := by
  simp [numbersIn, List.splitOnP_cons_eq_if_modifyHead, hc]

theorem numbersIn_append {a : List Char} (ha : digitless a = true) (cs : List Char) :
    numbersIn (a ++ cs) = numbersIn cs := by
  induction a with
  | nil => rfl
  | cons c a ih =>
    rw [digitless_cons, Bool.and_eq_true, Bool.not_eq_true'] at ha
    rw [List.cons_append, numbersIn_cons ha.1, ih ha.2]

theorem numbersIn_of_digitless {cs : List Char} (h : digitless cs = true) : numbersIn cs = [] := by
  have happend := numbersIn_append h []
  rw [List.append_nil] at happend
  exact happend

theorem numbersIn_toDigits_append (n : Nat) {c : Char} (hc : c.isDigit = false) (cs : List Char) :
    numbersIn (Nat.toDigits 10 n ++ c :: cs) = n :: numbersIn cs := by
  have hdigits : ∀ d ∈ Nat.toDigits 10 n, (!d.isDigit) = false := by
    simpa using (digits_toDigits n).isDigit
  simp [numbersIn, List.splitOnP_append_cons_of_forall_mem hdigits c (by simp [hc]),
    Nat.toDigits_ne_nil, Nat.ofDigitChars_ten_toDigits]

theorem numbersIn_sumText_append {values : List Nat} (hne : values ≠ []) {c : Char}
    (hc : c.isDigit = false) (cs : List Char) :
    numbersIn ((sumText values).toList ++ c :: cs) = values ++ numbersIn cs := by
  induction values with
  | nil => exact absurd rfl hne
  | cons n values ih =>
    cases values with
    | nil => rw [sumText_singleton, numbersIn_toDigits_append n hc]; rfl
    | cons m values =>
      rw [sumText_cons_cons, List.append_assoc, List.cons_append, List.cons_append, List.cons_append,
        numbersIn_toDigits_append n rfl, numbersIn_cons rfl, numbersIn_cons rfl,
        ih (List.cons_ne_nil m values)]
      rfl

end Numbers

section Clauses

variable {language : Language}

theorem subset_of_mem_splitOn {sep : Char} {cs clause : List Char} (h : clause ∈ cs.splitOn sep) :
    clause ⊆ cs := by
  induction cs generalizing clause with
  | nil =>
    rw [List.splitOn_nil, List.mem_singleton] at h
    exact h ▸ List.Subset.refl []
  | cons c cs ih =>
    obtain ⟨first, rest, hrest⟩ := List.exists_cons_of_ne_nil (List.splitOn_ne_nil sep cs)
    rw [List.splitOn_cons_eq_if_modifyHead] at h
    split_ifs at h
    · rcases List.mem_cons.1 h with rfl | h
      · exact List.nil_subset _
      · exact List.Subset.trans (ih h) (List.subset_cons_self c cs)
    · rw [hrest, List.modifyHead_cons, List.mem_cons] at h
      rcases h with rfl | h
      · exact List.cons_subset_cons c (ih (hrest ▸ List.mem_cons_self))
      · have hlater := ih (hrest ▸ List.mem_cons_of_mem first h)
        exact List.Subset.trans hlater (List.subset_cons_self c cs)

theorem announced_append (a b : List Char) :
    announced language (a ++ ',' :: b) = announced language a + announced language b := by
  rw [announced, List.splitOn_append_cons_self, List.filter_append, List.flatMap_append, total_append]
  rfl

/-- Clauses without numbers announce nothing. -/
theorem announced_of_digitless {cs : List Char} (h : digitless cs = true) :
    announced language cs = 0 := by
  have hnone : ((cs.splitOn ',').filter (language.flash <:+: ·)).flatMap numbersIn = [] := by
    rw [List.flatMap_eq_nil_iff]
    intro clause hclause
    have hsubset := subset_of_mem_splitOn (List.mem_filter.1 hclause).1
    exact numbersIn_of_digitless (digitless_of_subset hsubset h)
  rw [announced, hnone]
  rfl

/-- And so do those on something else. -/
theorem announced_of_not_mem {c : Char} (hc : c ∈ language.flash) {cs : List Char} (h : c ∉ cs) :
    announced language cs = 0 := by
  have hnone : (cs.splitOn ',').filter (language.flash <:+: ·) = [] := by
    rw [List.filter_eq_nil_iff]
    intro clause hclause hflash
    exact h (subset_of_mem_splitOn hclause ((of_decide_eq_true hflash).subset hc))
  rw [announced, hnone]
  rfl

theorem announced_clause {cs : List Char} (hcomma : ',' ∉ cs) (hflash : language.flash <:+: cs) :
    announced language cs = total (numbersIn cs) := by
  simp [announced, List.splitOn_eq_singleton hcomma, hflash]

end Clauses

section Words

/-- The words before the numbers of flashes, where there is one number and where there are several. -/
def flashStart : Language → Bool → List Char
  | .english, false => " group of ".toList
  | .english, true => " composite group of ".toList
  | .french, false => " groupe de ".toList
  | .french, true => " groupe composé de ".toList

/-- The words behind them, for one flash and for more, long ones or others. -/
def flashNoun : Language → Bool → Bool → List Char
  | .english, one, long =>
    (if long then "long " else "").toList ++ (if one then "flash" else "flashes").toList
  | .french, one, long =>
    (if one then "éclat" else "éclats").toList ++
      (if long then (if one then " long" else " longs") else "").toList

/-- A clause on flashes. -/
def flashClause (language : Language) (several one long : Bool) (values : List Nat) : List Char :=
  flashStart language several ++ ((sumText values).toList ++ ' ' :: flashNoun language one long)

theorem words_count_eq (language : Language) (rhythm : Rhythm) (n : Nat) :
    (Group.count n).words language rhythm =
      ',' :: flashClause language false (n = 1) (rhythm = .longFlashing) [n] := by
  unfold flashClause
  rw [sumText_singleton]
  cases language <;> unfold Group.words Group.english Group.french flashStart flashNoun <;>
    by_cases hone : n = 1 <;> by_cases hlong : rhythm = .longFlashing <;> simp [hone, hlong]

theorem words_composite_eq (language : Language) (rhythm : Rhythm) (parts : List Nat) :
    (Group.composite parts).words language rhythm =
      ',' :: flashClause language true false false parts := by
  unfold flashClause
  cases language <;> unfold Group.words Group.english Group.french flashStart flashNoun <;> simp

theorem flashStart_plain (language : Language) (several : Bool) :
    digitless (flashStart language several) = true ∧ ',' ∉ flashStart language several := by
  cases language <;> cases several <;> decide

theorem flashNoun_plain (language : Language) (one long : Bool) :
    digitless (flashNoun language one long) = true ∧ ',' ∉ flashNoun language one long ∧
      language.flash <:+: flashNoun language one long := by
  cases language <;> cases one <;> cases long <;> decide

/-- A clause on flashes announces its numbers. -/
theorem announced_flashClause (language : Language) (several one long : Bool) {values : List Nat}
    (hne : values ≠ []) :
    announced language (flashClause language several one long values) = total values := by
  obtain ⟨hstart, hcomma⟩ := flashStart_plain language several
  obtain ⟨hnoun, hcomma', hflash⟩ := flashNoun_plain language one long
  have hsum := comma_not_mem_sumText values
  have hfound : language.flash <:+: flashClause language several one long values := by
    refine hflash.trans ⟨flashStart language several ++ ((sumText values).toList ++ [' ']), [], ?_⟩
    simp [flashClause]
  rw [announced_clause (by simp [flashClause, hcomma, hcomma', hsum]) hfound, flashClause,
    numbersIn_append hstart, numbersIn_sumText_append hne rfl, numbersIn_of_digitless hnoun,
    List.append_nil]

theorem Color.names_digitless (c : Color) : digitless c.capitalized.toList = true ∧
    digitless c.name.toList = true ∧ digitless c.french.toList = true := by
  refine ⟨?_, ?_, ?_⟩ <;> cases c <;> exact digitless_literal (by decide)

theorem Rhythm.names_digitless (r : Rhythm) :
    digitless r.english.toList = true ∧ digitless r.french.toList = true := by
  constructor <;> cases r <;> exact digitless_literal (by decide)

theorem digitless_opening (language : Language) (light : Characteristic) :
    digitless (light.opening language).toList = true := by
  have hcolor := light.color.names_digitless
  have hrhythm := light.rhythm.names_digitless
  rcases light.colors_cases with ⟨alt, halternating, halt⟩ | halt
  · have hsecond := alt.names_digitless
    rw [Characteristic.opening_pair language halternating halt]
    unfold pairWords
    cases language <;> simp [hcolor, hsecond]
  · rw [Characteristic.opening_plain language halt]
    cases language with
    | english => simp [plainWords, hcolor, hrhythm]
    | french =>
      by_cases hmorse : light.rhythm = .morse
      · simp [hmorse, plainWords, hcolor]
      · simp [plainWords_french hmorse, hcolor, hrhythm]

/-- Nothing about flashes is said of the period. -/
theorem l_not_mem_periodWords (language : Language) {p : Binary64} (hp : InHour p) :
    'l' ∉ periodWords language p := by
  have hseconds : 'l' ∉ (secondsText p).toList := not_mem_secondsText hp rfl
  unfold periodWords
  cases language with
  | english => simp [hseconds]
  | french =>
    have hcomma : ∀ c ∈ (secondsText p).toList, (if c = '.' then ',' else c) ≠ 'l' := by
      intro c hc hl
      split_ifs at hl
      · cases hl
      · exact hseconds (hl ▸ hc)
    simpa using hcomma

end Words

namespace Group

theorem TellsFlashes.words_eq {group : Group} (h : group.TellsFlashes) (language : Language)
    (rhythm : Rhythm) : ∃ several one long,
      group.words language rhythm = ',' :: flashClause language several one long group.values := by
  rcases h with ⟨n, rfl⟩ | ⟨parts, rfl⟩
  · exact ⟨_, _, _, words_count_eq language rhythm n⟩
  · exact ⟨_, _, _, words_composite_eq language rhythm parts⟩

end Group

namespace Characteristic

variable {light : Characteristic}

theorem values_ne_nil (hvalid : light.fault? = none) (hgroup : light.group.TellsFlashes) :
    light.group.values ≠ [] := by
  rcases hgroup with ⟨n, hn⟩ | ⟨parts, hparts⟩
  · rw [hn]
    exact List.cons_ne_nil n []
  · have hne := composite_ne_nil hvalid hparts
    rw [hparts]
    rintro (hnil : parts = [])
    rw [hnil] at hne
    exact hne rfl

/-- The prose announces the numbers of the group. -/
theorem announced_prose (language : Language) (hvalid : light.fault? = none)
    (htail : light.longFlashTail = false) (hgroup : light.group.TellsFlashes) :
    announced language (light.prose language).toList = total light.group.values := by
  obtain ⟨several, one, long, hwords⟩ := hgroup.words_eq language light.rhythm
  have hhour := ((fault?_eq_none_iff_shape light).1 hvalid).1
  have hperiod := l_not_mem_periodWords language hhour
  obtain ⟨c, -, rest, hrest⟩ :=
    follows_periodWords (List.mem_singleton_self 'p') language light.period
  have hl : 'l' ∈ language.flash := by cases language <;> decide
  have hlast : 'l' ∉ ' ' :: c :: rest := fun h => hperiod (hrest ▸ List.mem_cons_of_mem ',' h)
  have hnone : tailWords language false = [] := by cases language <;> rfl
  -- the commas before the group and before the period part the sentence in three
  rw [prose_eq, restWords, hwords, htail, hnone, List.nil_append, hrest, List.cons_append,
    announced_append, announced_append, announced_of_digitless (digitless_opening language light),
    announced_flashClause language several one long (values_ne_nil hvalid hgroup),
    announced_of_not_mem hl hlast]
  omega

/-- A sentence of a light of two flashes and one, with a decimal comma. -/
example : announced .french
    "Feu blanc scintillant, groupe composé de 2 + 1 éclats, période 2,5 s.".toList = 3 := by
  decide

section Shown

theorem countP_lit_part (lamp : Lamp) (n : Nat) : (lamp.part n).countP (·.lit) = n := by
  simp [Lamp.part, List.countP_flatten, List.countP_cons]

theorem countP_lit_composite (lamp : Lamp) {parts : List Nat} (h : ∀ n ∈ parts, n ≤ 99) :
    (lamp.composite parts).countP (·.lit) = total parts := by
  induction parts with
  | nil => rfl
  | cons n parts ih =>
    obtain ⟨hn, hparts⟩ := List.forall_mem_cons.1 h
    have hmin : min n Group.maxElement = n := Nat.min_eq_left hn
    cases parts with
    | nil => simp [Lamp.composite, hmin, countP_lit_part, total]
    | cons m parts =>
      rw [Lamp.composite_cons_cons, List.countP_append, List.countP_cons, ih hparts, hmin,
        countP_lit_part]
      rfl

theorem length_ofSegments (l : List Segment) : (Flash.ofSegments l).length = l.countP (·.lit) := by
  rw [← List.length_map Flash.litMs, Flash.map_litMs_ofSegments, List.length_map,
    List.countP_eq_length_filter]

theorem countP_lit_count {n flashMs gapMs : Nat} (htail : light.longFlashTail = false)
    (hgroup : light.group = .count n) (hpos : n ≠ 0) (hle : n ≤ 99)
    (hflash : light.rhythm.flash? = some (flashMs, gapMs)) :
    (light.cycle .extend).segments.countP (·.lit) = n := by
  obtain ⟨last, hrhythm, hlasting⟩ :=
    rhythmPattern_count hgroup (Nat.pos_of_ne_zero hpos) hle hflash
  obtain ⟨fill, hcycle⟩ := ofSegments_cycle htail hrhythm hlasting
  rw [← length_ofSegments, hcycle, ← List.length_map Flash.litMs, Flash.map_litMs_prolong,
    Flash.map_litMs_spaced, List.length_replicate]

theorem countP_lit_of_composite (htail : light.longFlashTail = false) {parts : List Nat}
    (hgroup : light.group = .composite parts) (hle : ∀ n ∈ parts, n ≤ 99) :
    (light.cycle .extend).segments.countP (·.lit) = total parts := by
  have hflashes : light.ShowsFlashes := Or.inl (Or.inl ⟨parts, hgroup⟩)
  rw [countP_lit_cycle, hflashes.pattern_eq, rhythmPattern_composite hgroup, tailPattern_eq_nil htail,
    List.append_nil, countP_lit_composite light.lamp hle]

/-- Such a light looks as if it had no group. -/
theorem cycle_of_not_countsFlashes (h : ¬light.CountsFlashes) (hgroup : light.group.TellsFlashes)
    (overrun : Overrun) : light.cycle overrun = { light with group := .single }.cycle overrun := by
  obtain ⟨hcomposite, hcount⟩ := not_or.1 h
  obtain ⟨n, hn⟩ := hgroup.resolve_right hcomposite
  refine cycle_congr (a := light) (b := { light with group := .single }) rfl rfl ?_ overrun
  obtain ⟨rhythm, group, color, altColor, period, tail⟩ := light
  dsimp only at hn hcount
  subst hn
  have hpattern : rhythmPattern ⟨rhythm, .count n, color, altColor, period, tail⟩ =
      rhythmPattern ⟨rhythm, .single, color, altColor, period, tail⟩ := by
    -- a rhythm either takes zero for no number, or does not look at the number
    by_cases hzero : n = 0
    · subst hzero
      cases rhythm <;> rfl
    · have hnone : rhythm.flash? = none := by simpa [hzero] using hcount
      cases rhythm <;> first | rfl | cases hnone
  unfold pattern
  rw [hpattern]
  rfl

end Shown

/-- The prose on a light with one number of flashes or several announces their sum, in either language.
The cycle shows as many lit segments where there are several numbers, or where there is one, not zero, on
a rhythm of separate flashes. Otherwise it is the cycle of the light without a group. -/
theorem announces_flashes {text : String} {defaultPeriod : Binary64}
    (hread : readWith defaultPeriod text = .ok light) (htail : light.longFlashTail = false)
    (hgroup : light.group.TellsFlashes) :
    let flashes := total light.group.values
    (∀ language, announced language (light.prose language).toList = flashes) ∧
    (light.CountsFlashes → (light.cycle .extend).segments.countP (·.lit) = flashes) ∧
    (¬light.CountsFlashes →
      light.cycle .extend = { light with group := .single }.cycle .extend) := by
  intro flashes
  have hvalid := (readable_of_readWith hread).fault?
  have hle := ((fault?_eq_none_iff_shape light).1 hvalid).2.1
  refine ⟨fun language => announced_prose language hvalid htail hgroup, fun hcounts => ?_,
    fun hcounts => cycle_of_not_countsFlashes hcounts hgroup .extend⟩
  rcases hgroup with ⟨n, hn⟩ | ⟨parts, hparts⟩
  · obtain ⟨hflash, hzero⟩ := hcounts.resolve_left (by simp [hn])
    obtain ⟨⟨flashMs, gapMs⟩, hflash⟩ := Option.isSome_iff_exists.1 hflash
    have hpos : n ≠ 0 := fun h => hzero (h ▸ hn)
    have hcount := countP_lit_count htail hn hpos (hle n (by simp [hn, Group.values])) hflash
    rw [hcount]
    simp [flashes, hn, Group.values, total]
  · have hcount := countP_lit_of_composite htail hparts (by simpa [hparts, Group.values] using hle)
    rw [hcount]
    simp [flashes, hparts, Group.values]

/-- Two flashes and one are three flashes in words and on the water, and three of a fixed light are three
in words. -/
theorem announces_flashes_three :
    (∃ light, read "Q(2+1) 10s" = .ok light ∧ announced .french (light.prose .french).toList = 3 ∧
      (light.cycle .extend).segments.countP (·.lit) = 3) ∧
    ∃ light, read "F(3) 10s" = .ok light ∧ announced .english (light.prose .english).toList = 3 ∧
      light.cycle .extend = { light with group := .single }.cycle .extend := by
  constructor
  · let light : Characteristic := { ofRhythm .quick with group := .composite [2, 1] }
    have hread : read "Q(2+1) 10s" = .ok light := by decide +kernel
    have hgroup : light.group.TellsFlashes := Or.inr ⟨[2, 1], rfl⟩
    obtain ⟨hannounced, hshown, -⟩ := announces_flashes hread rfl hgroup
    exact ⟨light, hread, hannounced .french, hshown (Or.inl ⟨[2, 1], rfl⟩)⟩
  · let light : Characteristic := { ofRhythm .fixed with group := .count 3 }
    have hread : read "F(3) 10s" = .ok light := by decide +kernel
    have hgroup : light.group.TellsFlashes := Or.inl ⟨3, rfl⟩
    obtain ⟨hannounced, -, hplain⟩ := announces_flashes hread rfl hgroup
    have hsteady : ¬light.CountsFlashes := by
      rintro (⟨parts, hparts⟩ | ⟨hflash, -⟩)
      · cases hparts
      · cases hflash
    exact ⟨light, hread, hannounced .english, hplain hsteady⟩

/-- Not every light shows what is announced: not three flashes of a fixed light, and not zero flashes. -/
theorem not_forall_announces_flashes :
    let Agrees (light : Characteristic) : Prop :=
      ∀ language, announced language (light.prose language).toList =
        (light.cycle .extend).segments.countP (·.lit)
    (¬ ∀ (text : String) (light : Characteristic), read text = .ok light →
      light.longFlashTail = false → light.group.TellsFlashes → light.group ≠ .count 0 →
      Agrees light) ∧
    ¬ ∀ (text : String) (light : Characteristic), read text = .ok light →
      light.longFlashTail = false → light.group.TellsFlashes → light.rhythm.flash?.isSome = true →
      Agrees light := by
  intro Agrees
  constructor
  · intro hall
    let light : Characteristic := { ofRhythm .fixed with group := .count 3 }
    have hrun : read "F(3) 10s" = .ok light ∧
        (light.cycle .extend).segments.countP (·.lit) = 1 := by
      decide +kernel
    have hgroup : light.group.TellsFlashes := Or.inl ⟨3, rfl⟩
    have hagrees := hall _ light hrun.1 rfl hgroup (by simp [light]) .english
    rw [announced_prose .english (readable_of_readWith hrun.1).fault? rfl hgroup, hrun.2] at hagrees
    cases hagrees
  · intro hall
    let light : Characteristic := { ofRhythm .flashing with group := .count 0 }
    have hrun : read "Fl(0) 10s" = .ok light ∧
        (light.cycle .extend).segments.countP (·.lit) = 1 := by
      decide +kernel
    have hgroup : light.group.TellsFlashes := Or.inl ⟨0, rfl⟩
    have hagrees := hall _ light hrun.1 rfl hgroup rfl .english
    rw [announced_prose .english (readable_of_readWith hrun.1).fault? rfl hgroup, hrun.2] at hagrees
    cases hagrees

end Characteristic

end ChartLight

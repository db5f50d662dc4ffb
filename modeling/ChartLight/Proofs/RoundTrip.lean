import ChartLight.Proofs.Acceptance
import ChartLight.Proofs.Shortest

/-! Reading back what is printed. The canonical form of a light is, once put into normal form, a text
of the grammar that says nothing but that light; so reading undoes printing on every light that some
text says, whatever the default period is. -/

namespace ChartLight

open Number Text

section Upper

theorem upperCase_append (a b : List Char) : upperCase (a ++ b) = upperCase a ++ upperCase b :=
  List.flatMap_append

theorem upperChar_of_le {c : Char} (h : c.toNat ≤ 90) : upperChar c = [c] := by
  have hlower : c.toUpper = c := by
    rw [Char.toUpper, dif_neg]
    simp only [UInt32.le_iff_toNat_le, Char.toNat_val, Char.reduceVal, UInt32.reduceToNat]
    omega
  rw [upperChar, if_pos (by omega), hlower]

theorem upperCase_of_forall_mem {cs : List Char} (h : ∀ c ∈ cs, upperChar c = [c]) :
    upperCase cs = cs := by
  induction cs with
  | nil => rfl
  | cons c cs ih =>
    obtain ⟨hc, hcs⟩ := List.forall_mem_cons.1 h
    rw [upperCase, List.flatMap_cons, hc, ← upperCase, ih hcs]
    rfl

theorem upperCase_of_le {cs : List Char} (h : ∀ c ∈ cs, c.toNat ≤ 90) : upperCase cs = cs :=
  upperCase_of_forall_mem fun c hc => upperChar_of_le (h c hc)

/-- Digits, capitals and the signs that stand around a group. -/
def Plain (c : Char) : Prop := c.isDigit = true ∨ c.isUpper = true ∨ c ∈ ['(', ')', '+', ' ']

theorem Plain.toNat {c : Char} (h : Plain c) : c.toNat ≤ 90 ∧ c.toNat ≠ 46 := by
  rcases h with h | h | h
  · have hc := toNat_of_isDigit h
    omega
  · have hc := toNat_of_isUpper h
    omega
  · simp only [List.mem_cons, List.not_mem_nil, or_false] at h
    rcases h with rfl | rfl | rfl | rfl <;> decide

theorem point_not_mem_of_plain {cs : List Char} (h : ∀ c ∈ cs, Plain c) : '.' ∉ cs :=
  fun hc => (h '.' hc).toNat.2 rfl

theorem upperCase_plain {cs : List Char} (h : ∀ c ∈ cs, Plain c) : upperCase cs = cs :=
  upperCase_of_le fun c hc => (h c hc).toNat.1

theorem upperCase_of_inNumeral {cs : List Char} (h : ∀ c ∈ cs, inNumeral c = true) :
    upperCase cs = cs := by
  refine upperCase_of_le fun c hc => ?_
  rcases Bool.or_eq_true _ _ ▸ h c hc with hdigit | hpoint
  · have := toNat_of_isDigit hdigit
    omega
  · rw [beq_iff_eq.1 hpoint]
    decide

theorem upperCase_numeral {cs : List Char} {d : Decimal} (h : Numeral cs d) : upperCase cs = cs :=
  upperCase_of_inNumeral h.inNumeral

end Upper

section Points

theorem Digits.point_not_mem {ds : List Char} (h : Digits ds) : '.' ∉ ds :=
  fun hc => by cases h.isDigit _ hc

theorem Digits.getLast?_isDigit {ds : List Char} (h : Digits ds) (otherwise : Bool) :
    (ds.getLast?.map Char.isDigit).getD otherwise = true := by
  obtain ⟨c, hc⟩ := Option.ne_none_iff_exists'.1 (mt List.getLast?_eq_none_iff.1 h.ne_nil)
  rw [hc]
  exact h.isDigit c (List.mem_of_getLast? hc)

/-- The point of a numeral stays where it is. -/
theorem dropPoints_numeral {numeral : List Char} {d : Decimal} (h : Numeral numeral d)
    (afterDigit : Bool) : dropPoints afterDigit (numeral ++ ['S']) = numeral ++ ['S'] := by
  have hs : ∀ k, dropPoints k ['S'] = ['S'] := fun _ => rfl
  cases h with
  | whole hds => rw [dropPoints_append_of_not_mem hds.point_not_mem, hs]
  | @point ds es hds hes =>
    have hhead : (es ++ ['S']).head?.any (·.isDigit) = true := by
      obtain ⟨c, rest, rfl⟩ := List.exists_cons_of_ne_nil hes.ne_nil
      exact hes.isDigit c List.mem_cons_self
    rw [List.append_assoc, dropPoints_append_of_not_mem hds.point_not_mem, hds.getLast?_isDigit,
      List.cons_append, dropPoints, if_neg (by rw [hhead]; simp),
      dropPoints_append_of_not_mem hes.point_not_mem, hs]

end Points

section Group

/-- The groups that a text can give to a rhythm. -/
inductive Group.Suits (rhythm : Rhythm) : Group → Prop
  | single (hrhythm : rhythm ≠ .morse) : Suits rhythm .single
  | letter {c : Char} (hrhythm : rhythm = .morse) (hc : c.isUpper = true) : Suits rhythm (.letter c)
  | elements {values : List Nat} (hrhythm : rhythm ≠ .morse) (hne : values ≠ [])
      (hle : ∀ n ∈ values, n ≤ 99) : Suits rhythm (.ofElements rhythm values)

theorem ElementsText.values {cs : List Char} {values : List Nat} (h : ElementsText cs values) :
    values ≠ [] ∧ ∀ n ∈ values, n ≤ 99 := by
  induction h with
  | one h =>
    obtain ⟨-, -, -, hle⟩ := h
    exact ⟨List.cons_ne_nil _ _, List.forall_mem_singleton.2 hle⟩
  | more h hrest ih =>
    obtain ⟨-, -, -, hle⟩ := h
    exact ⟨List.cons_ne_nil _ _, List.forall_mem_cons.2 ⟨hle, ih.2⟩⟩

theorem GroupText.suits {rhythm : Rhythm} {tail : Bool} {text : List Char} {group : Group}
    (h : GroupText rhythm tail text group) : group.Suits rhythm := by
  cases h with
  | absent hrhythm => exact Group.Suits.single hrhythm
  | letter hrhythm ha hc hb => exact Group.Suits.letter hrhythm hc
  | parenthesized hrhythm h => exact Group.Suits.elements hrhythm h.values.1 h.values.2
  | bare hrhythm htail hds hle =>
    exact Group.Suits.elements hrhythm (List.cons_ne_nil _ _) (List.forall_mem_singleton.2 hle)

theorem elementText_toDigits {n : Nat} (h : n ≤ 99) : ElementText (Nat.toDigits 10 n) n := by
  have hvalue : Nat.ofDigitChars 10 (Nat.toDigits 10 n) 0 = n := Nat.ofDigitChars_ten_toDigits
  have htext := ElementText.intro Blank.nil (digits_toDigits n) Blank.nil (by rwa [hvalue])
  rwa [hvalue, List.nil_append, List.append_nil] at htext

theorem elementsText_toDigits {values : List Nat} (hne : values ≠ []) (hle : ∀ n ∈ values, n ≤ 99) :
    ElementsText (['+'].intercalate (values.map (Nat.toDigits 10))) values := by
  induction values with
  | nil => exact absurd rfl hne
  | cons n values ih =>
    obtain ⟨hn, hvalues⟩ := List.forall_mem_cons.1 hle
    cases values with
    | nil =>
      rw [List.map_singleton, List.intercalate_singleton]
      exact ElementsText.one (elementText_toDigits hn)
    | cons m values =>
      rw [List.map_cons, List.map_cons, List.intercalate_cons_cons, List.append_assoc]
      exact ElementsText.more (elementText_toDigits hn) (ih (List.cons_ne_nil _ _) hvalues)

theorem Group.values_ofElements (rhythm : Rhythm) (values : List Nat) :
    (Group.ofElements rhythm values).values = values := by
  unfold Group.ofElements
  split <;> rfl

theorem Group.toText_of_values {group : Group} (h : group.values ≠ []) :
    group.toText.toList =
      '(' :: ['+'].intercalate (group.values.map (Nat.toDigits 10)) ++ [')'] := by
  have hdigits : (group.values.map toString).map String.toList =
      group.values.map (Nat.toDigits 10) := by
    rw [List.map_map]
    exact List.map_congr_left fun n _ => by simp
  have hprint : ("(" ++ String.intercalate "+" (group.values.map toString) ++ ")").toList =
      '(' :: ['+'].intercalate (group.values.map (Nat.toDigits 10)) ++ [')'] := by
    rw [String.toList_append, String.toList_append, String.toList_intercalate, hdigits]
    rfl
  cases group with
  | single => exact absurd rfl h
  | letter c => exact absurd rfl h
  | count n => exact hprint
  | composite parts => exact hprint
  | eclipses seconds => exact hprint

/-- A group is printed as the grammar has it. -/
theorem groupText_toText {rhythm : Rhythm} {group : Group} (h : group.Suits rhythm) (tail : Bool) :
    GroupText rhythm tail group.toText.toList group := by
  cases h with
  | single hrhythm => exact GroupText.absent hrhythm
  | @letter c hrhythm hc =>
    have htext : (Group.letter c).toText.toList = '(' :: [] ++ c :: [] ++ [')'] := by
      simp [Group.toText]
    rw [htext]
    exact GroupText.letter hrhythm Blank.nil hc Blank.nil
  | @elements values hrhythm hne hle =>
    rw [Group.toText_of_values (by rwa [Group.values_ofElements]), Group.values_ofElements]
    exact GroupText.parenthesized hrhythm (elementsText_toDigits hne hle)

theorem plain_elements (values : List Nat) :
    ∀ c ∈ ['+'].intercalate (values.map (Nat.toDigits 10)), Plain c := by
  induction values with
  | nil => simp
  | cons n values ih =>
    have hdigits : ∀ c ∈ Nat.toDigits 10 n, Plain c :=
      fun c hc => Or.inl ((digits_toDigits n).isDigit c hc)
    cases values with
    | nil =>
      rw [List.map_singleton, List.intercalate_singleton]
      exact hdigits
    | cons m values =>
      rw [List.map_cons, List.map_cons, List.intercalate_cons_cons, List.forall_mem_append,
        List.forall_mem_append, List.forall_mem_singleton]
      exact ⟨⟨hdigits, Or.inr (Or.inr (by decide))⟩, ih⟩

/-- A printed group is its own upper-case form. -/
theorem plain_toText {rhythm : Rhythm} {group : Group} (h : group.Suits rhythm) :
    ∀ c ∈ group.toText.toList, Plain c := by
  have hopen : Plain '(' := Or.inr (Or.inr (by decide))
  have hclose : Plain ')' := Or.inr (Or.inr (by decide))
  cases h with
  | single hrhythm => simp [Group.toText]
  | letter hrhythm hc =>
    simp only [Group.toText, String.toList_append, String.toList_singleton, List.forall_mem_append,
      List.forall_mem_singleton]
    exact ⟨⟨by simpa using hopen, Or.inr (Or.inl hc)⟩, by simpa using hclose⟩
  | @elements values hrhythm hne hle =>
    rw [Group.toText_of_values (by rwa [Group.values_ofElements]), Group.values_ofElements,
      List.cons_append, List.forall_mem_cons, List.forall_mem_append, List.forall_mem_singleton]
    exact ⟨hopen, plain_elements values, hclose⟩

end Group

section Canonical

/-- A light that a text can say. -/
structure Characteristic.Readable (light : Characteristic) : Prop where
  period : InHour light.period
  group : light.group.Suits light.rhythm

theorem Color.upperCase_code (color : Color) : upperCase color.code.toList = color.capitals := by
  cases color <;> decide

theorem Color.plain_capitals (color : Color) : ∀ c ∈ color.capitals, Plain c := by
  have hall : color.capitals.all (·.isUpper) = true := by cases color <;> decide
  exact fun c hc => Or.inr (Or.inl (List.all_eq_true.1 hall c hc))

theorem colorsText_one (color : Color) : ColorsText color.capitals [color] := by
  have hseparators : ∀ c ∈ ([] : List Char), isSeparator c = true := fun _ hc => by cases hc
  have h := ColorsText.cons color hseparators ColorsText.nil
  rwa [List.append_nil, List.append_nil] at h

namespace Characteristic

/-- What the canonical form of a light says. -/
def reading (light : Characteristic) : Reading where
  rhythm := light.rhythm
  group := light.group
  longFlashTail := light.longFlashTail
  colors := light.color :: light.altColor.toList
  period := some light.period

theorem reading_characteristic (light : Characteristic) (defaultPeriod : Binary64) :
    light.reading.characteristic defaultPeriod = light := by
  obtain ⟨rhythm, group, color, altColor, period, longFlashTail⟩ := light
  cases altColor <;> rfl

/-- The colours of the canonical form, in upper case. -/
def colorCapitals (light : Characteristic) : List Char :=
  light.color.capitals ++ (light.altColor.map Color.capitals).getD []

/-- The tail of the canonical form, in upper case. -/
def tailCapitals (light : Characteristic) : List Char :=
  if light.longFlashTail then ['+', 'L', 'F', 'L'] else []

/-- All that stands before the period in the canonical form, in upper case. -/
def bodyCapitals (light : Characteristic) : List Char :=
  upperCase light.rhythm.abbreviation.toList ++ light.group.toText.toList ++ light.tailCapitals ++
    [' '] ++ light.colorCapitals

theorem bodyText_bodyCapitals {light : Characteristic} (h : light.group.Suits light.rhythm) :
    BodyText light.reading light.bodyCapitals := by
  have htail : TailText light.tailCapitals light.longFlashTail := by
    rw [tailCapitals]
    split_ifs with ht
    · rw [ht]
      exact TailText.present Blank.nil Blank.nil Blank.nil
    · rw [Bool.not_eq_true] at ht
      rw [ht]
      exact TailText.absent
  have hcolors : ColorsText light.colorCapitals light.reading.colors := by
    rw [colorCapitals, reading]
    cases light.altColor with
    | none => simpa using colorsText_one light.color
    | some other => exact (colorsText_one light.color).append (colorsText_one other)
  have hspace : Blank [' '] := List.forall_mem_singleton.2 rfl
  have hsign : [] ∈ groupSigns := by decide
  have hbody := BodyText.intro (r := light.reading) hsign Blank.nil
    light.rhythm.upperCase_abbreviation Blank.nil (groupText_toText h light.longFlashTail) Blank.nil
    htail hspace hcolors
  simpa [bodyCapitals] using hbody

/-- The canonical form, in upper case. -/
def capitals (light : Characteristic) : List Char :=
  light.bodyCapitals ++ [' '] ++ (secondsText light.period).toList ++ ['S']

theorem written_capitals {light : Characteristic} (h : light.Readable) :
    Written light.reading light.capitals := by
  obtain ⟨d, hnumeral, hd⟩ := numeral_secondsText h.period
  have hspace : Blank [' '] := List.forall_mem_singleton.2 rfl
  have hlongest : ∀ c ∈ (light.bodyCapitals ++ [' ']).getLast?, inNumeral c = false := by
    intro c hc
    rw [List.getLast?_concat] at hc
    obtain rfl := Option.some.inj hc
    rfl
  have hwritten := Written.timed (bodyText_bodyCapitals h.group) hspace hlongest hnumeral Blank.nil
    (congrArg some hd.symm) (hd.symm ▸ h.period)
  rwa [List.append_nil] at hwritten

theorem plain_bodyCapitals {light : Characteristic} (h : light.group.Suits light.rhythm) :
    ∀ c ∈ light.bodyCapitals ++ [' '], Plain c := by
  have hspace : Plain ' ' := Or.inr (Or.inr (by decide))
  have hkeyword : ∀ c ∈ upperCase light.rhythm.abbreviation.toList, Plain c :=
    fun c hc => Or.inr (Or.inl (Rhythm.keywords_isUpper light.rhythm.upperCase_abbreviation c hc))
  have htail : ∀ c ∈ light.tailCapitals, Plain c := by
    rw [tailCapitals]
    split_ifs
    · intro c hc
      simp only [List.mem_cons, List.not_mem_nil, or_false] at hc
      rcases hc with rfl | rfl | rfl | rfl
      · exact Or.inr (Or.inr (by decide))
      all_goals exact Or.inr (Or.inl rfl)
    · simp
  have hcolors : ∀ c ∈ light.colorCapitals, Plain c := by
    rw [colorCapitals, List.forall_mem_append]
    refine ⟨light.color.plain_capitals, ?_⟩
    cases light.altColor with
    | none => simp
    | some other => exact other.plain_capitals
  simp only [bodyCapitals, List.forall_mem_append, List.forall_mem_singleton]
  exact ⟨⟨⟨⟨⟨hkeyword, plain_toText h⟩, htail⟩, hspace⟩, hcolors⟩, hspace⟩

theorem upperCase_toText {light : Characteristic} (h : light.Readable) :
    upperCase light.toText.toList = light.capitals := by
  obtain ⟨d, hnumeral, -⟩ := numeral_secondsText h.period
  have htail : upperCase (if light.longFlashTail then "+LFl" else "").toList = light.tailCapitals := by
    rw [tailCapitals]
    split_ifs <;> decide
  have halt : upperCase ((light.altColor.map Color.code).getD "").toList =
      (light.altColor.map Color.capitals).getD [] := by
    cases light.altColor with
    | none => rfl
    | some other => exact other.upperCase_code
  have hspace : upperCase " ".toList = [' '] := by decide
  have hs : upperCase "s".toList = ['S'] := by decide
  simp only [toText, String.toList_append, upperCase_append, upperCase_plain (plain_toText h.group),
    htail, hspace, hs, light.color.upperCase_code, halt, upperCase_numeral hnumeral]
  simp only [capitals, bodyCapitals, colorCapitals, List.append_assoc]

theorem tight_between {a b : List Char} {c d : Char} (ha : c ∈ a.head?)
    (hc : isBlank c = false) (hd : isBlank d = false) : Tight (a ++ b ++ [d]) := by
  constructor
  · intro e he
    rw [List.append_assoc] at he
    rwa [Option.mem_unique he (mem_head?_append ha)]
  · intro e he
    rw [List.getLast?_concat] at he
    rwa [← Option.some.inj he]

theorem tight_toText (light : Characteristic) : Tight light.toText.toList := by
  have htext : light.toText.toList = light.rhythm.abbreviation.toList ++
      (light.group.toText ++ (if light.longFlashTail then "+LFl" else "") ++ " " ++
        light.color.code ++ ((light.altColor.map Color.code).getD "") ++ " " ++
        secondsText light.period).toList ++ ['s'] := by
    simp [toText]
  obtain ⟨c, hc, hblank⟩ : ∃ c, light.rhythm.abbreviation.toList.head? = some c ∧
      isBlank c = false := by
    cases light.rhythm <;> exact ⟨_, rfl, by decide⟩
  rw [htext]
  exact tight_between hc hblank rfl

theorem tight_capitals (light : Characteristic) : Tight light.capitals := by
  have htext : light.capitals = upperCase light.rhythm.abbreviation.toList ++
      (light.group.toText.toList ++ light.tailCapitals ++ [' '] ++ light.colorCapitals ++ [' '] ++
        (secondsText light.period).toList) ++ ['S'] := by
    simp [capitals, bodyCapitals]
  obtain ⟨c, hc, hblank⟩ : ∃ c, (upperCase light.rhythm.abbreviation.toList).head? = some c ∧
      isBlank c = false := by
    cases light.rhythm <;> exact ⟨_, rfl, by decide⟩
  rw [htext]
  exact tight_between hc hblank rfl

theorem normalize_toText {light : Characteristic} (h : light.Readable) :
    normalize light.toText.toList = light.capitals := by
  obtain ⟨d, hnumeral, -⟩ := numeral_secondsText h.period
  have hpoints : dropPoints false light.capitals = light.capitals := by
    rw [capitals, List.append_assoc _ _ ['S'],
      dropPoints_append_of_not_mem (point_not_mem_of_plain (plain_bodyCapitals h.group)),
      dropPoints_numeral hnumeral]
  rw [normalize, trim_of_tight light.tight_toText, upperCase_toText h, hpoints,
    trim_of_tight light.tight_capitals]

/-- Reading undoes printing. -/
theorem readWith_toText {light : Characteristic} (h : light.Readable) {defaultPeriod : Binary64}
    (hdefault : InHour defaultPeriod) : readWith defaultPeriod light.toText = .ok light := by
  refine readWith_eq_ok_iff.2 ⟨hdefault, light.reading, ?_, ?_⟩
  · rw [normalize_toText h]
    exact written_capitals h
  · rw [reading_characteristic]

theorem characteristic_period (r : Reading) (defaultPeriod : Binary64) :
    (r.characteristic defaultPeriod).period = r.period.getD defaultPeriod := rfl

/-- What is read from a text is a light that a text can say. -/
theorem readable_of_readWith {text : String} {defaultPeriod : Binary64} {light : Characteristic}
    (h : readWith defaultPeriod text = .ok light) : light.Readable := by
  obtain ⟨hdefault, r, hr, rfl⟩ := readWith_eq_ok_iff.1 h
  have hbody : ∀ {cs : List Char}, BodyText r cs → r.group.Suits r.rhythm := by
    intro cs hcs
    obtain ⟨-, -, -, -, hgroup, -, -, -, -⟩ := hcs
    exact hgroup.suits
  generalize normalize text.toList = cs at hr
  cases hr with
  | untimed hcs hperiod =>
    refine ⟨?_, hbody hcs⟩
    rw [characteristic_period, hperiod, Option.getD_none]
    exact hdefault
  | timed hcs ha hlongest hnumeral hb hperiod hrange =>
    refine ⟨?_, hbody hcs⟩
    rw [characteristic_period, hperiod, Option.getD_some]
    exact hrange

/-- The canonical form of a light that was read says that light, with any default period, and no
other light that was read has the same canonical form. -/
theorem toText_round_trip {text : String} {defaultPeriod : Binary64} {light : Characteristic}
    (h : readWith defaultPeriod text = .ok light) :
    (∀ otherDefault, InHour otherDefault → readWith otherDefault light.toText = .ok light) ∧
      ∀ otherText otherDefault other, readWith otherDefault otherText = .ok other →
        other.toText = light.toText → other = light := by
  have hreadable := readable_of_readWith h
  refine ⟨fun otherDefault hdefault => readWith_toText hreadable hdefault, ?_⟩
  intro otherText otherDefault other hother hsame
  -- both canonical forms are read back, so one form is one light
  have hdefault := (readWith_eq_ok_iff.1 h).1
  have hback := readWith_toText (readable_of_readWith hother) hdefault
  rw [hsame, readWith_toText hreadable hdefault] at hback
  exact (Except.ok.inj hback).symm

/-- Lower case, abbreviation points, a bare group and a loose period are gone in the canonical form,
which is read back with another default. -/
theorem toText_round_trip_loose :
    ∃ light, readWith defaultPeriod "gp. fl.2 w-r 2.50 s" = .ok light ∧
      light.toText = "Fl(2) WR 2.5s" ∧
      readWith (Binary64.ofNat 60) "Fl(2) WR 2.5s" = .ok light ∧
      ∀ otherText otherDefault other, readWith otherDefault otherText = .ok other →
        other.toText = "Fl(2) WR 2.5s" → other = light := by
  have hread : readWith defaultPeriod "gp. fl.2 w-r 2.50 s" =
      .ok ⟨.flashing, .count 2, .white, some .red, Binary64.ofRatio false 5 2, false⟩ := by
    decide +kernel
  have htext : toText ⟨.flashing, .count 2, .white, some .red, Binary64.ofRatio false 5 2, false⟩ =
      "Fl(2) WR 2.5s" := by
    decide +kernel
  have hdefault : InHour (Binary64.ofNat 60) := by
    rw [← periodFault?_eq_none_iff]
    decide +kernel
  obtain ⟨hback, honly⟩ := toText_round_trip hread
  rw [htext] at honly
  exact ⟨_, hread, htext, htext ▸ hback _ hdefault, honly⟩

end Characteristic

end Canonical

end ChartLight

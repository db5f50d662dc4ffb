import ChartLight.Proofs.Colors
import ChartLight.Proofs.Group
import ChartLight.Proofs.Keyword
import ChartLight.Proofs.Period

/-! A text in normal form is read as a reading exactly if that reading is written in it. No reader
takes anything of its neighbour's part: the period is found by its last letter, no part before the
colours ends like one, and no part behind the keyword begins with a letter. The normal form has all of
a text but points and outer white space (`filter_normalize`, `dropPoints_append_point`). -/

namespace ChartLight

open Number Text

/-- The readers, one after the other. -/
theorem ofNormal_eq_ok_iff {cs : List Char} {r : Reading} :
    Reading.ofNormal cs = .ok r ↔
      ∃ rest middle content after, takePeriod cs = .ok (rest, r.period) ∧
        (takeColors rest).2 = r.colors ∧
        matchRhythm? (dropGroupSign (takeColors rest).1) = some (r.rhythm, middle) ∧
        splitGroup middle = .ok (content, after) ∧ readTail after = .ok r.longFlashTail ∧
        readGroup r.rhythm content = .ok r.group := by
  simp only [Reading.ofNormal, bind_eq_ok_iff, mapError_eq_ok_iff]
  constructor
  · rintro ⟨⟨rest, period⟩, hperiod, h⟩
    split at h
    · cases h
    · rename_i rhythm middle hrhythm
      simp only [bind_eq_ok_iff, mapError_eq_ok_iff] at h
      obtain ⟨⟨content, after⟩, hsplit, tail, htail, group, hgroup, h⟩ := h
      obtain rfl := Except.ok.inj h
      exact ⟨rest, middle, content, after, hperiod, rfl, hrhythm, hsplit, htail, hgroup⟩
  · rintro ⟨rest, middle, content, after, hperiod, hcolors, hrhythm, hsplit, htail, hgroup⟩
    refine ⟨(rest, r.period), hperiod, ?_⟩
    simp only [hrhythm, bind_eq_ok_iff, mapError_eq_ok_iff]
    refine ⟨(content, after), hsplit, r.longFlashTail, htail, r.group, hgroup, ?_⟩
    rw [hcolors]
    rfl

section Ends

/-- But for white space, the text ends in an inner character. -/
def Ends (cs : List Char) : Prop := ∃ c ∈ (trimEnd cs).getLast?, Inner c

theorem Ends.of_last {cs part : List Char} (h : ∃ c ∈ part.getLast?, Inner c) :
    Ends (cs ++ part) := by
  obtain ⟨c, hc, hends⟩ := h
  have hlast : c ∈ (cs ++ part).getLast? := mem_getLast?_append hc
  have htrim : trimEnd (cs ++ part ++ []) = cs ++ part := by
    refine trimEnd_append (fun d hd => ?_) Blank.nil
    rw [Option.mem_unique hd hlast]
    exact hends.isBlank_eq_false
  rw [List.append_nil] at htrim
  exact ⟨c, by rw [htrim]; exact hlast, hends⟩

theorem Ends.append_blank {cs b : List Char} (h : Ends cs) (hb : Blank b) : Ends (cs ++ b) := by
  rw [Ends, trimEnd_append_blank cs hb]
  exact h

theorem Ends.append {cs part : List Char} (h : Ends cs)
    (hpart : part = [] ∨ ∃ c ∈ part.getLast?, Inner c) : Ends (cs ++ part) := by
  rcases hpart with rfl | hlast
  · rwa [List.append_nil]
  · exact Ends.of_last hlast

theorem inner_of_isDigit {c : Char} (h : c.isDigit = true) : Inner c := by
  refine ⟨?_, ?_⟩
  · rw [isSeparator, isBlank_eq_false_of_isDigit h, Bool.or_false]
    refine beq_false_of_ne ?_
    rintro rfl
    cases h
  · intro hmem
    simp only [List.mem_cons, List.not_mem_nil, or_false] at hmem
    rcases hmem with rfl | rfl | rfl | rfl | rfl | rfl <;> cases h

theorem Rhythm.keywords_last {keyword : List Char} {rhythm : Rhythm}
    (h : (keyword, rhythm) ∈ Rhythm.keywords) : ∃ c ∈ keyword.getLast?, Inner c := by
  simp only [Rhythm.keywords, List.mem_cons, List.not_mem_nil, or_false, Prod.mk.injEq] at h
  rcases h with h | h | h | h | h | h | h | h | h | h | h | h | h | h | h
  all_goals
    obtain ⟨rfl, -⟩ := h
    exact ⟨_, rfl, by decide, by decide⟩

theorem GroupText.last {rhythm : Rhythm} {tail : Bool} {text : List Char} {group : Group}
    (h : GroupText rhythm tail text group) : text = [] ∨ ∃ c ∈ text.getLast?, Inner c := by
  cases h with
  | absent => exact Or.inl rfl
  | letter => exact Or.inr ⟨')', List.getLast?_concat, by decide, by decide⟩
  | parenthesized => exact Or.inr ⟨')', List.getLast?_concat, by decide, by decide⟩
  | bare hrhythm htail hds =>
    obtain ⟨c, hc⟩ := Option.ne_none_iff_exists'.1 (mt List.getLast?_eq_none_iff.1 hds.ne_nil)
    exact Or.inr ⟨c, hc, inner_of_isDigit (hds.isDigit c (List.mem_of_getLast? hc))⟩

theorem TailText.last {text : List Char} {tail : Bool} (h : TailText text tail) :
    text = [] ∨ ∃ c ∈ text.getLast?, Inner c := by
  cases h with
  | absent => exact Or.inl rfl
  | present => exact Or.inr ⟨'L', List.getLast?_concat, by decide, by decide⟩

end Ends

section Body

variable {r : Reading}

/-- No letter comes first. -/
def Unlettered (cs : List Char) : Prop := ∀ c ∈ cs.head?, c.isUpper = false

theorem Unlettered.append {a b : List Char} (ha : Unlettered a) (hb : Unlettered b) :
    Unlettered (a ++ b) := by
  cases a with
  | nil => exact hb
  | cons c a => exact ha

theorem Unlettered.of_append {a b : List Char} (h : Unlettered (a ++ b)) : Unlettered a := by
  cases a with
  | nil => exact fun c hc => by cases hc
  | cons c a => exact h

theorem Blank.unlettered {b : List Char} (hb : Blank b) : Unlettered b := by
  intro c hc
  exact hb.isUpper_eq_false c (List.mem_of_head? hc)

theorem GroupText.unlettered {rhythm : Rhythm} {tail : Bool} {text : List Char} {group : Group}
    (h : GroupText rhythm tail text group) : Unlettered text := by
  intro c hc
  cases h with
  | absent => cases hc
  | letter =>
    obtain rfl : '(' = c := by simpa using hc
    rfl
  | parenthesized =>
    obtain rfl : '(' = c := by simpa using hc
    rfl
  | bare hrhythm htail hds => exact isUpper_eq_false_of_isDigit (hds.isDigit c (List.mem_of_head? hc))

theorem TailText.unlettered {text : List Char} {tail : Bool} (h : TailText text tail) :
    Unlettered text := by
  intro c hc
  cases h with
  | absent => cases hc
  | present =>
    obtain rfl : '+' = c := by simpa using hc
    rfl

/-- Before the colours, a body ends in its tail, its group or its keyword. -/
theorem body_ends {sign a keyword b group c tail d : List Char}
    (hkeyword : (keyword, r.rhythm) ∈ Rhythm.keywords) (hb : Blank b)
    (hgroup : GroupText r.rhythm r.longFlashTail group r.group) (hc : Blank c)
    (htail : TailText tail r.longFlashTail) (hd : Blank d) :
    Ends (sign ++ a ++ keyword ++ b ++ group ++ c ++ tail ++ d) :=
  (((((Ends.of_last (Rhythm.keywords_last hkeyword)).append_blank hb).append
    hgroup.last).append_blank hc).append htail.last).append_blank hd

/-- Every reader of the body finds its own part. -/
theorem body_complete {text : List Char} (h : BodyText r text) :
    ∃ middle content after, (takeColors text).2 = r.colors ∧
      matchRhythm? (dropGroupSign (takeColors text).1) = some (r.rhythm, middle) ∧
      splitGroup middle = .ok (content, after) ∧ readTail after = .ok r.longFlashTail ∧
      readGroup r.rhythm content = .ok r.group := by
  obtain ⟨hsign, ha, hkeyword, hb, hgroup, hc, htail, hd, hcolors⟩ := h
  rename_i sign a keyword b group c tail d colors
  obtain ⟨content, after, hsplit, hread, hreadGroup⟩ := splitGroup_complete hgroup hc htail hd
  refine ⟨_, content, after, ?_, ?_, hsplit, hread, hreadGroup⟩
  all_goals rw [takeColors_complete (body_ends hkeyword hb hgroup hc htail hd) hcolors]
  have hunlettered : Unlettered (b ++ (group ++ c ++ tail ++ d)) :=
    (Blank.unlettered hb).append (((hgroup.unlettered.append (Blank.unlettered hc)).append
      htail.unlettered).append (Blank.unlettered hd))
  have hlast : ∃ ch ∈ (sign ++ a ++ keyword).getLast?, isBlank ch = false := by
    obtain ⟨ch, hch, hinner⟩ := Rhythm.keywords_last hkeyword
    exact ⟨ch, mem_getLast?_append hch, hinner.isBlank_eq_false⟩
  have hsplitText : sign ++ a ++ keyword ++ b ++ group ++ c ++ tail ++ d =
      sign ++ a ++ keyword ++ (b ++ (group ++ c ++ tail ++ d)) := by simp only [List.append_assoc]
  obtain ⟨e, he, hrest⟩ := trimEnd_split (b ++ (group ++ c ++ tail ++ d))
  rw [hsplitText, trimEnd_append_of_last hlast, dropGroupSign_complete hsign ha hkeyword,
    matchRhythm?_complete hkeyword, trim_trimEnd, trim_blank_append hb]
  rw [hrest] at hunlettered
  exact hunlettered.of_append

theorem Ends.no_s {cs : List Char} (h : Ends cs) : 'S' ∉ cs.getLast? := by
  obtain ⟨c, hc, hinner⟩ := h
  obtain ⟨b, hb, hcs⟩ := trimEnd_split cs
  intro hs
  rw [hcs] at hs
  rcases getLast?_append_cases hs with hblank | hlast
  · cases hb _ (List.mem_of_getLast? hblank)
  · obtain rfl := Option.mem_unique hc hlast
    exact hinner.2 (by decide)

/-- A body does not look as if it had a period. -/
theorem body_no_s {text : List Char} (h : BodyText r text) : 'S' ∉ text.getLast? := by
  obtain ⟨hsign, ha, hkeyword, hb, hgroup, hc, htail, hd, hcolors⟩ := h
  intro hs
  rcases getLast?_append_cases hs with hcolor | hcore
  · exact hcolors.s_not_mem (List.mem_of_getLast? hcolor)
  · exact (body_ends hkeyword hb hgroup hc htail hd).no_s hcore

theorem body_sound {text middle after : List Char} {content : Option (List Char)}
    (hhead : ∀ c ∈ text.head?, isBlank c = false) (hcolors : (takeColors text).2 = r.colors)
    (hrhythm : matchRhythm? (dropGroupSign (takeColors text).1) = some (r.rhythm, middle))
    (hsplit : splitGroup middle = .ok (content, after)) (htail : readTail after = .ok r.longFlashTail)
    (hgroup : readGroup r.rhythm content = .ok r.group) : BodyText r text := by
  have huncolored := uncolored_takeColors text
  rw [hcolors] at huncolored
  generalize (takeColors text).1 = core at *
  obtain ⟨-, hb, -, hcolorsText⟩ := huncolored
  have hunsigned : Unsigned (dropGroupSign core) core := unsigned_dropGroupSign fun c hc => by
    apply hhead c
    rw [List.append_assoc]
    exact mem_head?_append hc
  generalize dropGroupSign core = left at *
  obtain ⟨hsign, ha, -, -⟩ := hunsigned
  obtain ⟨keyword, rest, hkeyword, rfl, hmiddle⟩ := matchRhythm?_sound hrhythm
  obtain ⟨x, y, hx, -, hy, hrestText⟩ := trim_split rest
  obtain ⟨groupText, c, tailText, d, hgroupText, hc, htailText, hd, hmiddleText⟩ :=
    splitGroup_readGroup_sound hsplit htail hgroup
  have hbody := BodyText.intro hsign ha hkeyword hx hgroupText hc htailText ((hd.append hy).append hb)
    hcolorsText
  rw [← hmiddle, hmiddleText] at hrestText
  rw [hrestText]
  simpa only [List.append_assoc] using hbody

end Body

/-- A text in which a reading is written is read so. -/
theorem ofNormal_complete {cs : List Char} {r : Reading} (h : Written r cs) :
    Reading.ofNormal cs = .ok r := by
  rw [ofNormal_eq_ok_iff]
  cases h with
  | untimed hcs hperiod =>
    obtain ⟨middle, content, after, hbody⟩ := body_complete hcs
    exact ⟨cs, middle, content, after, hperiod ▸ takePeriod_of_no_s (body_no_s hcs), hbody⟩
  | @timed body a numeral b decimal hbody ha hlongest hnumeral hb hperiod hrange =>
    obtain ⟨middle, content, after, hbody⟩ := body_complete hbody
    refine ⟨trimEnd (body ++ a), middle, content, after, ?_, ?_⟩
    · rw [takePeriod_complete hlongest hnumeral hb hrange, hperiod]
    · rw [trimEnd_append_blank body ha, takeColors_trimEnd]
      exact hbody

/-- What is read off a text in normal form is written in it. -/
theorem ofNormal_sound {cs : List Char} {r : Reading} (hcs : Normal cs)
    (h : Reading.ofNormal cs = .ok r) : Written r cs := by
  obtain ⟨rest, middle, content, after, hperiod, hcolors, hrhythm, hsplit, htail, hgroup⟩ :=
    ofNormal_eq_ok_iff.1 h
  rcases takePeriod_sound hcs hperiod with
    ⟨hnone, rfl⟩ | ⟨numeral, decimal, htimed, hnumeral, hrange, hsome⟩
  · exact Written.untimed (body_sound hcs.head hcolors hrhythm hsplit htail hgroup) hnone
  · obtain ⟨-, ha, hlongest, -, -, hb⟩ := htimed
    have hfirst : ∀ c ∈ rest.head?, isBlank c = false := by
      intro c hc
      apply hcs.head c
      rw [List.append_assoc, List.append_assoc, List.append_assoc]
      exact mem_head?_append hc
    have hbody := body_sound hfirst hcolors hrhythm hsplit htail hgroup
    exact Written.timed hbody ha hlongest hnumeral hb hsome hrange

/-- A default that is a period at all only fills in. -/
theorem Characteristic.readWith_of_inHour {default : Binary64} (h : InHour default) (text : String) :
    readWith default text =
      (Reading.ofNormal (normalize text.toList)).map (·.characteristic default) := by
  rw [readWith, (periodFault?_eq_none_iff default).2 h]

theorem Characteristic.readWith_of_not_inHour {defaultPeriod : Binary64} (h : ¬InHour defaultPeriod)
    (text : String) : ∃ f, readWith defaultPeriod text = .error (.invalidPeriod f) := by
  rw [readWith]
  cases hfault : periodFault? defaultPeriod with
  | none => exact absurd ((periodFault?_eq_none_iff _).1 hfault) h
  | some f => exact ⟨f, rfl⟩

/-- Reading gives what is written in the normal form of a text, with the default for a missing
period. -/
theorem readWith_eq_ok_iff {text : String} {defaultPeriod : Binary64} {light : Characteristic} :
    Characteristic.readWith defaultPeriod text = .ok light ↔
      InHour defaultPeriod ∧
        ∃ r, Written r (normalize text.toList) ∧ light = r.characteristic defaultPeriod := by
  by_cases hdefault : InHour defaultPeriod
  · rw [Characteristic.readWith_of_inHour hdefault, map_eq_ok_iff]
    simp only [hdefault, true_and]
    constructor
    · rintro ⟨r, hr, rfl⟩
      exact ⟨r, ofNormal_sound (normal_normalize _) hr, rfl⟩
    · rintro ⟨r, hr, rfl⟩
      exact ⟨r, ofNormal_complete hr, rfl⟩
  · obtain ⟨f, hf⟩ := Characteristic.readWith_of_not_inHour hdefault text
    simp [hf, hdefault]

/-- The texts that are accepted are those whose normal form the grammar has. -/
theorem readWith_isOk_iff (text : String) (defaultPeriod : Binary64) :
    (Characteristic.readWith defaultPeriod text).isOk = true ↔
      InHour defaultPeriod ∧ ∃ r, Written r (normalize text.toList) := by
  have hok : (Characteristic.readWith defaultPeriod text).isOk = true ↔
      ∃ light, Characteristic.readWith defaultPeriod text = .ok light := by
    cases Characteristic.readWith defaultPeriod text <;> simp [Except.isOk, Except.toBool]
  simp only [hok, readWith_eq_ok_iff]
  constructor
  · rintro ⟨light, hdefault, r, hr, -⟩
    exact ⟨hdefault, r, hr⟩
  · rintro ⟨hdefault, r, hr⟩
    exact ⟨r.characteristic defaultPeriod, hdefault, r, hr, rfl⟩

end ChartLight

import ChartLight.Proofs.Except
import ChartLight.Proofs.Grammar

/-! The middle of a text: the group and the long flash. Each reader of it accepts what the grammar
has, and nothing else. -/

namespace ChartLight

open Text

theorem Digits.tight {ds : List Char} (h : Digits ds) : Tight ds :=
  ⟨fun c hc => isBlank_eq_false_of_isDigit (h.isDigit c (List.mem_of_head? hc)),
    fun c hc => isBlank_eq_false_of_isDigit (h.isDigit c (List.mem_of_getLast? hc))⟩

section Elements

theorem readElement_complete {cs : List Char} {n : Nat} (h : ElementText cs n) :
    readElement cs = .ok n := by
  obtain ⟨ha, hds, hb, hle⟩ := h
  rename_i a ds b
  have hall : ds.all (·.isDigit) = true := List.all_eq_true.2 hds.isDigit
  have hlt : ¬ Nat.pow 2 32 ≤ Nat.ofDigitChars 10 ds 0 :=
    Nat.not_le.2 (Nat.lt_of_le_of_lt hle (by decide))
  have hmax : ¬ Group.maxElement < Nat.ofDigitChars 10 ds 0 := Nat.not_lt.2 hle
  have hbad : ¬ (ds.isEmpty || !ds.all (·.isDigit) ||
      Nat.pow 2 32 ≤ Nat.ofDigitChars 10 ds 0) = true := by
    rw [hall, decide_eq_false hlt]
    simp [hds.ne_nil]
  rw [readElement, trim_append_append ha hds.tight hb, if_neg hbad, if_neg hmax]

theorem readElement_sound {cs : List Char} {n : Nat} (h : readElement cs = .ok n) :
    ElementText cs n := by
  obtain ⟨a, b, ha, -, hb, hcs⟩ := trim_split cs
  unfold readElement at h
  dsimp only at h
  split_ifs at h with hbad hlarge
  simp only [Bool.or_eq_true, not_or, decide_eq_true_eq, Bool.not_eq_true, List.isEmpty_eq_false_iff,
    Bool.not_eq_false', List.all_eq_true] at hbad
  obtain ⟨⟨hne, hall⟩, -⟩ := hbad
  obtain rfl := Except.ok.inj h
  have helement := ElementText.intro ha ⟨hne, hall⟩ hb (Nat.le_of_not_lt hlarge)
  rwa [← hcs] at helement

theorem le_of_readElement_digits {ds : List Char} {n : Nat} (hds : Digits ds)
    (h : readElement ds = .ok n) : n = Nat.ofDigitChars 10 ds 0 ∧ n ≤ 99 := by
  rw [readElement, trim_of_tight hds.tight] at h
  split_ifs at h with hbad hlarge
  obtain rfl := Except.ok.inj h
  exact ⟨rfl, Nat.le_of_not_lt hlarge⟩

theorem ElementText.not_mem {cs : List Char} {n : Nat} (h : ElementText cs n) {c : Char}
    (hdigit : c.isDigit = false) (hblank : isBlank c = false) : c ∉ cs := by
  obtain ⟨ha, hds, hb, -⟩ := h
  intro hc
  rcases List.mem_append.1 hc with hc | hc
  · rcases List.mem_append.1 hc with hc | hc
    · simpa [hblank] using ha _ hc
    · simpa [hdigit] using hds.isDigit _ hc
  · simpa [hblank] using hb _ hc

theorem ElementText.plus_not_mem {cs : List Char} {n : Nat} (h : ElementText cs n) : '+' ∉ cs :=
  h.not_mem rfl rfl

theorem mapM_readElement_complete {cs : List Char} {values : List Nat}
    (h : ElementsText cs values) : (cs.splitOn '+').mapM readElement = .ok values := by
  induction h with
  | one h =>
    rw [List.splitOn_eq_singleton h.plus_not_mem, List.mapM_cons, readElement_complete h]
    rfl
  | more h hrest ih =>
    rw [List.splitOn_append_cons_self_of_not_mem h.plus_not_mem, List.mapM_cons,
      readElement_complete h, ih]
    rfl

theorem elementsText_intercalate {parts : List (List Char)} {values : List Nat} (hne : parts ≠ [])
    (h : parts.mapM readElement = .ok values) : ElementsText (['+'].intercalate parts) values := by
  induction parts generalizing values with
  | nil => exact absurd rfl hne
  | cons part parts ih =>
    rw [List.mapM_cons, bind_eq_ok_iff] at h
    obtain ⟨n, hn, h⟩ := h
    obtain ⟨ns, hns, h⟩ := bind_eq_ok_iff.1 h
    obtain rfl := Except.ok.inj h
    cases parts with
    | nil =>
      obtain rfl := Except.ok.inj hns
      rw [List.intercalate_singleton]
      exact ElementsText.one (readElement_sound hn)
    | cons next parts =>
      rw [List.intercalate_cons_cons, List.append_assoc]
      exact ElementsText.more (readElement_sound hn) (ih (by simp) hns)

theorem mapM_readElement_iff {cs : List Char} {values : List Nat} :
    (cs.splitOn '+').mapM readElement = .ok values ↔ ElementsText cs values := by
  refine ⟨fun h => ?_, mapM_readElement_complete⟩
  have htext := elementsText_intercalate (List.splitOn_ne_nil '+' cs) h
  rwa [List.intercalate_splitOn] at htext

theorem readElement_append_blank (cs : List Char) {b : List Char} (hb : Blank b) :
    readElement (cs ++ b) = readElement cs := by
  rw [readElement, trim_append_blank cs hb, readElement]

theorem readElement_blank_append {b : List Char} (hb : Blank b) (cs : List Char) :
    readElement (b ++ cs) = readElement cs := by
  rw [readElement, trim_blank_append hb, readElement]

theorem Blank.plus_not_mem {b : List Char} (hb : Blank b) : '+' ∉ b :=
  fun h => by cases hb _ h

theorem splitOn_blank_append {b : List Char} (hb : Blank b) (cs : List Char) :
    ∃ part parts, cs.splitOn '+' = part :: parts ∧ (b ++ cs).splitOn '+' = (b ++ part) :: parts := by
  induction b with
  | nil =>
    obtain ⟨part, parts, h⟩ := List.exists_cons_of_ne_nil (List.splitOn_ne_nil '+' cs)
    exact ⟨part, parts, h, h⟩
  | cons c b ih =>
    obtain ⟨part, parts, hcs, hparts⟩ := ih fun d hd => hb d (List.mem_cons_of_mem c hd)
    have hc : ¬ (c == '+') = true := by
      rw [beq_iff_eq]
      rintro rfl
      exact Blank.plus_not_mem hb List.mem_cons_self
    refine ⟨part, parts, hcs, ?_⟩
    rw [List.cons_append, List.splitOn_cons_eq_if_modifyHead, if_neg hc, hparts]
    rfl

theorem splitOn_append_blank (cs : List Char) {b : List Char} (hb : Blank b) :
    ∃ parts part, cs.splitOn '+' = parts ++ [part] ∧
      (cs ++ b).splitOn '+' = parts ++ [part ++ b] := by
  induction cs with
  | nil => exact ⟨[], [], rfl, List.splitOn_eq_singleton (Blank.plus_not_mem hb)⟩
  | cons c cs ih =>
    obtain ⟨parts, part, hcs, hparts⟩ := ih
    rw [List.cons_append, List.splitOn_cons_eq_if_modifyHead, List.splitOn_cons_eq_if_modifyHead,
      hcs, hparts]
    split_ifs with hc
    · exact ⟨[] :: parts, part, rfl, rfl⟩
    · cases parts with
      | nil => exact ⟨[], c :: part, rfl, rfl⟩
      | cons first parts => exact ⟨(c :: first) :: parts, part, rfl, rfl⟩

/-- White space around the numbers as a whole is white space around the first or the last. -/
theorem mapM_readElement_trim (cs : List Char) :
    ((trim cs).splitOn '+').mapM readElement = (cs.splitOn '+').mapM readElement := by
  obtain ⟨a, b, ha, -, hb, hcs⟩ := trim_split cs
  generalize trim cs = t at *
  subst hcs
  obtain ⟨part, parts, ht, hfront⟩ := splitOn_blank_append ha t
  obtain ⟨parts', part', hat, hback⟩ := splitOn_append_blank (a ++ t) hb
  have hend : ((a ++ t ++ b).splitOn '+').mapM readElement =
      ((a ++ t).splitOn '+').mapM readElement := by
    rw [hat, hback, List.mapM_append, List.mapM_append, List.mapM_cons, List.mapM_cons,
      readElement_append_blank part' hb]
  rw [hend, hfront, ht, List.mapM_cons, List.mapM_cons, readElement_blank_append ha]

end Elements

theorem readGroup_of_ne_morse {rhythm : Rhythm} (h : rhythm ≠ .morse) (cs : List Char) :
    readGroup rhythm (some cs) =
      ((cs.splitOn '+').mapM readElement).map (Group.ofElements rhythm) := by
  cases rhythm with
  | morse => exact absurd rfl h
  | _ =>
    simp only [readGroup]
    cases (cs.splitOn '+').mapM readElement with
    | error fault => rfl
    | ok values => rcases values with _ | ⟨n, _ | ⟨m, ms⟩⟩ <;> rfl

theorem readGroup_none {rhythm : Rhythm} (h : rhythm ≠ .morse) :
    readGroup rhythm none = .ok .single := by
  cases rhythm with
  | morse => exact absurd rfl h
  | _ => rfl

theorem readGroup_morse_eq_ok_iff {content : Option (List Char)} {group : Group} :
    readGroup .morse content = .ok group ↔
      ∃ c : Char, content = some [c] ∧ c.isUpper = true ∧ group = .letter c := by
  match content with
  | none => simp [readGroup]
  | some [] => simp [readGroup]
  | some [c] =>
    by_cases hc : c.isUpper = true
    · rw [readGroup, if_pos hc]
      constructor
      · intro h
        exact ⟨c, rfl, hc, (Except.ok.inj h).symm⟩
      · rintro ⟨d, hd, -, rfl⟩
        obtain rfl : c = d := by simpa using hd
        rfl
    · simp [readGroup, hc]
  | some (c :: d :: cs) => simp [readGroup]

section Split

theorem splitGroup_parenthesized {content rest : List Char} (h : ')' ∉ content) :
    splitGroup ('(' :: content ++ ')' :: rest) = .ok (some (trim content), trim rest) := by
  have hcontent : ∀ c ∈ content, (c != ')') = true := by
    intro c hc
    rw [bne_iff_ne]
    rintro rfl
    exact h hc
  have hdrop : (content ++ ')' :: rest).dropWhile (· != ')') = ')' :: rest := by
    rw [List.dropWhile_append_of_pos hcontent]
    rfl
  have htake : (content ++ ')' :: rest).takeWhile (· != ')') = content := by
    rw [List.takeWhile_append_of_pos hcontent]
    exact List.append_nil content
  rw [List.cons_append, splitGroup, hdrop, htake]

theorem splitGroup_digits {ds : List Char} (h : Digits ds) :
    splitGroup ds = .ok (some ds, []) := by
  have hall : ds.all (·.isDigit) = true := List.all_eq_true.2 h.isDigit
  have hopen : ∀ inner, ds ≠ '(' :: inner := by
    rintro inner rfl
    cases h.isDigit '(' List.mem_cons_self
  unfold splitGroup
  split
  · exact absurd rfl (hopen _)
  · simp [h.ne_nil, hall]

/-- The three ways in which the middle of a text is split. -/
theorem splitGroup_sound {cs after : List Char} {content : Option (List Char)}
    (h : splitGroup cs = .ok (content, after)) :
    (∃ inner rest, cs = '(' :: inner ++ ')' :: rest ∧ content = some (trim inner) ∧
      after = trim rest) ∨
    (Digits cs ∧ content = some cs ∧ after = []) ∨ (content = none ∧ after = cs) := by
  unfold splitGroup at h
  split at h
  · rename_i inner
    have hsplit := List.takeWhile_append_dropWhile (p := (· != ')')) (l := inner)
    split at h
    · rename_i close rest hdrop
      have hclose := List.head?_dropWhile_not (· != ')') inner
      rw [hdrop] at hclose hsplit
      obtain rfl : close = ')' := by simpa using hclose
      obtain ⟨rfl, rfl⟩ := Prod.mk.inj (Except.ok.inj h)
      exact Or.inl ⟨inner.takeWhile (· != ')'), rest, by rw [List.cons_append, hsplit], rfl, rfl⟩
    · cases h
  · split_ifs at h with hdigits
    · obtain ⟨rfl, rfl⟩ := Prod.mk.inj (Except.ok.inj h)
      simp only [Bool.and_eq_true, Bool.not_eq_true', List.isEmpty_eq_false_iff,
        List.all_eq_true] at hdigits
      exact Or.inr (Or.inl ⟨⟨hdigits.1, hdigits.2⟩, rfl, rfl⟩)
    · obtain ⟨rfl, rfl⟩ := Prod.mk.inj (Except.ok.inj h)
      exact Or.inr (Or.inr ⟨rfl, rfl⟩)

/-- A closed group is split off, whatever white space ends the text. -/
theorem splitGroup_trim_parenthesized {content rest : List Char} (h : ')' ∉ content) :
    splitGroup (trim ('(' :: content ++ ')' :: rest)) = .ok (some (trim content), trim rest) := by
  have hstart : trimStart ('(' :: content ++ ')' :: rest) = '(' :: content ++ ')' :: rest :=
    trimStart_of_head fun c hc => by
      obtain rfl : '(' = c := by simpa using hc
      rfl
  have hclose : ∃ c ∈ ('(' :: content ++ [')']).getLast?, isBlank c = false :=
    ⟨')', List.getLast?_concat, rfl⟩
  have hend : trimEnd ('(' :: content ++ ')' :: rest) =
      '(' :: content ++ ')' :: trimEnd rest := by
    have h := trimEnd_append_of_last hclose rest
    rwa [List.append_assoc, List.append_assoc, List.singleton_append,
      List.singleton_append] at h
  rw [trim, hstart, hend, splitGroup_parenthesized h, trim_trimEnd]

end Split

section Tail

theorem filter_blank {b : List Char} (hb : Blank b) : b.filter (!isBlank ·) = [] := by
  rw [List.filter_eq_nil_iff]
  intro c hc
  simp [hb c hc]

theorem readTail_complete {text : List Char} {tail : Bool} (h : TailText text tail) :
    readTail text = .ok tail := by
  cases h with
  | absent => rfl
  | present ha hb hc =>
    simp only [readTail, List.filter_append, List.filter_cons, filter_blank ha, filter_blank hb,
      filter_blank hc]
    rfl

/-- The first of the characters that are kept, with the white space before it. -/
theorem filter_blank_eq_cons {cs rest : List Char} {c : Char}
    (h : cs.filter (!isBlank ·) = c :: rest) :
    ∃ b tail, Blank b ∧ cs = b ++ c :: tail ∧ tail.filter (!isBlank ·) = rest := by
  obtain ⟨b, tail, hcs, hb, hc, htail⟩ := List.filter_eq_cons_iff.1 h
  exact ⟨b, tail, fun d hd => by simpa using hb d hd, hcs, htail⟩

theorem readTail_sound {cs : List Char} {tail : Bool} (h : readTail cs = .ok tail) :
    ∃ a text b, Blank a ∧ TailText text tail ∧ Blank b ∧ cs = a ++ text ++ b := by
  unfold readTail at h
  split at h
  · rename_i hfilter
    obtain rfl := Except.ok.inj h
    have hblank : Blank cs := by
      intro c hc
      simpa using List.filter_eq_nil_iff.1 hfilter c hc
    exact ⟨cs, [], [], hblank, TailText.absent, Blank.nil, by simp⟩
  · rename_i hfilter
    obtain rfl := Except.ok.inj h
    obtain ⟨a, r₁, ha, rfl, h₁⟩ := filter_blank_eq_cons hfilter
    obtain ⟨b, r₂, hb, rfl, h₂⟩ := filter_blank_eq_cons h₁
    obtain ⟨c, r₃, hc, rfl, h₃⟩ := filter_blank_eq_cons h₂
    obtain ⟨d, r₄, hd, rfl, h₄⟩ := filter_blank_eq_cons h₃
    have hlast : Blank r₄ := by
      intro c hc
      simpa using List.filter_eq_nil_iff.1 h₄ c hc
    exact ⟨a, _, r₄, ha, TailText.present hb hc hd, hlast, by simp⟩
  · cases h

theorem TailText.tight {text : List Char} {tail : Bool} (h : TailText text tail) :
    Tight text := by
  cases h with
  | absent => exact Tight.nil
  | present =>
    refine ⟨fun c hc => ?_, fun c hc => ?_⟩
    · obtain rfl : '+' = c := by simpa using hc
      rfl
    · rw [Option.mem_def, List.getLast?_concat] at hc
      obtain rfl := Option.some.inj hc
      rfl

end Tail

theorem ElementsText.close_not_mem {cs : List Char} {values : List Nat}
    (h : ElementsText cs values) : ')' ∉ cs := by
  induction h with
  | one h => exact h.not_mem rfl rfl
  | more h hrest ih =>
    intro hc
    rcases List.mem_append.1 hc with hc | hc
    · exact h.not_mem rfl rfl hc
    · rcases List.mem_cons.1 hc with hc | hc
      · cases hc
      · exact ih hc

section Complete

variable {rhythm : Rhythm} {tail : Bool} {groupText c tailText d : List Char} {group : Group}

theorem splitGroup_closed {inner : List Char} (h : ')' ∉ inner) (hc : Blank c)
    (htail : TailText tailText tail) (hd : Blank d) :
    splitGroup (trim ('(' :: inner ++ [')'] ++ c ++ tailText ++ d)) =
      .ok (some (trim inner), tailText) := by
  have htext : '(' :: inner ++ [')'] ++ c ++ tailText ++ d =
      '(' :: inner ++ ')' :: (c ++ tailText ++ d) := by simp
  rw [htext, splitGroup_trim_parenthesized h, trim_append_append hc htail.tight hd]

/-- A letter between parentheses is what a Morse light reads. -/
theorem splitGroup_letter {a b : List Char} {letter : Char} (ha : Blank a)
    (hletter : letter.isUpper = true) (hb : Blank b) :
    ')' ∉ a ++ letter :: b ∧ trim (a ++ letter :: b) = [letter] := by
  constructor
  · intro h
    rcases List.mem_append.1 h with h | h
    · cases ha _ h
    · rcases List.mem_cons.1 h with rfl | h
      · cases hletter
      · cases hb _ h
  · have hblank : isBlank letter = false := isBlank_eq_false_of_isUpper hletter
    have htight : Tight [letter] := ⟨by simpa using hblank, by simpa using hblank⟩
    have h := trim_append_append ha htight hb
    rwa [List.append_assoc, List.singleton_append] at h

/-- The middle of a text as the grammar has it is read. -/
theorem splitGroup_complete (hgroup : GroupText rhythm tail groupText group) (hc : Blank c)
    (htail : TailText tailText tail) (hd : Blank d) :
    ∃ content after, splitGroup (trim (groupText ++ c ++ tailText ++ d)) = .ok (content, after) ∧
      readTail after = .ok tail ∧ readGroup rhythm content = .ok group := by
  cases hgroup with
  | absent hrhythm =>
    refine ⟨none, tailText, ?_, readTail_complete htail, readGroup_none hrhythm⟩
    rw [List.nil_append, trim_append_append hc htail.tight hd]
    cases htail <;> rfl
  | @letter a b letter hrhythm ha hletter hb =>
    obtain ⟨hclose, hcontent⟩ := splitGroup_letter ha hletter hb
    refine ⟨some [letter], tailText, ?_, readTail_complete htail, ?_⟩
    · rw [← hcontent]
      exact splitGroup_closed hclose hc htail hd
    · rw [hrhythm]
      exact readGroup_morse_eq_ok_iff.2 ⟨letter, rfl, hletter, rfl⟩
  | @parenthesized cs values hrhythm h =>
    refine ⟨some (trim cs), tailText, splitGroup_closed h.close_not_mem hc htail hd,
      readTail_complete htail, ?_⟩
    rw [readGroup_of_ne_morse hrhythm, mapM_readElement_trim, mapM_readElement_complete h]
    rfl
  | bare hrhythm htailFalse hds hle =>
    subst htailFalse
    cases htail
    have helement := ElementText.intro Blank.nil hds Blank.nil hle
    rw [List.nil_append, List.append_nil] at helement
    refine ⟨some groupText, [], ?_, rfl, ?_⟩
    · have htrim := trim_append_append Blank.nil hds.tight (hc.append hd)
      rw [List.nil_append, ← List.append_assoc] at htrim
      rw [List.append_nil, htrim, splitGroup_digits hds]
    · rw [readGroup_of_ne_morse hrhythm, mapM_readElement_complete (ElementsText.one helement)]
      rfl

end Complete

section Sound

variable {rhythm : Rhythm} {tail : Bool} {group : Group}

theorem groupText_of_none (h : readGroup rhythm none = .ok group) :
    GroupText rhythm tail [] group := by
  by_cases hrhythm : rhythm = .morse
  · subst hrhythm
    cases h
  · rw [readGroup_none hrhythm] at h
    obtain rfl := Except.ok.inj h
    exact GroupText.absent hrhythm

theorem groupText_of_closed {inner : List Char}
    (h : readGroup rhythm (some (trim inner)) = .ok group) :
    GroupText rhythm tail ('(' :: inner ++ [')']) group := by
  by_cases hrhythm : rhythm = .morse
  · subst hrhythm
    obtain ⟨c, hc, hupper, rfl⟩ := readGroup_morse_eq_ok_iff.1 h
    obtain ⟨a, b, ha, -, hb, hinner⟩ := trim_split inner
    rw [Option.some.inj hc] at hinner
    have hletter : GroupText .morse tail ('(' :: a ++ c :: b ++ [')']) (.letter c) :=
      GroupText.letter rfl ha hupper hb
    rw [hinner]
    simpa using hletter
  · rw [readGroup_of_ne_morse hrhythm, mapM_readElement_trim, map_eq_ok_iff] at h
    obtain ⟨values, hvalues, rfl⟩ := h
    exact GroupText.parenthesized hrhythm (mapM_readElement_iff.1 hvalues)

theorem groupText_of_digits {ds : List Char} (hds : Digits ds)
    (h : readGroup rhythm (some ds) = .ok group) : GroupText rhythm false ds group := by
  have hrhythm : rhythm ≠ .morse := by
    rintro rfl
    obtain ⟨c, hc, hupper, -⟩ := readGroup_morse_eq_ok_iff.1 h
    obtain rfl := Option.some.inj hc
    rw [isUpper_eq_false_of_isDigit (hds.isDigit c List.mem_cons_self)] at hupper
    cases hupper
  have hplus : '+' ∉ ds := fun hmem => by cases hds.isDigit _ hmem
  rw [readGroup_of_ne_morse hrhythm, List.splitOn_eq_singleton hplus, List.mapM_cons,
    map_eq_ok_iff] at h
  obtain ⟨values, hvalues, rfl⟩ := h
  obtain ⟨n, hn, hvalues⟩ := bind_eq_ok_iff.1 hvalues
  obtain rfl := Except.ok.inj hvalues
  obtain ⟨rfl, hle⟩ := le_of_readElement_digits hds hn
  exact GroupText.bare hrhythm rfl hds hle

/-- The middle of a text that is read is as the grammar has it. -/
theorem splitGroup_readGroup_sound {middle after : List Char} {content : Option (List Char)}
    (h : splitGroup middle = .ok (content, after)) (htail : readTail after = .ok tail)
    (hgroup : readGroup rhythm content = .ok group) :
    ∃ groupText c tailText d, GroupText rhythm tail groupText group ∧ Blank c ∧
      TailText tailText tail ∧ Blank d ∧ middle = groupText ++ c ++ tailText ++ d := by
  obtain ⟨a, text, b, ha, htext, hb, hafter⟩ := readTail_sound htail
  rcases splitGroup_sound h with ⟨inner, rest, rfl, rfl, rfl⟩ | ⟨hds, rfl, rfl⟩ | ⟨rfl, rfl⟩
  · obtain ⟨x, y, hx, -, hy, hrest⟩ := trim_split rest
    rw [hafter] at hrest
    exact ⟨'(' :: inner ++ [')'], x ++ a, text, b ++ y, groupText_of_closed hgroup, hx.append ha,
      htext, hb.append hy, by rw [hrest]; simp⟩
  · obtain rfl := Except.ok.inj htail
    exact ⟨middle, [], [], [], groupText_of_digits hds hgroup, Blank.nil, TailText.absent,
      Blank.nil, by simp⟩
  · exact ⟨[], a, text, b, groupText_of_none hgroup, ha, htext, hb, hafter⟩

end Sound

end ChartLight

import ChartLight.Proofs.Clauses
import ChartLight.Proofs.Milliseconds
import ChartLight.Proofs.Validity

/-! The prose on a light tells all of it. The first words name the colour and the rhythm, and both
colours of an alternating light; then come a group, a long flash and the period, each in a clause of
its own. Of lights that keep the rules no two have the same sentence and different cycles. -/

namespace ChartLight

open Number Text

section Names

theorem Color.capitalized_injective : Function.Injective Color.capitalized := by
  intro c d h
  cases c <;> cases d <;> first | rfl | simp [capitalized] at h

theorem Color.name_injective : Function.Injective Color.name := by
  intro c d h
  cases c <;> cases d <;> first | rfl | simp [name] at h

theorem Color.french_injective : Function.Injective Color.french := by
  intro c d h
  cases c <;> cases d <;> first | rfl | simp [french] at h

theorem Rhythm.english_injective : Function.Injective Rhythm.english :=
  Function.LeftInverse.injective (g := fun text => (all.find? (·.english == text)).getD .fixed)
    fun r => by cases r <;> rfl

theorem Rhythm.french_injective : Function.Injective Rhythm.french :=
  Function.LeftInverse.injective (g := fun text => (all.find? (·.french == text)).getD .fixed)
    fun r => by cases r <;> rfl

/-- Names of colours are single words. -/
theorem Color.blank_not_mem (c : Color) :
    ' ' ∉ c.capitalized.toList ∧ ' ' ∉ c.name.toList ∧ ' ' ∉ c.french.toList := by
  refine ⟨?_, ?_, ?_⟩ <;> cases c <;> exact not_mem_literal (by decide)

theorem Color.comma_not_mem (c : Color) :
    ',' ∉ c.capitalized.toList ∧ ',' ∉ c.name.toList ∧ ',' ∉ c.french.toList := by
  refine ⟨?_, ?_, ?_⟩ <;> cases c <;> exact not_mem_literal (by decide)

theorem Rhythm.comma_not_mem (r : Rhythm) : ',' ∉ r.english.toList ∧ ',' ∉ r.french.toList := by
  constructor <;> cases r <;> exact not_mem_literal (by decide)

end Names

section Opening

/-- The first words where one colour is named. -/
def plainWords : Language → Color → Rhythm → List Char
  | .english, c, r => c.capitalized.toList ++ ' ' :: (r.english.toList ++ " light".toList)
  | .french, c, .morse => "Feu ".toList ++ ("Morse".toList ++ ' ' :: c.french.toList)
  | .french, c, r => "Feu ".toList ++ (c.french.toList ++ ' ' :: r.french.toList)

/-- The first words where an alternating light has two colours. -/
def pairWords : Language → Color → Color → List Char
  | .english, c, d => "Alternating light".toList ++
      ',' :: ' ' :: (c.name.toList ++ ' ' :: ("and ".toList ++ d.name.toList))
  | .french, c, d => "Feu ".toList ++
      ("alterné".toList ++ ' ' :: (c.french.toList ++ ' ' :: ("et ".toList ++ d.french.toList)))

variable {language : Language} {c c' d d' : Color} {r r' : Rhythm} {x y : List Char}

theorem plainWords_french (h : r ≠ .morse) :
    plainWords .french c r = "Feu ".toList ++ (c.french.toList ++ ' ' :: r.french.toList) := by
  cases r with
  | morse => exact absurd rfl h
  | _ => rfl

theorem comma_not_mem_plainWords : ',' ∉ plainWords language c r := by
  have hc := c.comma_not_mem
  have hr := r.comma_not_mem
  cases language with
  | english => simp [plainWords, hc, hr]
  | french =>
    by_cases hmorse : r = .morse
    · subst hmorse
      simp [plainWords, hc]
    · simp [plainWords_french hmorse, hc, hr]

theorem plainWords_inj (h : plainWords language c r = plainWords language c' r') :
    c = c' ∧ r = r' := by
  have hmorse (c : Color) : ' ' ∉ "Morse".toList ∧ c.french.toList ≠ "Morse".toList := by
    cases c <;> decide
  cases language with
  | english =>
    obtain ⟨hcolor, hrhythm⟩ := append_cons_inj c.blank_not_mem.1 c'.blank_not_mem.1 h
    have hrhythm := List.append_cancel_right hrhythm
    exact ⟨Color.capitalized_injective (String.toList_inj.1 hcolor),
      Rhythm.english_injective (String.toList_inj.1 hrhythm)⟩
  | french =>
    -- a Morse light has its rhythm before its colour, and no colour is called so
    by_cases hr : r = .morse <;> by_cases hr' : r' = .morse
    · subst hr hr'
      have hcolor := (append_cons_inj (hmorse c).1 (hmorse c').1 (List.append_cancel_left h)).2
      exact ⟨Color.french_injective (String.toList_inj.1 hcolor), rfl⟩
    · subst hr
      rw [plainWords_french hr'] at h
      have hword := (append_cons_inj (hmorse c).1 c'.blank_not_mem.2.2 (List.append_cancel_left h)).1
      exact absurd hword.symm (hmorse c').2
    · subst hr'
      rw [plainWords_french hr] at h
      have hword := (append_cons_inj c.blank_not_mem.2.2 (hmorse c').1 (List.append_cancel_left h)).1
      exact absurd hword (hmorse c).2
    · rw [plainWords_french hr, plainWords_french hr'] at h
      obtain ⟨hcolor, hrhythm⟩ :=
        append_cons_inj c.blank_not_mem.2.2 c'.blank_not_mem.2.2 (List.append_cancel_left h)
      exact ⟨Color.french_injective (String.toList_inj.1 hcolor),
        Rhythm.french_injective (String.toList_inj.1 hrhythm)⟩

theorem plainWords_append_inj (h : plainWords language c r ++ ',' :: x =
    plainWords language c' r' ++ ',' :: y) : c = c' ∧ r = r' ∧ x = y := by
  obtain ⟨hwords, hrest⟩ := append_cons_inj comma_not_mem_plainWords comma_not_mem_plainWords h
  obtain ⟨hcolor, hrhythm⟩ := plainWords_inj hwords
  exact ⟨hcolor, hrhythm, hrest⟩

/-- Of two names with a word between them, the first ends at the blank and the second at the comma. -/
theorem names_append_inj (word : List Char) {a b a' b' : List Char} (hword : ',' ∉ word)
    (ha : ' ' ∉ a ∧ ',' ∉ a) (ha' : ' ' ∉ a' ∧ ',' ∉ a') (hb : ',' ∉ b) (hb' : ',' ∉ b')
    (h : (a ++ ' ' :: (word ++ b)) ++ ',' :: x = (a' ++ ' ' :: (word ++ b')) ++ ',' :: y) :
    a = a' ∧ b = b' ∧ x = y := by
  obtain ⟨hnames, hrest⟩ :=
    append_cons_inj (by simp [ha.2, hword, hb]) (by simp [ha'.2, hword, hb']) h
  obtain ⟨hfirst, hsecond⟩ := append_cons_inj ha.1 ha'.1 hnames
  exact ⟨hfirst, List.append_cancel_left hsecond, hrest⟩

/-- The second colour ends where the next clause begins. -/
theorem pairWords_append_inj (h : pairWords language c d ++ ',' :: x =
    pairWords language c' d' ++ ',' :: y) : c = c' ∧ d = d' ∧ x = y := by
  have hname (c : Color) := And.intro c.blank_not_mem.2.1 c.comma_not_mem.2.1
  have hfrench (c : Color) := And.intro c.blank_not_mem.2.2 c.comma_not_mem.2.2
  unfold pairWords at h
  cases language with
  | english =>
    obtain ⟨hfirst, hsecond, hrest⟩ := names_append_inj "and ".toList (by decide)
      (hname c) (hname c') (hname d).2 (hname d').2 (by simpa using h)
    exact ⟨Color.name_injective (String.toList_inj.1 hfirst),
      Color.name_injective (String.toList_inj.1 hsecond), hrest⟩
  | french =>
    obtain ⟨hfirst, hsecond, hrest⟩ := names_append_inj "et ".toList (by decide)
      (hfrench c) (hfrench c') (hfrench d).2 (hfrench d').2 (by simpa using h)
    exact ⟨Color.french_injective (String.toList_inj.1 hfirst),
      Color.french_injective (String.toList_inj.1 hsecond), hrest⟩

theorem plainWords_append_ne_pairWords :
    plainWords language c r ++ ',' :: x ≠ pairWords language c' d ++ ',' :: y := by
  intro h
  unfold pairWords at h
  cases language with
  | english =>
    have hwords : plainWords .english c r ++ ',' :: x = "Alternating light".toList ++ ',' ::
        (' ' :: (c'.name.toList ++ ' ' :: ("and ".toList ++ d.name.toList)) ++ ',' :: y) := by
      simpa using h
    have hfirst := (append_cons_inj comma_not_mem_plainWords (by decide) hwords).1
    unfold plainWords at hfirst
    cases c <;> simp [Color.capitalized] at hfirst
  | french =>
    have hc' := c'.comma_not_mem
    have hd := d.comma_not_mem
    have hwords := (append_cons_inj comma_not_mem_plainWords (by simp [hc', hd]) h).1
    by_cases hmorse : r = .morse
    · subst hmorse
      unfold plainWords at hwords
      simp at hwords
    · rw [plainWords_french hmorse] at hwords
      cases c <;> simp [Color.french] at hwords

end Opening

section Period

/-- The last clause, with the sentence's end. -/
def periodWords : Language → Binary64 → List Char
  | .english, seconds => ", period ".toList ++ ((secondsText seconds).toList ++ " s.".toList)
  | .french, seconds => ", période ".toList ++
      ((secondsText seconds).toList.map (fun c => if c = '.' then ',' else c) ++ " s.".toList)

theorem follows_periodWords {initials : List Char} (h : 'p' ∈ initials) (language : Language)
    (seconds : Binary64) : Follows initials (periodWords language seconds) := by
  refine ⟨'p', h, ?_⟩
  unfold periodWords
  cases language <;> simp

/-- Points of a text without commas can be written as commas. -/
theorem map_point_comma_inj {a b : List Char} (ha : ',' ∉ a) (hb : ',' ∉ b)
    (h : a.map (fun c => if c = '.' then ',' else c) =
      b.map (fun c => if c = '.' then ',' else c)) : a = b := by
  have hback {cs : List Char} (hcs : ',' ∉ cs) : (cs.map fun c => if c = '.' then ',' else c).map
      (fun c => if c = ',' then '.' else c) = cs := by
    rw [List.map_map]
    conv_rhs => rw [← List.map_id cs]
    refine List.map_congr_left fun c hc => ?_
    have hcomma : c ≠ ',' := by
      rintro rfl
      exact hcs hc
    by_cases hpoint : c = '.' <;> simp [hpoint, hcomma]
  rw [← hback ha, ← hback hb, h]

theorem secondsText_inj {p q : Binary64} (hp : InHour p) (hq : InHour q)
    (h : (secondsText p).toList = (secondsText q).toList) : p = q := by
  obtain ⟨d, hd, rfl⟩ := numeral_secondsText hp
  obtain ⟨e, he, rfl⟩ := numeral_secondsText hq
  have hpoint := ofPoint?_of_numeral hd
  rw [h, ofPoint?_of_numeral he, Option.some.injEq] at hpoint
  rw [hpoint]

theorem not_mem_secondsText {p : Binary64} (hp : InHour p) {c : Char} (hc : inNumeral c = false) :
    c ∉ (secondsText p).toList := by
  intro h
  obtain ⟨d, hd, -⟩ := numeral_secondsText hp
  rw [hd.inNumeral c h] at hc
  cases hc

theorem comma_not_mem_secondsText {p : Binary64} (hp : InHour p) : ',' ∉ (secondsText p).toList :=
  not_mem_secondsText hp rfl

/-- The words on the period tell the period. -/
theorem periodWords_inj {language : Language} {p q : Binary64} (hp : InHour p) (hq : InHour q)
    (h : periodWords language p = periodWords language q) : p = q := by
  cases language with
  | english =>
    have hseconds := List.append_cancel_right (List.append_cancel_left h)
    exact secondsText_inj hp hq hseconds
  | french =>
    have hseconds := List.append_cancel_right (List.append_cancel_left h)
    exact secondsText_inj hp hq
      (map_point_comma_inj (comma_not_mem_secondsText hp) (comma_not_mem_secondsText hq) hseconds)

end Period

section Rest

/-- The clause on a long flash. -/
def tailWords : Language → Bool → List Char
  | _, false => []
  | .english, true => ", followed by a long flash".toList
  | .french, true => ", suivi d'un éclat long".toList

def tailInitial? : Language → Bool → Option Char
  | _, false => none
  | .english, true => some 'f'
  | .french, true => some 's'

theorem clause_tailWords (language : Language) (tail : Bool) :
    Clause (tailInitial? language tail) (tailWords language tail) := by
  cases tail with
  | false => cases language <;> exact Clause.absent
  | true => cases language <;> exact Clause.present (by decide)

theorem tailWords_inj {language : Language} {tail other : Bool}
    (h : tailWords language tail = tailWords language other) : tail = other := by
  have hinitial := (clause_tailWords language tail).initial_unique
    (h ▸ clause_tailWords language other)
  cases tail <;> cases other <;> first | rfl | (cases language <;> cases hinitial)

/-- What follows the first words. -/
def Characteristic.restWords (language : Language) (light : Characteristic) : List Char :=
  light.group.words language light.rhythm ++
    (tailWords language light.longFlashTail ++ periodWords language light.period)

theorem Group.initial?_mem (language : Language) (group : Group) :
    ∀ c ∈ group.initial? language, c ∈ ['g', 'c', 'e', 'o', 'l'] := by
  intro c hc
  cases group <;> cases language <;> cases hc <;> decide

theorem Group.initial?_not_mem (language : Language) (group : Group) :
    ∀ c ∈ group.initial? language, c ∉ ['f', 's', 'p'] := by
  intro c hc
  cases group <;> cases language <;> cases hc <;> decide

theorem tailInitial?_cases {language : Language} {tail : Bool} {c : Char}
    (h : c ∈ tailInitial? language tail) : c = 'f' ∨ c = 's' := by
  cases tail <;> cases language <;> cases h <;> decide

/-- The clause on a group is followed by one on a long flash or on the period. -/
theorem follows_tail (language : Language) (tail : Bool) (seconds : Binary64) {initials : List Char}
    (h : 'f' ∈ initials ∧ 's' ∈ initials ∧ 'p' ∈ initials) :
    Follows initials (tailWords language tail ++ periodWords language seconds) := by
  apply (clause_tailWords language tail).follows
  · intro c hc
    rcases tailInitial?_cases hc with rfl | rfl
    · exact h.1
    · exact h.2.1
  · exact follows_periodWords h.2.2 language seconds

namespace Characteristic

variable {language : Language} {light other : Characteristic}

theorem ne_letter_comma (h : light.fault? = none) : light.group ≠ .letter ',' := by
  intro hletter
  obtain ⟨-, -, hshape⟩ := (fault?_eq_none_iff_shape light).1 h
  rw [hletter] at hshape
  cases hrhythm : light.rhythm <;> simp [hrhythm, shapeFault?] at hshape

/-- A comma ends the first words. -/
theorem exists_restWords_eq (language : Language) (h : light.fault? = none) :
    ∃ rest, light.restWords language = ',' :: rest := by
  have hclause := Group.clause_words language light.rhythm (ne_letter_comma h)
  have hfollows : Follows (['g', 'c', 'e', 'o', 'l'] ++ ['f', 's', 'p'])
      (light.restWords language) := by
    apply hclause.follows
    · intro c hc
      exact List.mem_append_left _ (Group.initial?_mem language light.group c hc)
    · exact follows_tail language _ _ (by simp)
  obtain ⟨c, -, rest, hrest⟩ := hfollows
  exact ⟨_, hrest⟩

/-- Each clause behind the first words tells what it is about. -/
theorem restWords_inj (hlight : light.fault? = none) (hother : other.fault? = none)
    (hrhythm : light.rhythm = other.rhythm)
    (h : light.restWords language = other.restWords language) :
    light.group = other.group ∧ light.longFlashTail = other.longFlashTail ∧
      light.period = other.period := by
  have hgroup := ne_letter_comma hlight
  have hgroup' := ne_letter_comma hother
  have htail (tail : Bool) : ∀ c ∈ tailInitial? language tail, c ∉ ['p'] := by
    intro c hc
    rcases tailInitial?_cases hc with rfl | rfl <;> decide
  unfold restWords at h
  rw [hrhythm] at h
  obtain ⟨hwords, hrest⟩ := (Group.clause_words language _ hgroup).append_inj
    (Group.clause_words language _ hgroup') (Group.initial?_not_mem language _)
    (Group.initial?_not_mem language _) (follows_tail language _ _ (by simp))
    (follows_tail language _ _ (by simp)) h
  obtain ⟨hlong, hperiod⟩ := (clause_tailWords language _).append_inj
    (clause_tailWords language _) (htail _) (htail _)
    (follows_periodWords (List.mem_singleton_self 'p') language _)
    (follows_periodWords (List.mem_singleton_self 'p') language _) hrest
  refine ⟨Group.words_inj hgroup hgroup' hwords, tailWords_inj hlong, ?_⟩
  have hhour := ((fault?_eq_none_iff_shape light).1 hlight).1
  have hhour' := ((fault?_eq_none_iff_shape other).1 hother).1
  exact periodWords_inj hhour hhour' hperiod

end Characteristic

end Rest

namespace Characteristic

section Sentence

variable {light other : Characteristic}

theorem colors_cases (light : Characteristic) :
    (∃ alt, light.rhythm = .alternating ∧ light.altColor = some alt) ∨
      (light.rhythm = .alternating → light.altColor = none) := by
  cases halt : light.altColor with
  | none => exact Or.inr fun _ => rfl
  | some alt =>
    by_cases hrhythm : light.rhythm = .alternating
    · exact Or.inl ⟨alt, hrhythm, rfl⟩
    · exact Or.inr fun h => absurd h hrhythm

/-- The first words of a sentence. -/
def opening (language : Language) (light : Characteristic) : String :=
  match language with
  | .english =>
    match light.rhythm, light.altColor with
    | .alternating, some alt => "Alternating light, " ++ light.color.name ++ " and " ++ alt.name
    | rhythm, _ => light.color.capitalized ++ " " ++ rhythm.english ++ " light"
  | .french =>
    match light.rhythm, light.altColor with
    | .alternating, some alt => "Feu alterné " ++ light.color.french ++ " et " ++ alt.french
    | .morse, _ => "Feu Morse " ++ light.color.french
    | rhythm, _ => "Feu " ++ light.color.french ++ " " ++ rhythm.french

theorem prose_eq (language : Language) (light : Characteristic) :
    (light.prose language).toList = (light.opening language).toList ++ light.restWords language := by
  unfold restWords Group.words tailWords periodWords
  cases language with
  | english =>
    have htext : light.prose .english = light.opening .english ++
      light.group.english light.rhythm ++
      (if light.longFlashTail then ", followed by a long flash" else "") ++
      ", period " ++ secondsText light.period ++ " s." := rfl
    rw [htext]
    cases light.longFlashTail <;> simp
  | french =>
    have htext : light.prose .french = light.opening .french ++
      light.group.french light.rhythm ++
      (if light.longFlashTail then ", suivi d'un éclat long" else "") ++
      ", période " ++ String.ofList ((secondsText light.period).toList.map
        fun c => if c = '.' then ',' else c) ++ " s." := rfl
    rw [htext]
    cases light.longFlashTail <;> simp

theorem opening_pair (language : Language) {alt : Color} (hrhythm : light.rhythm = .alternating)
    (halt : light.altColor = some alt) :
    (light.opening language).toList = pairWords language light.color alt := by
  unfold opening pairWords
  rw [hrhythm, halt]
  cases language <;> simp

theorem opening_english (halt : light.rhythm = .alternating → light.altColor = none) :
    light.opening .english =
      light.color.capitalized ++ " " ++ light.rhythm.english ++ " light" := by
  unfold opening
  cases hrhythm : light.rhythm with
  | alternating => rw [halt hrhythm]
  | _ => rfl

theorem opening_french (halt : light.rhythm = .alternating → light.altColor = none)
    (hmorse : light.rhythm ≠ .morse) :
    light.opening .french = "Feu " ++ light.color.french ++ " " ++ light.rhythm.french := by
  unfold opening
  cases hrhythm : light.rhythm with
  | alternating => rw [halt hrhythm]
  | morse => exact absurd hrhythm hmorse
  | _ => rfl

theorem opening_plain (language : Language)
    (halt : light.rhythm = .alternating → light.altColor = none) :
    (light.opening language).toList = plainWords language light.color light.rhythm := by
  cases language with
  | english =>
    unfold plainWords
    rw [opening_english halt]
    simp
  | french =>
    by_cases hmorse : light.rhythm = .morse
    · unfold opening plainWords
      rw [hmorse]
      simp
    · rw [opening_french halt hmorse, plainWords_french hmorse]
      simp

/-- The first words tell the rhythm and the colours, and end where the rest begins. -/
theorem opening_inj {language : Language} (hlight : light.fault? = none)
    (hother : other.fault? = none) (h : light.prose language = other.prose language) :
    light.rhythm = other.rhythm ∧ light.color = other.color ∧
      (light.rhythm = .alternating → light.altColor = other.altColor) ∧
      light.restWords language = other.restWords language := by
  obtain ⟨rest, hrest⟩ := exists_restWords_eq language hlight
  obtain ⟨rest', hrest'⟩ := exists_restWords_eq language hother
  have htext := congrArg String.toList h
  rw [prose_eq, prose_eq, hrest, hrest'] at htext
  rw [hrest, hrest']
  rcases light.colors_cases with ⟨alt, hrhythm, halt⟩ | halt <;>
    rcases other.colors_cases with ⟨alt', hrhythm', halt'⟩ | halt'
  · rw [opening_pair language hrhythm halt, opening_pair language hrhythm' halt'] at htext
    obtain ⟨hcolor, hsecond, hsame⟩ := pairWords_append_inj htext
    refine ⟨hrhythm.trans hrhythm'.symm, hcolor, fun _ => ?_, by rw [hsame]⟩
    rw [halt, halt', hsecond]
  · rw [opening_pair language hrhythm halt, opening_plain language halt'] at htext
    exact absurd htext.symm plainWords_append_ne_pairWords
  · rw [opening_plain language halt, opening_pair language hrhythm' halt'] at htext
    exact absurd htext plainWords_append_ne_pairWords
  · rw [opening_plain language halt, opening_plain language halt'] at htext
    obtain ⟨hcolor, hrhythm, hsame⟩ := plainWords_append_inj htext
    refine ⟨hrhythm, hcolor, fun halternating => ?_, by rw [hsame]⟩
    rw [halt halternating, halt' (hrhythm ▸ halternating)]

end Sentence

/-- The second colour is that of an alternating light, and shown by no other. -/
theorem rhythmPattern_congr {a b : Characteristic} (hrhythm : a.rhythm = b.rhythm)
    (hgroup : a.group = b.group) (hcolor : a.color = b.color) (hperiod : a.period = b.period)
    (halt : a.rhythm = .alternating → a.altColor = b.altColor) :
    a.rhythmPattern = b.rhythmPattern := by
  obtain ⟨rhythm, group, color, altColor, period, tail⟩ := a
  obtain ⟨rhythm', group', color', altColor', period', tail'⟩ := b
  dsimp only at hrhythm hgroup hcolor hperiod halt
  subst hrhythm hgroup hcolor hperiod
  cases rhythm with
  | alternating =>
    rw [halt rfl]
    rfl
  | _ => rfl

/-- Lights that keep the rules and have one sentence in a language are the same light, up to a second
colour that only an alternating light shows; so they have the same cycle. -/
theorem prose_tells_lights_apart {language : Language} {light other : Characteristic}
    (hlight : light.fault? = none) (hother : other.fault? = none)
    (h : light.prose language = other.prose language) :
    light.rhythm = other.rhythm ∧ light.group = other.group ∧ light.color = other.color ∧
      light.period = other.period ∧ light.longFlashTail = other.longFlashTail ∧
      (light.rhythm = .alternating → light.altColor = other.altColor) ∧
      ∀ overrun, light.cycle overrun = other.cycle overrun := by
  obtain ⟨hrhythm, hcolor, halt, hrest⟩ := opening_inj hlight hother h
  obtain ⟨hgroup, htail, hperiod⟩ := restWords_inj hlight hother hrhythm hrest
  refine ⟨hrhythm, hgroup, hcolor, hperiod, htail, halt, ?_⟩
  have hlamp : light.lamp = other.lamp := by rw [lamp, lamp, hcolor]
  have hms : light.periodMs = other.periodMs := by rw [periodMs, periodMs, hperiod]
  have hpattern : light.pattern = other.pattern := by
    rw [pattern, pattern, tailPattern, tailPattern, htail, hlamp,
      rhythmPattern_congr hrhythm hgroup hcolor hperiod halt]
  intro overrun
  exact cycle_congr hms hcolor hpattern overrun

/-- A second colour of a fixed light is not told, and it is not shown either. -/
theorem prose_tells_lights_apart_fixed :
    let light : Characteristic := { ofRhythm .fixed with altColor := some .red }
    light ≠ ofRhythm .fixed ∧ light.prose .french = (ofRhythm .fixed).prose .french ∧
      ∀ overrun, light.cycle overrun = (ofRhythm .fixed).cycle overrun := by
  intro light
  have hfixed : (ofRhythm .fixed).Readable :=
    ⟨ofRhythm_period .fixed ▸ inHour_defaultPeriod, .single (by decide)⟩
  have hlight : light.Readable := ⟨by simpa only [light] using hfixed.period, hfixed.group⟩
  have hprose : light.prose .french = (ofRhythm .fixed).prose .french := by
    simp only [light, prose, french, ofRhythm]
  obtain ⟨-, -, -, -, -, -, hcycle⟩ := prose_tells_lights_apart hlight.fault? hfixed.fault? hprose
  refine ⟨?_, hprose, hcycle⟩
  intro hsame
  cases congrArg altColor hsame

end Characteristic

end ChartLight

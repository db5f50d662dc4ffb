import ChartLight.Proofs.Grammar

/-! Taking the colours off a text. What is peeled off the end is a run of colour codes as the
grammar has them, and the run is the longest: what stays ends in none, and keeps its separators.
Each code takes one turn of a loop, which therefore ends on every text. -/

namespace ChartLight

open Text

theorem Color.ofLetter?_eq_some_iff (c : Char) (color : Color) :
    Color.ofLetter? c = some color ↔ color.capitals = [c] := by
  unfold Color.ofLetter?
  split <;> cases color <;> simp_all [Color.capitals, eq_comm]

theorem isSeparator_of_isBlank {c : Char} (h : isBlank c = true) : isSeparator c = true := by
  rw [isSeparator, h, Bool.or_true]

theorem ColorsText.append {a b : List Char} {xs ys : List Color} (ha : ColorsText a xs)
    (hb : ColorsText b ys) : ColorsText (a ++ b) (xs ++ ys) := by
  induction ha with
  | nil => exact hb
  | @cons separators rest colors color hseparators hrest ih =>
    rw [List.append_assoc]
    exact ColorsText.cons color hseparators ih

theorem ColorsText.s_not_mem {text : List Char} {colors : List Color} (h : ColorsText text colors) :
    'S' ∉ text := by
  induction h with
  | nil => exact List.not_mem_nil
  | @cons separators rest colors color hseparators hrest ih =>
    intro hs
    rcases List.mem_append.1 hs with hs | hs
    · rcases List.mem_append.1 hs with hs | hs
      · cases color <;> simp [Color.capitals] at hs
      · cases hseparators _ hs
    · exact ih hs

/-- A colour code at the end of a text is peeled off, with the separators behind it. -/
theorem peelColors_of_code {reversed rest : List Char} (color : Color)
    (h : reversed.dropWhile isSeparator = color.capitals.reverse ++ rest) (found : List Color) :
    peelColors reversed found = peelColors rest (color :: found) := by
  rw [peelColors]
  split
  · rename_i rest' hdrop
    rw [h] at hdrop
    cases color with
    | blue =>
      obtain ⟨-, -, rfl⟩ : 'U' = 'U' ∧ 'B' = 'B' ∧ rest = rest' := by
        simpa [Color.capitals] using hdrop
      rfl
    | _ => simp [Color.capitals] at hdrop
  · rename_i c rest' hne hdrop
    rw [h] at hdrop
    cases color with
    | blue =>
      obtain ⟨rfl, rfl⟩ := List.cons.inj hdrop
      exact absurd rfl (hne _ rfl)
    | _ =>
      obtain ⟨rfl, rfl⟩ := List.cons.inj hdrop
      rfl
  · rename_i hdrop
    rw [h] at hdrop
    cases color <;> simp [Color.capitals] at hdrop

/-- Where no colour code ends a text, nothing is peeled off. -/
theorem peelColors_stop {reversed : List Char} (found : List Color)
    (h : ∀ color : Color, ¬ color.capitals.reverse <+: reversed.dropWhile isSeparator) :
    peelColors reversed found = (reversed, found) := by
  rw [peelColors]
  split
  · rename_i rest hdrop
    exact absurd ⟨rest, by rw [hdrop]; rfl⟩ (h .blue)
  · rename_i c rest hne hdrop
    split
    · rename_i color hcolor
      have hcapitals := (Color.ofLetter?_eq_some_iff c color).1 hcolor
      exact absurd ⟨rest, by rw [hdrop, hcapitals]; rfl⟩ (h color)
    · rfl
  · rfl

theorem dropWhile_isSeparator_append {separators rest : List Char} (color : Color)
    (h : ∀ c ∈ separators, isSeparator c = true) :
    (separators ++ (color.capitals.reverse ++ rest)).dropWhile isSeparator =
      color.capitals.reverse ++ rest := by
  rw [List.dropWhile_append_of_pos h]
  cases color <;> rfl

/-- A run of colour codes is peeled off whole, whatever stands before it. -/
theorem peelColors_append {text : List Char} {colors : List Color} (h : ColorsText text colors)
    (base : List Char) (found : List Color) :
    peelColors (base ++ text).reverse found = peelColors base.reverse (colors ++ found) := by
  induction h generalizing base found with
  | nil => rw [List.append_nil, List.nil_append]
  | @cons separators rest colors color hseparators hrest ih =>
    have hreverse : ∀ c ∈ separators.reverse, isSeparator c = true :=
      fun c hc => hseparators c (List.mem_reverse.1 hc)
    rw [← List.append_assoc, ih, ← List.append_assoc, List.reverse_append, List.reverse_append,
      peelColors_of_code color (dropWhile_isSeparator_append color hreverse)]
    rfl

/-- What has been peeled off is a run of colour codes, and no other ends what stays. -/
theorem peelColors_sound (reversed : List Char) (found : List Color) :
    ∃ text colors, reversed = text.reverse ++ (peelColors reversed found).1 ∧
      ColorsText text colors ∧ (peelColors reversed found).2 = colors ++ found ∧
      ∀ color : Color,
        ¬ color.capitals.reverse <+: (peelColors reversed found).1.dropWhile isSeparator := by
  induction hn : reversed.length using Nat.strongRecOn generalizing reversed found with
  | ind n ih =>
    subst hn
    by_cases hcode : ∃ color : Color, color.capitals.reverse <+: reversed.dropWhile isSeparator
    · obtain ⟨color, rest, hrest⟩ := hcode
      have hsplit := List.takeWhile_append_dropWhile (p := isSeparator) (l := reversed)
      rw [← hrest] at hsplit
      have hlength : rest.length < reversed.length := by
        have hne : 0 < color.capitals.length := by cases color <;> decide
        rw [← hsplit]
        simp only [List.length_append, List.length_reverse]
        omega
      obtain ⟨text, colors, htext, hcolors, hfound, hstop⟩ := ih _ hlength rest (color :: found) rfl
      have hseparators : ∀ c ∈ (reversed.takeWhile isSeparator).reverse, isSeparator c = true :=
        fun c hc => List.all_eq_true.1 List.all_takeWhile c (List.mem_reverse.1 hc)
      rw [peelColors_of_code color hrest.symm]
      refine ⟨text ++ (color.capitals ++ (reversed.takeWhile isSeparator).reverse ++ []),
        colors ++ [color], ?_, hcolors.append (ColorsText.cons color hseparators ColorsText.nil), ?_,
        hstop⟩
      · simp [← htext, hsplit]
      · rw [hfound, List.append_assoc]
        rfl
    · rw [peelColors_stop found fun color h => hcode ⟨color, h⟩]
      exact ⟨[], [], rfl, ColorsText.nil, rfl, fun color h => hcode ⟨color, h⟩⟩

/-- White space at the end of a text changes nothing about the colours before it. -/
theorem takeColors_eq (cs : List Char) :
    takeColors cs =
      (trimEnd (peelColors cs.reverse []).1.reverse, (peelColors cs.reverse []).2) := by
  obtain ⟨b, hb, hcs⟩ := trimEnd_split cs
  have hlast : ∀ c ∈ (trimEnd cs).getLast?, isBlank c = false := last_trimEnd
  rw [takeColors]
  generalize trimEnd cs = t at *
  subst hcs
  have hdrop : (t ++ b).reverse.dropWhile isSeparator = t.reverse.dropWhile isSeparator := by
    rw [List.reverse_append]
    exact List.dropWhile_append_of_pos fun c hc => isSeparator_of_isBlank (hb.reverse c hc)
  by_cases hcode : ∃ color : Color, color.capitals.reverse <+: t.reverse.dropWhile isSeparator
  · obtain ⟨color, rest, hrest⟩ := hcode
    rw [peelColors_of_code color hrest.symm, peelColors_of_code color (hdrop.trans hrest.symm)]
  · have hstop : ∀ color : Color, ¬ color.capitals.reverse <+: t.reverse.dropWhile isSeparator :=
      fun color h => hcode ⟨color, h⟩
    rw [peelColors_stop [] hstop, peelColors_stop [] (hdrop ▸ hstop)]
    simp only [List.reverse_reverse]
    have htrim : trimEnd (t ++ []) = t := trimEnd_append hlast Blank.nil
    rw [List.append_nil] at htrim
    rw [htrim, trimEnd_append hlast hb]

theorem takeColors_trimEnd (cs : List Char) : takeColors (trimEnd cs) = takeColors cs := by
  rw [takeColors, trimEnd_trimEnd, takeColors]

/-- A colour code ends the text, but for separators behind it. -/
def EndsInColor (cs : List Char) : Prop :=
  ∃ base separators, ∃ color : Color, (∀ c ∈ separators, isSeparator c = true) ∧
    cs = base ++ color.capitals ++ separators

theorem endsInColor_iff {cs : List Char} :
    EndsInColor cs ↔
      ∃ color : Color, color.capitals.reverse <+: cs.reverse.dropWhile isSeparator := by
  constructor
  · rintro ⟨base, separators, color, hseparators, rfl⟩
    have hreverse : ∀ c ∈ separators.reverse, isSeparator c = true :=
      fun c hc => hseparators c (List.mem_reverse.1 hc)
    refine ⟨color, base.reverse, ?_⟩
    rw [List.reverse_append, List.reverse_append, dropWhile_isSeparator_append color hreverse]
  · rintro ⟨color, rest, hrest⟩
    have hsplit := List.takeWhile_append_dropWhile (p := isSeparator) (l := cs.reverse)
    refine ⟨rest.reverse, (cs.reverse.takeWhile isSeparator).reverse, color, fun c hc => ?_, ?_⟩
    · exact List.all_eq_true.1 List.all_takeWhile c (List.mem_reverse.1 hc)
    · rw [← hrest] at hsplit
      have h := congrArg List.reverse hsplit
      rw [List.reverse_append, List.reverse_append, List.reverse_reverse, List.reverse_reverse] at h
      exact h.symm

/-- The colours taken off a text that does not itself end in one are those behind it. -/
theorem takeColors_of_not_endsInColor {cs text : List Char} {colors : List Color}
    (hcs : ¬EndsInColor cs) (htext : ColorsText text colors) :
    takeColors (cs ++ text) = (trimEnd cs, colors) := by
  have hstop : peelColors cs.reverse colors = (cs.reverse, colors) :=
    peelColors_stop colors fun color h => hcs (endsInColor_iff.2 ⟨color, h⟩)
  rw [takeColors_eq, peelColors_append htext, List.append_nil, hstop, List.reverse_reverse]

/-- What is left of a text without all the colours that it ends in. -/
inductive Uncolored (left : List Char) (colors : List Color) : List Char → Prop
  | intro {e text : List Char} (hleft : ∀ c ∈ left.getLast?, isBlank c = false) (he : Blank e)
      (hends : ¬EndsInColor (left ++ e)) (htext : ColorsText text colors) :
      Uncolored left colors (left ++ e ++ text)

theorem takeColors_of_uncolored {left cs : List Char} {colors : List Color}
    (h : Uncolored left colors cs) : takeColors cs = (left, colors) := by
  obtain ⟨hleft, he, hends, htext⟩ := h
  rw [takeColors_of_not_endsInColor hends htext, trimEnd_append hleft he]

theorem uncolored_takeColors (cs : List Char) :
    Uncolored (takeColors cs).1 (takeColors cs).2 cs := by
  obtain ⟨text, colors, hsplit, htext, hcolors, hstop⟩ := peelColors_sound cs.reverse []
  obtain ⟨e, he, hrest⟩ := trimEnd_split (peelColors cs.reverse []).1.reverse
  have hcs : cs = trimEnd (peelColors cs.reverse []).1.reverse ++ e ++ text := by
    rw [← hrest]
    simpa using congrArg List.reverse hsplit
  have hends : ¬EndsInColor (trimEnd (peelColors cs.reverse []).1.reverse ++ e) := by
    rw [← hrest, endsInColor_iff, List.reverse_reverse]
    exact fun ⟨color, hcolor⟩ => hstop color hcolor
  rw [takeColors_eq, hcolors, List.append_nil]
  conv => arg 3; rw [hcs]
  exact Uncolored.intro last_trimEnd he hends htext

/-- Neither the end of a colour, with what may follow it, nor the end of a period. -/
def Inner (c : Char) : Prop := isSeparator c = false ∧ c ∉ ['W', 'R', 'G', 'Y', 'U', 'S']

theorem Inner.isBlank_eq_false {c : Char} (h : Inner c) : isBlank c = false :=
  (Bool.or_eq_false_iff.1 h.1).2

theorem Inner.not_endsInColor {cs : List Char} (h : ∃ c ∈ (trimEnd cs).getLast?, Inner c) :
    ¬EndsInColor cs := by
  obtain ⟨c, hc, hseparator, hcolor⟩ := h
  obtain ⟨init, hinit⟩ := List.getLast?_eq_some_iff.1 (Option.mem_def.1 hc)
  obtain ⟨b, hb, hcs⟩ := trimEnd_split cs
  rw [endsInColor_iff]
  rintro ⟨color, hprefix⟩
  rw [hcs, hinit, List.reverse_append, List.dropWhile_append_of_pos
    fun c hc => isSeparator_of_isBlank (hb.reverse c hc), List.reverse_append,
    List.reverse_singleton, List.singleton_append,
    List.dropWhile_cons_of_neg (by simp [hseparator])] at hprefix
  obtain ⟨rest, hrest⟩ := hprefix
  apply hcolor
  cases color <;> simp [Color.capitals] at hrest <;> simp [← hrest.1]

/-- Colours written as the grammar has them are taken off a text that does not itself end in
one. -/
theorem takeColors_complete {cs text : List Char} {colors : List Color}
    (hcs : ∃ c ∈ (trimEnd cs).getLast?, Inner c) (htext : ColorsText text colors) :
    takeColors (cs ++ text) = (trimEnd cs, colors) :=
  takeColors_of_not_endsInColor (Inner.not_endsInColor hcs) htext

/-- The loop that takes colours off, given up after so many turns. -/
def peelWithin : Nat → List Char → List Color → Option (List Char × List Color)
  | 0, _, _ => none
  | turns + 1, reversed, found =>
    match reversed.dropWhile isSeparator with
    | 'U' :: 'B' :: rest => peelWithin turns rest (.blue :: found)
    | c :: rest =>
      match Color.ofLetter? c with
      | some color => peelWithin turns rest (color :: found)
      | none => some (reversed, found)
    | [] => some (reversed, found)

theorem length_lt_of_dropWhile {p : Char → Bool} {cs rest : List Char} {c : Char}
    (h : cs.dropWhile p = c :: rest) : rest.length < cs.length := by
  have hle := (List.dropWhile_suffix p (l := cs)).length_le
  rwa [h] at hle

/-- Each turn that is not the last takes a character at least, so there are no more turns than that. -/
theorem peelWithin_eq {turns : Nat} {reversed : List Char} (h : reversed.length < turns)
    (found : List Color) : peelWithin turns reversed found = some (peelColors reversed found) := by
  obtain ⟨turns, rfl⟩ := Nat.exists_eq_add_one_of_ne_zero (Nat.ne_zero_of_lt h)
  fun_induction peelColors reversed found generalizing turns with
  | case1 reversed found rest hdrop ih =>
    have hshorter := length_lt_of_dropWhile hdrop
    rw [List.length_cons] at hshorter
    obtain ⟨turns, rfl⟩ := Nat.exists_eq_add_one_of_ne_zero (show turns ≠ 0 by omega)
    rw [peelWithin, hdrop]
    exact ih turns (by omega)
  | case2 reversed found c rest hne hdrop color hcolor ih =>
    have hshorter := length_lt_of_dropWhile hdrop
    obtain ⟨turns, rfl⟩ := Nat.exists_eq_add_one_of_ne_zero (show turns ≠ 0 by omega)
    rw [peelWithin, hdrop]
    simp only [hcolor]
    exact ih turns (by omega)
  | case3 reversed found c rest hne hdrop hcolor =>
    rw [peelWithin, hdrop]
    simp only [hcolor]
  | case4 reversed found hdrop => rw [peelWithin, hdrop]

theorem endsInColor_iff_suffix {cs : List Char} :
    EndsInColor cs ↔ ∃ color : Color, color.capitals <:+ dropWhileEnd isSeparator cs := by
  rw [endsInColor_iff]
  refine exists_congr fun color => ?_
  rw [dropWhileEnd, ← List.reverse_prefix, List.reverse_reverse]

theorem EndsInColor.append_blank {cs e : List Char} (h : EndsInColor cs) (he : Blank e) :
    EndsInColor (cs ++ e) := by
  obtain ⟨base, separators, color, hseparators, rfl⟩ := h
  refine ⟨base, separators ++ e, color, ?_, List.append_assoc _ _ _⟩
  exact List.forall_mem_append.2 ⟨hseparators, fun c hc => isSeparator_of_isBlank (he c hc)⟩

/-- A text that does not end in a colour is left as it is, but for white space at its end. -/
theorem takeColors_of_left {left : List Char} (hleft : ∀ c ∈ left.getLast?, isBlank c = false)
    (hends : ¬EndsInColor left) : takeColors left = (left, []) := by
  have h := takeColors_of_not_endsInColor hends ColorsText.nil
  have htrim := trimEnd_append hleft Blank.nil
  rw [List.append_nil] at h htrim
  rw [h, htrim]

theorem Uncolored.exists_split {left cs : List Char} {colors : List Color}
    (h : Uncolored left colors cs) :
    ∃ e text, cs = left ++ e ++ text ∧ Blank e ∧ ColorsText text colors ∧
      (∀ c ∈ left.getLast?, isBlank c = false) ∧ ¬EndsInColor left := by
  obtain ⟨hleft, he, hends, htext⟩ := h
  exact ⟨_, _, rfl, he, htext, hleft, fun h => hends (h.append_blank he)⟩

/-- Taking the colours off a text loses nothing and leaves none behind. The loop that does it ends on
every text, with at most one turn for each character before its last. -/
theorem takeColors_exact (cs : List Char) :
    ∃ left colors, takeColors cs = (left, colors) ∧
      (∃ e text, trimEnd cs = left ++ e ++ text ∧ Blank e ∧ ColorsText text colors ∧
        (colors = [] → e ++ text = [])) ∧
      (∀ color : Color, ¬color.capitals <:+ dropWhileEnd isSeparator left) ∧
      takeColors left = (left, []) ∧
      ∃ reversed, peelWithin (cs.length + 1) (trimEnd cs).reverse [] = some (reversed, colors) ∧
        left = trimEnd reversed.reverse := by
  have huncolored := uncolored_takeColors (trimEnd cs)
  rw [takeColors_trimEnd] at huncolored
  obtain ⟨e, text, hsplit, he, htext, hleft, hstop⟩ := huncolored.exists_split
  have hturns : (trimEnd cs).reverse.length < cs.length + 1 := by
    obtain ⟨b, -, hb⟩ := trimEnd_split cs
    have hlength := congrArg List.length hb
    rw [List.length_append] at hlength
    rw [List.length_reverse]
    omega
  refine ⟨_, _, rfl, ⟨e, text, hsplit, he, htext, fun hnone => ?_⟩, ?_,
    takeColors_of_left hleft hstop, ?_⟩
  · -- with nothing behind the white space, it would have been trimmed
    have hempty : ColorsText text [] := hnone ▸ htext
    cases hempty
    rw [List.append_nil] at hsplit ⊢
    have htrimmed := trimEnd_trimEnd cs
    rw [hsplit, trimEnd_append hleft he] at htrimmed
    exact List.append_right_eq_self.1 htrimmed.symm
  · exact not_exists.1 (mt endsInColor_iff_suffix.2 hstop)
  · exact ⟨_, peelWithin_eq hturns [], rfl⟩

/-- The hyphen behind a colour goes with it, the one before the first stays. -/
theorem takeColors_exact_red : takeColors "FL- R-BU ".toList = ("FL-".toList, [.red, .blue]) := by
  have hloop : peelWithin ("FL- R-BU ".toList.length + 1) (trimEnd "FL- R-BU ".toList).reverse [] =
      some ([' ', '-', 'L', 'F'], [.red, .blue]) := by
    decide
  obtain ⟨left, colors, htake, -, -, -, reversed, hrun, hleft⟩ := takeColors_exact "FL- R-BU ".toList
  rw [hloop] at hrun
  obtain ⟨rfl, rfl⟩ := Prod.mk.inj (Option.some.inj hrun)
  have htrimmed : left = "FL-".toList := hleft.trans (by decide)
  rw [htake, htrimmed]

end ChartLight

import ChartLight.Proofs.RoundTrip
import ChartLight.Proofs.UpperCase

/-! Ways to write a text that make no difference: the case of letters, white space around it and points
that stand between no two digits. All of them are gone in the normal form, and the normal form is its
own normal form. -/

namespace ChartLight

open Number Text

section Points

variable {a b : List Char}

/-- A text that does not begin with a point does not ask what stands before it. -/
theorem dropPoints_of_head (hb : '.' ∉ b.head?) (k l : Bool) : dropPoints k b = dropPoints l b := by
  cases b with
  | nil => rfl
  | cons c b =>
    have hc : c ≠ '.' := fun heq => hb (by simp [heq])
    simp [dropPoints, hc]

/-- A point that has not a digit on either side is dropped, and nothing else is for it. -/
theorem dropPoints_insert (ha : '.' ∉ a.getLast?) (hb : '.' ∉ b.head?)
    (hdigits : ¬((∃ c ∈ a.getLast?, c.isDigit = true) ∧ ∃ c ∈ b.head?, c.isDigit = true)) :
    dropPoints false (a ++ '.' :: b) = dropPoints false (a ++ b) := by
  have hdrop : (((a.getLast?.map Char.isDigit).getD false) && b.head?.any (·.isDigit)) = false := by
    rw [Bool.eq_false_iff, ne_eq, Bool.and_eq_true, Option.any_eq_true]
    rintro ⟨hbefore, d, hd, hbehind⟩
    cases hlast : a.getLast? with
    | none =>
      rw [hlast] at hbefore
      cases hbefore
    | some c =>
      rw [hlast] at hbefore
      exact hdigits ⟨⟨c, hlast, hbefore⟩, d, hd, hbehind⟩
  rw [dropPoints_append_point, hdrop, if_neg Bool.false_ne_true, List.append_nil,
    dropPoints_append (absurd · ha)]
  exact congrArg _ (dropPoints_of_head hb _ _)

theorem dropPoints_append_blank (cs : List Char) (hb : Blank b) (k : Bool) :
    dropPoints k (cs ++ b) = dropPoints k cs ++ b := by
  have hhead : b.head?.any (·.isDigit) = false := by
    cases b with
    | nil => rfl
    | cons d b => exact hb.isDigit_eq_false d List.mem_cons_self
  rw [dropPoints_append fun _ => hhead, dropPoints_of_not_mem hb.point_not_mem]

theorem dropPoints_blank_append (ha : Blank a) (cs : List Char) :
    dropPoints false (a ++ cs) = a ++ dropPoints false cs := by
  have hlast : (a.getLast?.map Char.isDigit).getD false = false := by
    cases h : a.getLast? with
    | none => rfl
    | some c => exact ha.isDigit_eq_false c (List.mem_of_getLast? h)
  rw [dropPoints_append_of_not_mem ha.point_not_mem, hlast]

theorem dropPoints_sublist (cs : List Char) (k : Bool) : (dropPoints k cs).Sublist cs := by
  induction cs generalizing k with
  | nil => exact List.Sublist.slnil
  | cons c cs ih =>
    rw [dropPoints]
    split_ifs
    · exact (ih false).cons c
    · exact (ih _).cons_cons c

end Points

section Upper

variable {a b : List Char} {c d : Char}

theorem upperCase_blank (hb : Blank b) : upperCase b = b :=
  upperCase_of_forall_mem fun _ hc => upperChar_of_isBlank (hb _ hc)

/-- The last character in upper case comes from the last. -/
theorem mem_getLast?_upperCase (h : d ∈ (upperCase a).getLast?) :
    ∃ c ∈ a.getLast?, d ∈ upperChar c := by
  rcases List.eq_nil_or_concat a with rfl | ⟨a, c, rfl⟩
  · cases h
  · have hsplit : upperCase (a ++ [c]) = upperCase a ++ upperChar c := by
      rw [upperCase_append, upperCase, upperCase, List.flatMap_singleton]
    rw [List.concat_eq_append] at h ⊢
    rw [hsplit, List.getLast?_append_of_ne_nil _ (upperChar_ne_nil c)] at h
    exact ⟨c, List.getLast?_concat, List.mem_of_getLast? h⟩

theorem mem_head?_upperCase (h : d ∈ (upperCase b).head?) : ∃ c ∈ b.head?, d ∈ upperChar c := by
  cases b with
  | nil => cases h
  | cons c b =>
    rw [upperCase, List.flatMap_cons, List.head?_append_of_ne_nil _ (upperChar_ne_nil c)] at h
    exact ⟨c, rfl, List.mem_of_head? h⟩

theorem point_mem_upperChar_iff : '.' ∈ upperChar c ↔ '.' = c := mem_upperChar_iff_of_le (by decide)

theorem upperCase_congr (h : a.map Char.toUpper = b.map Char.toUpper) : upperCase a = upperCase b := by
  induction a generalizing b with
  | nil => rw [List.map_eq_nil_iff.1 h.symm]
  | cons c a ih =>
    cases b with
    | nil => cases h
    | cons d b =>
      obtain ⟨hchar, hrest⟩ := List.cons.inj h
      rw [upperCase, List.flatMap_cons, upperChar_congr hchar, ← upperCase, ih hrest]
      rfl

end Upper

/-- White space around a text is in the way of nothing before it is taken off. -/
theorem normalize_eq (cs : List Char) : normalize cs = trim (dropPoints false (upperCase cs)) := by
  obtain ⟨a, b, ha, -, hb, hcs⟩ := trim_split cs
  rw [normalize]
  generalize trim cs = t at *
  rw [hcs, upperCase_append, upperCase_append, upperCase_blank ha, upperCase_blank hb,
    dropPoints_append_blank _ hb, dropPoints_blank_append ha, trim_append_blank _ hb,
    trim_blank_append ha]

/-- What the normal form keeps of a text in upper case. -/
theorem mem_upperCase_of_mem_normalize {cs : List Char} {c : Char} (h : c ∈ normalize cs) :
    c ∈ upperCase cs := by
  rw [normalize_eq] at h
  obtain ⟨a, b, -, -, -, hsplit⟩ := trim_split (dropPoints false (upperCase cs))
  refine (dropPoints_sublist (upperCase cs) false).mem ?_
  rw [hsplit]
  exact List.mem_append_left _ (List.mem_append_right _ h)

/-- In a text in normal form no point is dropped, at whatever place one begins. -/
theorem Normal.dropPoints_eq {cs a b : List Char} (h : Normal cs) (hcs : cs = a ++ b) :
    dropPoints ((a.getLast?.map Char.isDigit).getD false) b = b := by
  induction b generalizing a with
  | nil => rfl
  | cons c b ih =>
    have hrest : dropPoints c.isDigit b = b := by
      have hrest := @ih (a ++ [c]) (by rw [hcs, List.append_assoc]; rfl)
      rwa [List.getLast?_concat] at hrest
    rw [dropPoints, if_neg, hrest]
    intro hdrop
    obtain ⟨rfl, hkept⟩ : c = '.' ∧ _ := by simpa only [Bool.and_eq_true, decide_eq_true_eq] using hdrop
    obtain ⟨⟨d, hd, hdigit⟩, e, he, hdigit'⟩ := h.point a b hcs
    rw [Option.mem_def.1 hd, Option.mem_def.1 he] at hkept
    simp [hdigit, hdigit'] at hkept

theorem normalize_normalize (cs : List Char) : normalize (normalize cs) = normalize cs := by
  have hupper : upperCase (normalize cs) = normalize cs := by
    refine upperCase_of_forall_mem fun d hd => ?_
    obtain ⟨c, -, hc⟩ := List.mem_flatMap.1 (mem_upperCase_of_mem_normalize hd)
    exact upperChar_of_mem_upperChar hc
  have hpoints : dropPoints false (normalize cs) = normalize cs :=
    (normal_normalize cs).dropPoints_eq (List.nil_append _).symm
  rw [normalize_eq (normalize cs), hupper, hpoints]
  exact trim_of_tight (tight_trim _)

section Respelled

/-- One text is another with one thing written in another way. -/
inductive Respelled : List Char → List Char → Prop
  | case {a b : List Char} (h : a.map Char.toUpper = b.map Char.toUpper) : Respelled a b
  | blank {a cs b : List Char} (ha : Blank a) (hb : Blank b) : Respelled cs (a ++ cs ++ b)
  | point {a b : List Char} (ha : '.' ∉ a.getLast?) (hb : '.' ∉ b.head?)
      (hdigits : ¬((∃ c ∈ a.getLast?, c.isDigit = true) ∧ ∃ c ∈ b.head?, c.isDigit = true)) :
      Respelled (a ++ b) (a ++ '.' :: b)

theorem Respelled.normalize_eq {x y : List Char} (h : Respelled x y) : normalize x = normalize y := by
  cases h with
  | case h => rw [ChartLight.normalize_eq, ChartLight.normalize_eq, upperCase_congr h]
  | blank ha hb => rw [normalize, normalize, trim_append_blank _ hb, trim_blank_append ha]
  | @point a b ha hb hdigits =>
    have hinsert : dropPoints false (upperCase a ++ '.' :: upperCase b) =
        dropPoints false (upperCase a ++ upperCase b) := by
      refine dropPoints_insert (fun h => ha ?_) (fun h => hb ?_) fun h => hdigits ?_
      · obtain ⟨c, hc, hmem⟩ := mem_getLast?_upperCase h
        rwa [point_mem_upperChar_iff.1 hmem]
      · obtain ⟨c, hc, hmem⟩ := mem_head?_upperCase h
        rwa [point_mem_upperChar_iff.1 hmem]
      · obtain ⟨⟨d, hd, hdigit⟩, e, he, hdigit'⟩ := h
        obtain ⟨c, hc, hmem⟩ := mem_getLast?_upperCase hd
        obtain ⟨c', hc', hmem'⟩ := mem_head?_upperCase he
        rw [isDigit_of_mem_upperChar hmem] at hdigit
        rw [isDigit_of_mem_upperChar hmem'] at hdigit'
        exact ⟨⟨c, hc, hdigit⟩, c', hc', hdigit'⟩
    have hpoint : upperCase ('.' :: b) = '.' :: upperCase b := rfl
    rw [ChartLight.normalize_eq, ChartLight.normalize_eq, upperCase_append, upperCase_append, hpoint,
      hinsert]

/-- Texts that are the same but for any number of such changes have one normal form. -/
theorem normalize_eq_of_eqvGen {x y : List Char} (h : Relation.EqvGen Respelled x y) :
    normalize x = normalize y := by
  induction h with
  | rel x y hxy => exact hxy.normalize_eq
  | refl x => rfl
  | symm x y _ ih => exact ih.symm
  | trans x y z _ _ hxy hyz => exact hxy.trans hyz

end Respelled

namespace Characteristic

/-- However a text is spelled, it is read as the same light or refused for the same fault, and so is its
normal form. -/
theorem readWith_respelled {x y : String} (h : Relation.EqvGen Respelled x.toList y.toList)
    (defaultPeriod : Binary64) :
    readWith defaultPeriod x = readWith defaultPeriod y ∧
      readWith defaultPeriod (String.ofList (normalize x.toList)) = readWith defaultPeriod x ∧
      normalize (normalize x.toList) = normalize x.toList := by
  refine ⟨?_, ?_, normalize_normalize x.toList⟩
  · simp only [readWith, normalize_eq_of_eqvGen h]
  · simp only [readWith, String.toList_ofList, normalize_normalize]

/-- Small letters, a point behind the abbreviation and white space; the point of the number stays. -/
theorem readWith_respelled_loose :
    Relation.EqvGen Respelled "Fl 2.5s".toList " fl. 2.5s ".toList ∧
      ∃ light, read "Fl 2.5s" = .ok light ∧ read " fl. 2.5s " = .ok light := by
  have hcase : Respelled "Fl 2.5s".toList "fl 2.5s".toList := Respelled.case (by decide)
  have hpoint : Respelled "fl 2.5s".toList "fl. 2.5s".toList :=
    @Respelled.point ['f', 'l'] [' ', '2', '.', '5', 's'] (by decide) (by decide) (by simp)
  have hspace : Blank [' '] := List.forall_mem_singleton.2 rfl
  have hblank : Respelled "fl. 2.5s".toList " fl. 2.5s ".toList :=
    @Respelled.blank [' '] "fl. 2.5s".toList [' '] hspace hspace
  have hjoined : Relation.EqvGen Respelled "Fl 2.5s".toList " fl. 2.5s ".toList :=
    ((Relation.EqvGen.rel _ _ hcase).trans _ _ _ (Relation.EqvGen.rel _ _ hpoint)).trans _ _ _
      (Relation.EqvGen.rel _ _ hblank)
  have hread : read "Fl 2.5s" =
      .ok { ofRhythm .flashing with period := Binary64.ofRatio false 5 2 } := by
    decide +kernel
  obtain ⟨hsame, -, -⟩ := readWith_respelled hjoined Characteristic.defaultPeriod
  exact ⟨hjoined, _, hread, hsame.symm.trans hread⟩

end Characteristic

end ChartLight

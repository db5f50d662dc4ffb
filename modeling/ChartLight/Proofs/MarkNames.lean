import ChartLight.Mark
import ChartLight.Proofs.Trim

/-! Looking up marks by their names. Case counts for nothing, and neither does white space around the name
that is asked for; but white space around the name of a mark does, so that such a mark is never found.
Whatever is asked for, the answer is the first mark of that name that has none. -/

namespace ChartLight

open Text

section FoldCase

theorem toNat_toLower {c : Char} (h : c.isUpper = true) : c.toLower.toNat = c.toNat + 32 := by
  have hc := toNat_of_isUpper h
  have hcase : c.val ≥ 'A'.val ∧ c.val ≤ 'Z'.val := by
    simpa [Char.isUpper] using h
  have hlt : c.val.toNat + 32 < 2 ^ 32 := by
    rw [Char.toNat_val]
    omega
  rw [Char.toLower, dif_pos hcase, ← Char.toNat_val, ← Char.toNat_val]
  exact (UInt32.toNat_add c.val 32).trans (Nat.mod_eq_of_lt hlt)

theorem toLower_of_not_isUpper {c : Char} (h : c.isUpper = false) : c.toLower = c := by
  have hcase : ¬(c.val ≥ 'A'.val ∧ c.val ≤ 'Z'.val) := by
    simpa [Char.isUpper] using h
  rw [Char.toLower, dif_neg hcase]

theorem isBlank_toLower (c : Char) : isBlank c.toLower = isBlank c := by
  cases h : c.isUpper with
  | false => rw [toLower_of_not_isUpper h]
  | true =>
    have hc := toNat_of_isUpper h
    rw [isBlank_eq_false_of_isUpper h]
    simp only [isBlank, toNat_toLower h, Bool.or_eq_false_iff, Bool.and_eq_false_iff,
      beq_eq_false_iff_ne, decide_eq_false_iff_not]
    omega

theorem tight_foldCase_iff (cs : List Char) : Tight (Mark.foldCase cs) ↔ Tight cs := by
  have hedge (o : Option Char) :
      (∀ c ∈ o.map Char.toLower, isBlank c = false) ↔ ∀ c ∈ o, isBlank c = false := by
    cases o <;> simp [isBlank_toLower]
  unfold Mark.foldCase
  constructor
  · rintro ⟨hhead, hlast⟩
    rw [List.head?_map, hedge] at hhead
    rw [List.getLast?_map, hedge] at hlast
    exact ⟨hhead, hlast⟩
  · rintro ⟨hhead, hlast⟩
    refine ⟨?_, ?_⟩
    · rwa [List.head?_map, hedge]
    · rwa [List.getLast?_map, hedge]

theorem trim_eq_self_iff (cs : List Char) : trim cs = cs ↔ Tight cs :=
  ⟨fun h => h ▸ tight_trim cs, trim_of_tight⟩

end FoldCase

namespace Mark

/-- Whether two names are the same but for the case of ASCII letters and white space around them. -/
def SameName (a b : String) : Prop := foldCase (trim a.toList) = foldCase (trim b.toList)

instance (a b : String) : Decidable (SameName a b) :=
  inferInstanceAs (Decidable (foldCase (trim a.toList) = foldCase (trim b.toList)))

/-- The first mark of a name, without regard to case or to white space on either side. -/
def named? (marks : List Mark) (name : String) : Option Mark :=
  marks.find? fun mark => SameName mark.name name

/-- A name is compared as it stands, so only one without white space around it is the same as another. -/
theorem foldCase_eq_iff (mark : Mark) (name : String) :
    foldCase mark.name.toList = foldCase (trim name.toList) ↔
      Tight mark.name.toList ∧ SameName mark.name name := by
  constructor
  · intro h
    have htight : Tight mark.name.toList := by
      rw [← tight_foldCase_iff, h, tight_foldCase_iff]
      exact tight_trim _
    exact ⟨htight, by rw [SameName, trim_of_tight htight, h]⟩
  · rintro ⟨htight, hsame⟩
    rwa [SameName, trim_of_tight htight] at hsame

theorem find?_eq_some_iff {marks : List Mark} {name : String} {mark : Mark} :
    find? marks name = some mark ↔
      (Tight mark.name.toList ∧ SameName mark.name name) ∧ ∃ before after,
        marks = before ++ mark :: after ∧
          ∀ other ∈ before, Tight other.name.toList → ¬SameName other.name name := by
  simp only [find?, List.find?_eq_some_iff_append, beq_iff_eq, foldCase_eq_iff, Bool.not_eq_true',
    beq_eq_false_iff_ne, ne_eq, not_and]

theorem isSome_find?_iff {marks : List Mark} {name : String} :
    (find? marks name).isSome = true ↔
      ∃ mark ∈ marks, Tight mark.name.toList ∧ SameName mark.name name := by
  simp only [find?, List.find?_isSome, beq_iff_eq, foldCase_eq_iff]

/-- Marks with white space around their names are as good as not there. -/
theorem find?_eq_named?_filter (marks : List Mark) (name : String) :
    find? marks name =
      named? (marks.filter fun mark => trim mark.name.toList = mark.name.toList) name := by
  rw [named?, List.find?_filter, find?]
  congr 1
  funext mark
  rw [Bool.eq_iff_iff]
  simp [foldCase_eq_iff, trim_eq_self_iff]

/-- What is found is the first mark of the name just if that mark has no white space around its name, and a
mark is found by its own name just if one is there that has it without white space. -/
theorem found_iff_tight (marks : List Mark) (name : String) :
    find? marks name =
      named? (marks.filter fun mark => trim mark.name.toList = mark.name.toList) name ∧
    (find? marks name = named? marks name ↔
      ∀ mark, named? marks name = some mark → Tight mark.name.toList) ∧
    ∀ mark ∈ marks, ((find? marks mark.name).isSome = true ↔
      ∃ other ∈ marks, Tight other.name.toList ∧ SameName other.name mark.name) := by
  refine ⟨find?_eq_named?_filter marks name, ⟨fun heq mark hmark => ?_, fun htight => ?_⟩,
    fun mark _ => isSome_find?_iff⟩
  · rw [← heq] at hmark
    exact (find?_eq_some_iff.1 hmark).1.1
  · cases hnamed : named? marks name with
    | none =>
      rw [← Option.not_isSome_iff_eq_none, isSome_find?_iff]
      rintro ⟨mark, hmark, -, hsame⟩
      exact List.find?_eq_none.1 hnamed mark hmark (decide_eq_true hsame)
    | some mark =>
      obtain ⟨hsame, before, after, hmarks, hbefore⟩ := List.find?_eq_some_iff_append.1 hnamed
      refine find?_eq_some_iff.2 ⟨⟨htight mark hnamed, of_decide_eq_true hsame⟩, before, after, hmarks,
        fun other hother _ => ?_⟩
      simpa using hbefore other hother

/-- A catalogue may hold a mark that its own name does not find. -/
theorem not_forall_found_by_name :
    ¬ ∀ (text : String) (marks : List Mark), readAll text = .ok marks →
      ∀ mark ∈ marks, (find? marks mark.name).isSome = true := by
  intro hall
  have hrun : readAll "- name: ' Pier '\n  notation: F R\n" = .ok [⟨" Pier ", "F R"⟩] ∧
      find? [⟨" Pier ", "F R"⟩] " Pier " = none := by
    decide +kernel
  have hfound := hall _ _ hrun.1 _ (List.mem_singleton_self _)
  rw [hrun.2] at hfound
  cases hfound

end Mark

end ChartLight

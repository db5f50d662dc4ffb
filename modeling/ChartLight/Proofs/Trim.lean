import ChartLight.Text.Blank
import Mathlib

/-! Cutting a text at its ends. `dropWhileEnd` and `takeWhileEnd` find the one split whose second
part satisfies a predicate throughout and whose first part does not end in it, and `trim` takes off
exactly the white space at both ends. -/

namespace ChartLight.Text

/-- Only white space, or nothing. -/
def Blank (cs : List Char) : Prop := ∀ c ∈ cs, isBlank c = true

/-- No white space at either end. -/
structure Tight (cs : List Char) : Prop where
  head : ∀ c ∈ cs.head?, isBlank c = false
  last : ∀ c ∈ cs.getLast?, isBlank c = false

theorem Blank.nil : Blank [] := fun _ hc => by cases hc

theorem Blank.append {a b : List Char} (ha : Blank a) (hb : Blank b) : Blank (a ++ b) := by
  intro c hc
  rcases List.mem_append.1 hc with h | h
  · exact ha c h
  · exact hb c h

theorem Blank.reverse {a : List Char} (ha : Blank a) : Blank a.reverse :=
  fun c hc => ha c (List.mem_reverse.1 hc)

theorem Tight.nil : Tight [] := ⟨fun _ hc => by simp at hc, fun _ hc => by simp at hc⟩

theorem toNat_of_isDigit {c : Char} (h : c.isDigit = true) : 48 ≤ c.toNat ∧ c.toNat ≤ 57 := by
  have hc := Char.isDigit_iff_toNat.1 h
  simpa only [Char.reduceToNat] using hc

theorem toNat_of_isUpper {c : Char} (h : c.isUpper = true) : 65 ≤ c.toNat ∧ c.toNat ≤ 90 := by
  simpa [Char.isUpper, UInt32.le_iff_toNat_le] using h

theorem isBlank_eq_false_of_isDigit {c : Char} (h : c.isDigit = true) : isBlank c = false := by
  have hc := toNat_of_isDigit h
  simp only [isBlank, Bool.or_eq_false_iff, Bool.and_eq_false_iff, beq_eq_false_iff_ne,
    decide_eq_false_iff_not]
  omega

theorem isBlank_eq_false_of_isUpper {c : Char} (h : c.isUpper = true) : isBlank c = false := by
  have hc := toNat_of_isUpper h
  simp only [isBlank, Bool.or_eq_false_iff, Bool.and_eq_false_iff, beq_eq_false_iff_ne,
    decide_eq_false_iff_not]
  omega

theorem Blank.isDigit_eq_false {b : List Char} (hb : Blank b) : ∀ c ∈ b, c.isDigit = false := by
  intro c hc
  by_contra hdigit
  rw [Bool.not_eq_false] at hdigit
  simpa [isBlank_eq_false_of_isDigit hdigit] using hb c hc

theorem Blank.isUpper_eq_false {b : List Char} (hb : Blank b) : ∀ c ∈ b, c.isUpper = false := by
  intro c hc
  by_contra hupper
  rw [Bool.not_eq_false] at hupper
  simpa [isBlank_eq_false_of_isUpper hupper] using hb c hc

theorem Blank.point_not_mem {b : List Char} (hb : Blank b) : '.' ∉ b := fun h => by cases hb _ h

theorem isUpper_eq_false_of_isDigit {c : Char} (h : c.isDigit = true) : c.isUpper = false := by
  by_contra hupper
  rw [Bool.not_eq_false] at hupper
  have hdigit := toNat_of_isDigit h
  have hcapital := toNat_of_isUpper hupper
  omega

section Edges

variable {a b : List Char} {c : Char}

theorem mem_head?_append (h : c ∈ a.head?) : c ∈ (a ++ b).head? := by
  rw [Option.mem_def, List.head?_append, Option.mem_def.1 h]
  rfl

theorem mem_getLast?_append (h : c ∈ b.getLast?) : c ∈ (a ++ b).getLast? := by
  rw [Option.mem_def, List.getLast?_append, Option.mem_def.1 h]
  rfl

/-- The first character of two parts is in the first part, unless that is empty. -/
theorem head?_append_cases (h : c ∈ (a ++ b).head?) : c ∈ a.head? ∨ c ∈ b.head? := by
  cases a with
  | nil => exact Or.inr h
  | cons d a => exact Or.inl h

theorem getLast?_append_cases (h : c ∈ (a ++ b).getLast?) : c ∈ b.getLast? ∨ c ∈ a.getLast? := by
  rw [Option.mem_def, List.getLast?_append] at h
  cases hb : b.getLast? with
  | none =>
    rw [hb, Option.none_or] at h
    exact Or.inr h
  | some d =>
    rw [hb] at h
    exact Or.inl h

end Edges

section Ends

variable {p : Char → Bool} {a b cs : List Char}

theorem dropWhileEnd_append (ha : ∀ c ∈ a.getLast?, p c = false) (hb : ∀ c ∈ b, p c = true) :
    dropWhileEnd p (a ++ b) = a := by
  have hb' : ∀ c ∈ b.reverse, p c = true := fun c hc => hb c (List.mem_reverse.1 hc)
  rw [dropWhileEnd, List.reverse_append, List.dropWhile_append_of_pos hb', List.reverse_eq_iff]
  rw [← List.head?_reverse] at ha
  cases hr : a.reverse with
  | nil => rfl
  | cons c rest =>
    rw [hr] at ha
    have hc : p c = false := ha c rfl
    rw [List.dropWhile_cons_of_neg (by simp [hc])]

theorem takeWhileEnd_append (ha : ∀ c ∈ a.getLast?, p c = false) (hb : ∀ c ∈ b, p c = true) :
    takeWhileEnd p (a ++ b) = b := by
  have h := dropWhileEnd_append_takeWhileEnd p (a ++ b)
  rw [dropWhileEnd_append ha hb] at h
  exact List.append_cancel_left h

theorem of_mem_takeWhileEnd {c : Char} (hc : c ∈ takeWhileEnd p cs) : p c = true := by
  have h := List.all_takeWhile (p := p) (l := cs.reverse)
  rw [List.all_eq_true] at h
  exact h c (List.mem_reverse.1 hc)

theorem takeWhileEnd_eq_nil_iff : takeWhileEnd p cs = [] ↔ ∀ c ∈ cs.getLast?, p c = false := by
  rw [takeWhileEnd, List.reverse_eq_nil_iff, ← List.head?_reverse]
  cases cs.reverse with
  | nil => simp
  | cons c rest => simp [List.takeWhile_cons]

theorem of_mem_getLast?_dropWhileEnd {c : Char} (hc : c ∈ (dropWhileEnd p cs).getLast?) :
    p c = false := by
  rw [dropWhileEnd, List.getLast?_reverse] at hc
  have h := List.head?_dropWhile_not p cs.reverse
  rw [Option.mem_def.1 hc] at h
  simpa using h

end Ends

theorem trimStart_append {b cs : List Char} (hb : Blank b) : trimStart (b ++ cs) = trimStart cs :=
  List.dropWhile_append_of_pos hb

theorem trimStart_of_head {cs : List Char} (h : ∀ c ∈ cs.head?, isBlank c = false) :
    trimStart cs = cs := by
  cases cs with
  | nil => rfl
  | cons c cs => exact List.dropWhile_cons_of_neg (by simp [h c rfl])

theorem trimEnd_append {b cs : List Char} (h : ∀ c ∈ cs.getLast?, isBlank c = false)
    (hb : Blank b) : trimEnd (cs ++ b) = cs :=
  dropWhileEnd_append h hb

theorem trimEnd_split (cs : List Char) : ∃ b, Blank b ∧ cs = trimEnd cs ++ b :=
  ⟨takeWhileEnd isBlank cs, fun _ hc => of_mem_takeWhileEnd hc,
    (dropWhileEnd_append_takeWhileEnd isBlank cs).symm⟩

theorem last_trimEnd {cs : List Char} : ∀ c ∈ (trimEnd cs).getLast?, isBlank c = false :=
  fun _ hc => of_mem_getLast?_dropWhileEnd hc

theorem trimEnd_append_blank (cs : List Char) {b : List Char} (hb : Blank b) :
    trimEnd (cs ++ b) = trimEnd cs := by
  obtain ⟨b', hb', hcs⟩ := trimEnd_split cs
  conv => lhs; rw [hcs, List.append_assoc]
  exact trimEnd_append last_trimEnd (hb'.append hb)

theorem trimEnd_append_of_last {a : List Char} (ha : ∃ c ∈ a.getLast?, isBlank c = false)
    (cs : List Char) : trimEnd (a ++ cs) = a ++ trimEnd cs := by
  obtain ⟨b, hb, hcs⟩ := trimEnd_split cs
  conv => lhs; rw [hcs, ← List.append_assoc]
  refine trimEnd_append (fun c hc => ?_) hb
  rcases getLast?_append_cases hc with hrest | hlast
  · exact last_trimEnd c hrest
  · obtain ⟨d, hd, hblank⟩ := ha
    rwa [Option.mem_unique hlast hd]

theorem trimEnd_trimEnd (cs : List Char) : trimEnd (trimEnd cs) = trimEnd cs := by
  have h : trimEnd (trimEnd cs ++ []) = trimEnd cs := trimEnd_append last_trimEnd Blank.nil
  rwa [List.append_nil] at h

theorem trim_append_append {a b cs : List Char} (ha : Blank a) (hcs : Tight cs) (hb : Blank b) :
    trim (a ++ cs ++ b) = cs := by
  rw [trim, List.append_assoc, trimStart_append ha]
  cases cs with
  | nil =>
    have h : trimStart (b ++ []) = [] := trimStart_append hb
    rw [List.append_nil] at h
    rw [List.nil_append, h]
    rfl
  | cons c cs =>
    rw [trimStart_of_head (by simpa using hcs.head c rfl), trimEnd_append hcs.last hb]

theorem trim_of_tight {cs : List Char} (hcs : Tight cs) : trim cs = cs := by
  have h := trim_append_append Blank.nil hcs Blank.nil
  rwa [List.nil_append, List.append_nil] at h

theorem trimStart_split (cs : List Char) : ∃ b, Blank b ∧ cs = b ++ trimStart cs := by
  refine ⟨cs.takeWhile isBlank, ?_, List.takeWhile_append_dropWhile.symm⟩
  exact List.all_eq_true.1 List.all_takeWhile

theorem head_trimStart {cs : List Char} : ∀ c ∈ (trimStart cs).head?, isBlank c = false := by
  intro c hc
  have h := List.head?_dropWhile_not isBlank cs
  rw [trimStart, Option.mem_def] at hc
  rw [hc] at h
  simpa using h

/-- What `trim` leaves, with the white space that it took off. -/
theorem trim_split (cs : List Char) :
    ∃ a b, Blank a ∧ Tight (trim cs) ∧ Blank b ∧ cs = a ++ trim cs ++ b := by
  obtain ⟨a, ha, hcs⟩ := trimStart_split cs
  obtain ⟨b, hb, hrest⟩ := trimEnd_split (trimStart cs)
  refine ⟨a, b, ha, ⟨?_, last_trimEnd⟩, hb, by rw [List.append_assoc, trim, ← hrest, ← hcs]⟩
  intro c hc
  have hhead : ∀ c ∈ (trimStart cs).head?, isBlank c = false := head_trimStart
  apply hhead c
  rw [hrest]
  exact mem_head?_append hc

theorem tight_trim (cs : List Char) : Tight (trim cs) := by
  obtain ⟨a, b, -, htight, -, -⟩ := trim_split cs
  exact htight

theorem trim_blank_append {b : List Char} (hb : Blank b) (cs : List Char) :
    trim (b ++ cs) = trim cs := by
  rw [trim, trimStart_append hb, trim]

theorem trim_append_blank (cs : List Char) {b : List Char} (hb : Blank b) :
    trim (cs ++ b) = trim cs := by
  obtain ⟨a, b', ha, htight, hb', hcs⟩ := trim_split cs
  conv => lhs; rw [hcs, List.append_assoc]
  exact trim_append_append ha htight (hb'.append hb)

theorem trim_trimEnd (cs : List Char) : trim (trimEnd cs) = trim cs := by
  obtain ⟨b, hb, hcs⟩ := trimEnd_split cs
  conv => rhs; rw [hcs, trim_append_blank _ hb]

end ChartLight.Text

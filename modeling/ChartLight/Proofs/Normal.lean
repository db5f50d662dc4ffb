import ChartLight.Proofs.Trim
import ChartLight.Characteristic.Reading

/-! Texts in normal form. They do not begin with white space, and every point in them stands between
two digits; `normalize` makes such a text of any other. Nothing is lost on the way but points and the
white space at the ends (`filter_normalize`), and no point is lost that stands between two digits
(`dropPoints_append_point`). -/

namespace ChartLight

open Text

structure Normal (cs : List Char) : Prop where
  head : ∀ c ∈ cs.head?, isBlank c = false
  point : ∀ a b, cs = a ++ '.' :: b →
    (∃ c ∈ a.getLast?, c.isDigit = true) ∧ ∃ c ∈ b.head?, c.isDigit = true

section Points

variable {a b : List Char}

theorem getD_getLast?_cons (c : Char) (a : List Char) (afterDigit : Bool) :
    ((c :: a).getLast?.map Char.isDigit).getD afterDigit =
      (a.getLast?.map Char.isDigit).getD c.isDigit := by
  rw [List.getLast?_cons]
  cases a.getLast? <;> rfl

/-- A text can be cut anywhere but between a point and a digit. -/
theorem dropPoints_append (hcut : '.' ∈ a.getLast? → b.head?.any (·.isDigit) = false)
    (afterDigit : Bool) :
    dropPoints afterDigit (a ++ b) =
      dropPoints afterDigit a ++ dropPoints ((a.getLast?.map Char.isDigit).getD afterDigit) b := by
  induction a generalizing afterDigit with
  | nil => rfl
  | cons c a ih =>
    rw [getD_getLast?_cons, List.cons_append, dropPoints, dropPoints]
    cases a with
    | nil =>
      by_cases hc : c = '.'
      · have hb := hcut (by rw [hc]; rfl)
        simp [hc, hb, dropPoints]
      · simp [hc, dropPoints]
    | cons d a =>
      have ih := ih (by simpa using hcut)
      rw [List.cons_append, List.head?_cons, List.head?_cons, ← List.cons_append]
      split_ifs with hdrop
      · obtain rfl : c = '.' := (by simpa using hdrop : c = '.' ∧ _).1
        exact ih false
      · rw [ih, List.cons_append]

/-- A point stays just where there are digits on both its sides, and what stands on one side of it
makes no difference on the other. -/
theorem dropPoints_append_point (afterDigit : Bool) (a b : List Char) :
    dropPoints afterDigit (a ++ '.' :: b) =
      dropPoints afterDigit a ++
        (if (a.getLast?.map Char.isDigit).getD afterDigit && b.head?.any (·.isDigit) then ['.']
          else []) ++
        dropPoints false b := by
  rw [dropPoints_append fun _ => rfl, dropPoints, List.append_assoc]
  cases (a.getLast?.map Char.isDigit).getD afterDigit && b.head?.any (·.isDigit) <;> rfl

theorem dropPoints_of_not_mem (h : '.' ∉ a) (afterDigit : Bool) : dropPoints afterDigit a = a := by
  induction a generalizing afterDigit with
  | nil => rfl
  | cons c a ih =>
    obtain ⟨hc, ha⟩ := not_or.1 (mt List.mem_cons.2 h)
    rw [dropPoints, if_neg (by simp [Ne.symm hc]), ih ha]

/-- A text without points is passed over. -/
theorem dropPoints_append_of_not_mem (h : '.' ∉ a) (b : List Char) (afterDigit : Bool) :
    dropPoints afterDigit (a ++ b) =
      a ++ dropPoints ((a.getLast?.map Char.isDigit).getD afterDigit) b := by
  rw [dropPoints_append fun hlast => absurd (List.mem_of_getLast? hlast) h, dropPoints_of_not_mem h]

/-- Nothing is dropped but points. -/
theorem filter_dropPoints (afterDigit : Bool) (cs : List Char) :
    (dropPoints afterDigit cs).filter (· != '.') = cs.filter (· != '.') := by
  induction cs generalizing afterDigit with
  | nil => rfl
  | cons c cs ih =>
    rw [dropPoints]
    split_ifs with hdrop
    · obtain rfl : c = '.' := (by simpa using hdrop : c = '.' ∧ _).1
      exact ih false
    · rw [List.filter_cons, List.filter_cons, ih]

end Points

/-- A point that is kept has a digit before it, which may be the one that `afterDigit` tells of, and
a digit behind it. -/
theorem dropPoints_point (cs : List Char) (afterDigit : Bool) (a b : List Char)
    (h : dropPoints afterDigit cs = a ++ '.' :: b) :
    ((a = [] ∧ afterDigit = true) ∨ ∃ c ∈ a.getLast?, c.isDigit = true) ∧
      ∃ c ∈ b.head?, c.isDigit = true := by
  induction cs generalizing afterDigit a b with
  | nil => simp [dropPoints] at h
  | cons c rest ih =>
    rw [dropPoints] at h
    split at h
    · obtain ⟨hbefore, hafter⟩ := ih false a b h
      refine ⟨Or.inr ?_, hafter⟩
      rcases hbefore with ⟨-, hfalse⟩ | hdigit
      · cases hfalse
      · exact hdigit
    · rename_i hkeep
      cases a with
      | nil =>
        obtain ⟨rfl, rfl⟩ := List.cons.inj h
        have hdigits : afterDigit = true ∧ rest.head?.any (·.isDigit) = true := by
          simpa using hkeep
        refine ⟨Or.inl ⟨rfl, hdigits.1⟩, ?_⟩
        cases rest with
        | nil => simp at hdigits
        | cons d rest =>
          have hd : d.isDigit = true := by simpa using hdigits.2
          have hne : d ≠ '.' := by rintro rfl; simp at hd
          exact ⟨d, by simp [dropPoints, hne], hd⟩
      | cons a₀ a =>
        obtain ⟨rfl, hrest⟩ := List.cons.inj h
        obtain ⟨hbefore, hafter⟩ := ih c.isDigit a b hrest
        refine ⟨Or.inr ?_, hafter⟩
        rcases hbefore with ⟨rfl, hc⟩ | ⟨d, hd, hdigit⟩
        · exact ⟨c, by simp, hc⟩
        · refine ⟨d, ?_, hdigit⟩
          rw [Option.mem_def, List.getLast?_cons, Option.mem_def.1 hd]
          rfl

theorem normal_trim {cs : List Char}
    (h : ∀ a b, cs = a ++ '.' :: b →
      (∃ c ∈ a.getLast?, c.isDigit = true) ∧ ∃ c ∈ b.head?, c.isDigit = true) :
    Normal (trim cs) := by
  obtain ⟨l, r, hl, htight, hr, hcs⟩ := trim_split cs
  refine ⟨htight.head, fun a b hab => ?_⟩
  obtain ⟨⟨c, hc, hcd⟩, ⟨d, hd, hdd⟩⟩ := h (l ++ a) (b ++ r) (by rw [hcs, hab]; simp)
  -- white space is no digit, so the digits beside the point are still there
  constructor
  · rcases getLast?_append_cases hc with hc | hc
    · exact ⟨c, hc, hcd⟩
    · have hnot := hl.isDigit_eq_false c (List.mem_of_getLast? hc)
      rw [hcd] at hnot
      cases hnot
  · rcases head?_append_cases hd with hd | hd
    · exact ⟨d, hd, hdd⟩
    · have hnot := hr.isDigit_eq_false d (List.mem_of_head? hd)
      rw [hdd] at hnot
      cases hnot

theorem normal_normalize (cs : List Char) : Normal (normalize cs) := by
  refine normal_trim fun a b h => ?_
  obtain ⟨hbefore, hafter⟩ := dropPoints_point _ _ _ _ h
  refine ⟨?_, hafter⟩
  rcases hbefore with ⟨-, hfalse⟩ | hdigit
  · cases hfalse
  · exact hdigit

/-- The ends of a text in normal form are no points. -/
theorem Normal.tight_filter {cs : List Char} (h : Normal cs) (htight : Tight cs) :
    Tight (cs.filter (· != '.')) := by
  constructor
  · intro c hc
    cases cs with
    | nil => cases hc
    | cons d cs =>
      have hd : d ≠ '.' := by
        rintro rfl
        obtain ⟨⟨e, he, -⟩, -⟩ := h.point [] cs rfl
        cases he
      rw [List.filter_cons_of_pos (by simpa using hd)] at hc
      exact htight.head c hc
  · intro c hc
    rcases List.eq_nil_or_concat cs with rfl | ⟨cs, d, rfl⟩
    · cases hc
    · rw [List.concat_eq_append] at h htight hc
      have hd : d ≠ '.' := by
        rintro rfl
        obtain ⟨-, e, he, -⟩ := h.point cs [] rfl
        cases he
      have hkept : [d].filter (· != '.') = [d] := by simp [hd]
      rw [List.filter_append, hkept, List.getLast?_concat] at hc
      exact htight.last c (Option.some.inj hc ▸ List.getLast?_concat)

/-- But for its points, the normal form of a text is the text in upper case, without the white space
at its ends. -/
theorem filter_normalize (cs : List Char) :
    (normalize cs).filter (· != '.') = trim ((upperCase (trim cs)).filter (· != '.')) := by
  obtain ⟨a, b, ha, htight, hb, hsplit⟩ := trim_split (dropPoints false (upperCase (trim cs)))
  rw [← normalize] at htight hsplit
  have hblank : ∀ {l : List Char}, Blank l → l.filter (· != '.') = l := fun hl =>
    List.filter_eq_self.2 fun c hc => by simpa using ne_of_mem_of_not_mem hc hl.point_not_mem
  rw [← filter_dropPoints false (upperCase _), hsplit, List.filter_append, List.filter_append,
    hblank ha, hblank hb, trim_append_append ha ((normal_normalize cs).tight_filter htight) hb]

example : normalize " Gp. fl.(2) w 2.50 s. ".toList = "GP FL(2) W 2.50 S".toList := by decide

end ChartLight

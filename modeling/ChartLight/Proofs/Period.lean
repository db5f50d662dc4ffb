import ChartLight.Proofs.Except
import ChartLight.Proofs.Grammar
import ChartLight.Proofs.Normal

/-! Taking the period off a text. In a text in normal form, what is taken is a numeral of the
grammar, the longest that ends there. -/

namespace ChartLight

open Number Text

theorem units_eq (r : Nat) :
    units r = if r / 2 ^ 52 = 0 then r else (2 ^ 52 + r % 2 ^ 52) * 2 ^ (r / 2 ^ 52 - 1) := rfl

theorem units_pos_iff (r : Nat) : 0 < units r ↔ r ≠ 0 := by
  rw [units_eq]
  split_ifs with h
  · omega
  · have hpow : 0 < 2 ^ (r / 2 ^ 52 - 1) := Nat.two_pow_pos _
    have hunits : 0 < (2 ^ 52 + r % 2 ^ 52) * 2 ^ (r / 2 ^ 52 - 1) := Nat.mul_pos (by omega) hpow
    have hr : r ≠ 0 := by
      rintro rfl
      exact h rfl
    exact iff_of_true hunits hr

theorem periodFault?_eq_none_iff (seconds : Binary64) :
    periodFault? seconds = none ↔ InHour seconds := by
  unfold periodFault? InHour
  cases seconds with
  | nan => simp [Binary64.isFinite]
  | infinite negative => simp [Binary64.isFinite]
  | finite negative rank =>
    have hpos := units_pos_iff rank.val
    cases negative with
    | true => simp [Binary64.isFinite, Binary64.isPositive]
    | false =>
      simp only [Binary64.isFinite, Binary64.isPositive, Binary64.exceeds, Characteristic.maxPeriod,
        Binary64.finite.injEq, true_and, exists_eq_left', hpos]
      by_cases hzero : rank.val = 0
      · simp [hzero]
      · by_cases hlong : 3600 * unitsInOne < units rank.val
        · simp [hzero, hlong]
        · simp [hzero, hlong, Nat.le_of_not_lt hlong]

theorem checkPeriod_eq_ok_iff (seconds period : Binary64) :
    checkPeriod seconds = .ok period ↔ period = seconds ∧ InHour seconds := by
  rw [← periodFault?_eq_none_iff, checkPeriod]
  cases periodFault? seconds with
  | none => simp [eq_comm]
  | some fault => simp

theorem readSeconds_eq_ok_iff (numeral : List Char) (period : Binary64) :
    readSeconds numeral = .ok period ↔
      ∃ decimal, Decimal.ofPoint? numeral = some decimal ∧
        period = decimal.toBinary64 false ∧ InHour (decimal.toBinary64 false) := by
  unfold readSeconds
  cases Decimal.ofPoint? numeral with
  | none => simp
  | some decimal => simp only [checkPeriod_eq_ok_iff, Option.some.injEq, exists_eq_left']

theorem Digits.dropWhile_append {ds rest : List Char} (h : Digits ds) :
    (ds ++ rest).dropWhile (·.isDigit) = rest.dropWhile (·.isDigit) :=
  List.dropWhile_append_of_pos h.isDigit

theorem Digits.takeWhile_append {ds rest : List Char} (h : Digits ds) :
    (ds ++ rest).takeWhile (·.isDigit) = ds ++ rest.takeWhile (·.isDigit) :=
  List.takeWhile_append_of_pos h.isDigit

theorem ofPoint?_of_numeral {cs : List Char} {d : Decimal} (h : Numeral cs d) :
    Decimal.ofPoint? cs = some d := by
  cases h with
  | whole hds =>
    have htake : (cs ++ []).takeWhile (·.isDigit) = cs ++ [] := hds.takeWhile_append
    have hdrop : (cs ++ []).dropWhile Char.isDigit = [] := hds.dropWhile_append
    rw [List.append_nil] at htake hdrop
    simp only [Decimal.ofPoint?, htake, hdrop]
    simp [hds.ne_nil]
  | @point ds es hds hes =>
    have htake : (ds ++ '.' :: es).takeWhile (·.isDigit) = ds ++ [] := hds.takeWhile_append
    have hdrop : (ds ++ '.' :: es).dropWhile (·.isDigit) = '.' :: es := hds.dropWhile_append
    have hall : es.all (·.isDigit) = true := List.all_eq_true.2 hes.isDigit
    simp only [Decimal.ofPoint?, htake, hdrop]
    simp [hds.ne_nil, hall]

theorem numeral_of_ofPoint? {cs : List Char} {d : Decimal} (h : Decimal.ofPoint? cs = some d)
    (hpoint : ∀ a b, cs = a ++ '.' :: b → a ≠ [] ∧ b ≠ []) : Numeral cs d := by
  have hsplit : cs.takeWhile (·.isDigit) ++ cs.dropWhile (·.isDigit) = cs :=
    List.takeWhile_append_dropWhile
  have hwhole : ∀ c ∈ cs.takeWhile (·.isDigit), c.isDigit = true :=
    List.all_eq_true.1 List.all_takeWhile
  simp only [Decimal.ofPoint?] at h
  generalize cs.takeWhile (·.isDigit) = ds at *
  generalize cs.dropWhile (·.isDigit) = rest at *
  subst hsplit
  cases rest with
  | nil =>
    have hne : ds ≠ [] := by
      rintro rfl
      simp at h
    have hd : ⟨Nat.ofDigitChars 10 ds 0, 0⟩ = d := by simpa [hne] using h
    rw [List.append_nil, ← hd]
    exact Numeral.whole ⟨hne, hwhole⟩
  | cons c es =>
    by_cases hc : c = '.'
    · subst hc
      obtain ⟨hds, hes⟩ := hpoint ds es rfl
      by_cases hall : es.all (·.isDigit) = true
      · have hd : ⟨Nat.ofDigitChars 10 (ds ++ es) 0, -es.length⟩ = d := by
          simpa [hall, hds] using h
        rw [← hd]
        exact Numeral.point ⟨hds, hwhole⟩ ⟨hes, List.all_eq_true.1 hall⟩
      · simp [hall] at h
    · simp [hc] at h

theorem Numeral.ne_nil {cs : List Char} {d : Decimal} (h : Numeral cs d) : cs ≠ [] := by
  cases h with
  | whole hds => exact hds.ne_nil
  | point hds hes => simp

theorem Digits.inNumeral {ds : List Char} (h : Digits ds) : ∀ c ∈ ds, inNumeral c = true := by
  intro c hc
  rw [ChartLight.inNumeral, h.isDigit c hc, Bool.true_or]

theorem Numeral.inNumeral {cs : List Char} {d : Decimal} (h : Numeral cs d) :
    ∀ c ∈ cs, inNumeral c = true := by
  cases h with
  | whole hds => exact hds.inNumeral
  | point hds hes =>
    intro c hc
    rcases List.mem_append.1 hc with hc | hc
    · exact hds.inNumeral c hc
    · rcases List.mem_cons.1 hc with rfl | hc
      · rfl
      · exact hes.inNumeral c hc

theorem isBlank_eq_false_of_inNumeral {c : Char} (h : inNumeral c = true) : isBlank c = false := by
  rcases Bool.or_eq_true _ _ ▸ h with hdigit | hpoint
  · exact isBlank_eq_false_of_isDigit hdigit
  · rw [beq_iff_eq.1 hpoint]
    rfl

theorem takePeriod_append_s (body : List Char) :
    takePeriod (body ++ ['S']) =
      if takeWhileEnd inNumeral (trimEnd body) = [] then .ok (body ++ ['S'], none)
      else (readSeconds (takeWhileEnd inNumeral (trimEnd body))).map fun seconds =>
        (trimEnd (dropWhileEnd inNumeral (trimEnd body)), some seconds) := by
  have hsuffix : ['S'].isSuffixOf? (body ++ ['S']) = some body :=
    List.isSuffixOf?_eq_some_iff_append_eq.2 rfl
  simp only [takePeriod, hsuffix, List.isEmpty_iff]

theorem takePeriod_of_no_s {cs : List Char} (h : 'S' ∉ cs.getLast?) :
    takePeriod cs = .ok (cs, none) := by
  have hsuffix : ['S'].isSuffixOf? cs = none := by
    rw [Option.eq_none_iff_forall_ne_some]
    intro body hbody
    rw [List.isSuffixOf?_eq_some_iff_append_eq] at hbody
    exact h (by simp [← hbody])
  rw [takePeriod, hsuffix]

/-- The longest run of digits and points before the final `S` is read as the period. -/
theorem takePeriod_run {head run b : List Char} (hlongest : ∀ c ∈ head.getLast?, inNumeral c = false)
    (hne : run ≠ []) (hrun : ∀ c ∈ run, inNumeral c = true) (hb : Blank b) :
    takePeriod (head ++ run ++ b ++ ['S']) =
      (readSeconds run).map fun seconds => (trimEnd head, some seconds) := by
  have hlast : ∀ c ∈ (head ++ run).getLast?, isBlank c = false := by
    intro c hc
    rw [List.getLast?_append_of_ne_nil _ hne] at hc
    exact isBlank_eq_false_of_inNumeral (hrun c (List.mem_of_getLast? hc))
  rw [takePeriod_append_s, trimEnd_append hlast hb, takeWhileEnd_append hlongest hrun,
    dropWhileEnd_append hlongest hrun, if_neg hne]

/-- A text in which a number of seconds stands behind a body: the longest run of digits and points before
a final `S`, with white space on either side as one likes. -/
inductive Timed (body run : List Char) : List Char → Prop
  | intro {a b : List Char} (hbody : ∀ c ∈ body.getLast?, isBlank c = false) (ha : Blank a)
      (hlongest : ∀ c ∈ (body ++ a).getLast?, inNumeral c = false) (hne : run ≠ [])
      (hrun : ∀ c ∈ run, inNumeral c = true) (hb : Blank b) :
      Timed body run (body ++ a ++ run ++ b ++ ['S'])

theorem takePeriod_of_timed {body run cs : List Char} (h : Timed body run cs) :
    takePeriod cs = (readSeconds run).map fun seconds => (body, some seconds) := by
  obtain ⟨hbody, ha, hlongest, hne, hrun, hb⟩ := h
  rw [takePeriod_run hlongest hne hrun hb, trimEnd_append hbody ha]

/-- Some run before the final `S` lies in a longest one. -/
theorem exists_timed {run b : List Char} (head : List Char) (hne : run ≠ [])
    (hrun : ∀ c ∈ run, inNumeral c = true) (hb : Blank b) :
    ∃ body longest, Timed body longest (head ++ run ++ b ++ ['S']) := by
  obtain ⟨c, hc⟩ := Option.ne_none_iff_exists'.1 (mt List.getLast?_eq_none_iff.1 hne)
  have hlongest : takeWhileEnd inNumeral (head ++ run) ≠ [] := by
    intro hnil
    have hnot := takeWhileEnd_eq_nil_iff.1 hnil c (mem_getLast?_append hc)
    rw [hrun c (List.mem_of_getLast? hc)] at hnot
    cases hnot
  obtain ⟨a, ha, hbefore⟩ := trimEnd_split (dropWhileEnd inNumeral (head ++ run))
  have hlast : ∀ c ∈ (dropWhileEnd inNumeral (head ++ run)).getLast?, inNumeral c = false :=
    fun _ hc => of_mem_getLast?_dropWhileEnd hc
  have hsplit := dropWhileEnd_append_takeWhileEnd inNumeral (head ++ run)
  rw [hbefore] at hlast hsplit
  rw [← hsplit]
  exact ⟨_, _, Timed.intro last_trimEnd ha hlast hlongest (fun _ hc => of_mem_takeWhileEnd hc) hb⟩

theorem takePeriod_of_not_timed {cs : List Char} (h : ∀ body run, ¬Timed body run cs) :
    takePeriod cs = .ok (cs, none) := by
  by_cases hs : 'S' ∈ cs.getLast?
  · obtain ⟨text, rfl⟩ := List.getLast?_eq_some_iff.1 (Option.mem_def.1 hs)
    rw [takePeriod_append_s]
    split_ifs with hnone
    · rfl
    · exfalso
      obtain ⟨b, hb, htext⟩ := trimEnd_split text
      obtain ⟨body, run, htimed⟩ := exists_timed (dropWhileEnd inNumeral (trimEnd text)) hnone
        (fun _ hc => of_mem_takeWhileEnd hc) hb
      rw [dropWhileEnd_append_takeWhileEnd, ← htext] at htimed
      exact h body run htimed
  · exact takePeriod_of_no_s hs

/-- A text ends in a number of seconds, which is read, or it stays as it is. -/
theorem takePeriod_cases (cs : List Char) :
    (∃ body run, Timed body run cs ∧
      takePeriod cs = (readSeconds run).map fun seconds => (body, some seconds)) ∨
    (∀ body run, ¬Timed body run cs) ∧ takePeriod cs = .ok (cs, none) := by
  by_cases htimed : ∃ body run, Timed body run cs
  · obtain ⟨body, run, htimed⟩ := htimed
    exact Or.inl ⟨body, run, htimed, takePeriod_of_timed htimed⟩
  · have hnone : ∀ body run, ¬Timed body run cs := fun body run h => htimed ⟨body, run, h⟩
    exact Or.inr ⟨hnone, takePeriod_of_not_timed hnone⟩

/-- A period that is written as the grammar has it is taken. -/
theorem takePeriod_complete {head numeral b : List Char} {decimal : Decimal}
    (hlongest : ∀ c ∈ head.getLast?, inNumeral c = false) (hnumeral : Numeral numeral decimal)
    (hb : Blank b) (hrange : InHour (decimal.toBinary64 false)) :
    takePeriod (head ++ numeral ++ b ++ ['S']) =
      .ok (trimEnd head, some (decimal.toBinary64 false)) := by
  have hread : readSeconds numeral = .ok (decimal.toBinary64 false) :=
    (readSeconds_eq_ok_iff _ _).2 ⟨decimal, ofPoint?_of_numeral hnumeral, rfl, hrange⟩
  rw [takePeriod_run hlongest hnumeral.ne_nil hnumeral.inNumeral hb, hread]
  rfl

/-- Before and behind a point of the run stands a digit, and neither can lie outside of it: what comes
before the run does not end like one, and what comes behind does not begin with a digit. -/
theorem Timed.point_inside {body run cs x y : List Char} (hcs : Normal cs) (h : Timed body run cs)
    (hrun : run = x ++ '.' :: y) : x ≠ [] ∧ y ≠ [] := by
  obtain ⟨-, -, hlongest, -, -, hb⟩ := h
  rename_i a b
  obtain ⟨⟨c, hc, hcd⟩, ⟨d, hd, hdd⟩⟩ :=
    hcs.point (body ++ a ++ x) (y ++ (b ++ ['S'])) (by rw [hrun]; simp)
  constructor
  · rintro rfl
    rw [List.append_nil] at hc
    have hnot := hlongest c hc
    rw [inNumeral, hcd] at hnot
    cases hnot
  · rintro rfl
    rw [List.nil_append] at hd
    rcases head?_append_cases hd with hblank | hletter
    · have hnot := hb.isDigit_eq_false d (List.mem_of_head? hblank)
      rw [hdd] at hnot
      cases hnot
    · rw [← Option.some.inj hletter] at hdd
      cases hdd

/-- What is taken off a text in normal form is a period of the grammar. -/
theorem takePeriod_sound {cs rest : List Char} {period : Option Binary64} (hcs : Normal cs)
    (h : takePeriod cs = .ok (rest, period)) :
    (period = none ∧ rest = cs) ∨
    ∃ numeral decimal, Timed rest numeral cs ∧ Numeral numeral decimal ∧
      InHour (decimal.toBinary64 false) ∧ period = some (decimal.toBinary64 false) := by
  rcases takePeriod_cases cs with ⟨body, run, htimed, htake⟩ | ⟨-, htake⟩
  · rw [htake] at h
    obtain ⟨seconds, hseconds, h⟩ := map_eq_ok_iff.1 h
    obtain ⟨rfl, rfl⟩ := Prod.mk.inj h
    obtain ⟨decimal, hdecimal, rfl, hrange⟩ := (readSeconds_eq_ok_iff _ _).1 hseconds
    have hnumeral : Numeral run decimal :=
      numeral_of_ofPoint? hdecimal fun x y hrun => htimed.point_inside hcs hrun
    exact Or.inr ⟨run, decimal, htimed, hnumeral, hrange, rfl⟩
  · rw [htake] at h
    obtain ⟨rfl, rfl⟩ := Prod.mk.inj (Except.ok.inj h)
    exact Or.inl ⟨rfl, rfl⟩

end ChartLight

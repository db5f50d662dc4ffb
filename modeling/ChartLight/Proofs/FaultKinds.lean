import ChartLight.Proofs.RoundTrip

/-! Which fault a text is refused for. A text may have several, and the order of the readers decides: the
period comes first, then the rhythm, and all the rest is a fault of the group. Each kind is told from the
normal form, without regard to how it is taken apart; what that form keeps of a text is in
`filter_normalize` and `dropPoints_append_point`. -/

namespace ChartLight

open Number Text

section Seconds

variable {body run cs rest : List Char} {period : Option Binary64}

theorem Numeral.count_point_le {d : Decimal} (h : Numeral run d) : run.count '.' ≤ 1 := by
  cases h with
  | whole hds => rw [List.count_eq_zero_of_not_mem hds.point_not_mem]; exact Nat.zero_le 1
  | point hds hes =>
    rw [List.count_append, List.count_cons_self, List.count_eq_zero_of_not_mem hds.point_not_mem,
      List.count_eq_zero_of_not_mem hes.point_not_mem]

/-- In a text in normal form, the run before the final `S` is a numeral unless it has two points. -/
theorem Timed.exists_numeral_iff (hcs : Normal cs) (h : Timed body run cs) :
    (∃ d, Numeral run d) ↔ run.count '.' ≤ 1 := by
  constructor
  · rintro ⟨d, hd⟩
    exact hd.count_point_le
  · intro hcount
    obtain ⟨hne, hrun⟩ : run ≠ [] ∧ ∀ c ∈ run, inNumeral c = true := by
      obtain ⟨-, -, -, hne, hrun, -⟩ := h
      exact ⟨hne, hrun⟩
    have hdigits : ∀ part, part ⊆ run → part ≠ [] → '.' ∉ part → Digits part := by
      intro part hpart hne hpoint
      refine ⟨hne, fun c hc => ?_⟩
      have hother : c ≠ '.' := fun heq => hpoint (heq ▸ hc)
      simpa [inNumeral, hother] using hrun c (hpart hc)
    by_cases hpoint : '.' ∈ run
    · obtain ⟨ds, es, rfl⟩ := List.append_of_mem hpoint
      obtain ⟨hds, hes⟩ := h.point_inside hcs rfl
      rw [List.count_append, List.count_cons_self] at hcount
      have hbefore : '.' ∉ ds := List.count_eq_zero.1 (by omega)
      have hbehind : '.' ∉ es := List.count_eq_zero.1 (by omega)
      have hsub : es ⊆ ds ++ '.' :: es := fun c hc => List.mem_append_right _ (List.mem_cons_of_mem _ hc)
      exact ⟨_, Numeral.point (hdigits ds (List.subset_append_left _ _) hds hbefore)
        (hdigits es hsub hes hbehind)⟩
    · exact ⟨_, Numeral.whole (hdigits run (List.Subset.refl run) hne hpoint)⟩

/-- A run of digits and points that no period can have: with two points, or of a value that is not above
zero or is more than an hour. -/
def BadSeconds (run : List Char) : Prop :=
  1 < run.count '.' ∨ ∃ d, Numeral run d ∧ ¬InHour (d.toBinary64 false)

/-- The longest run before a final `S` is bad. -/
def EndsInBadSeconds (cs : List Char) : Prop := ∃ body run, Timed body run cs ∧ BadSeconds run

theorem Timed.readSeconds_isOk_iff (hcs : Normal cs) (h : Timed body run cs) :
    (∃ seconds, readSeconds run = .ok seconds) ↔ ¬BadSeconds run := by
  have hnumeral := h.exists_numeral_iff hcs
  constructor
  · rintro ⟨seconds, hseconds⟩
    obtain ⟨d, hd, -, hrange⟩ := (readSeconds_eq_ok_iff _ _).1 hseconds
    have hread : Numeral run d := numeral_of_ofPoint? hd fun x y hrun => h.point_inside hcs hrun
    rintro (hcount | ⟨e, he, hout⟩)
    · exact Nat.not_le.2 hcount (hnumeral.1 ⟨d, hread⟩)
    · rw [ofPoint?_of_numeral he] at hd
      rw [Option.some.inj hd] at hout
      exact hout hrange
  · intro hgood
    rw [BadSeconds, not_or, Nat.not_lt] at hgood
    obtain ⟨hcount, hrange⟩ := hgood
    obtain ⟨d, hd⟩ := hnumeral.2 hcount
    refine ⟨d.toBinary64 false, (readSeconds_eq_ok_iff _ _).2 ⟨d, ofPoint?_of_numeral hd, rfl, ?_⟩⟩
    by_contra hout
    exact hrange ⟨d, hd, hout⟩

theorem takePeriod_eq_error_iff (hcs : Normal cs) :
    (∃ fault, takePeriod cs = .error fault) ↔ EndsInBadSeconds cs := by
  constructor
  · rintro ⟨fault, hfault⟩
    rcases takePeriod_cases cs with ⟨body, run, htimed, htake⟩ | ⟨-, htake⟩
    · refine ⟨body, run, htimed, ?_⟩
      by_contra hgood
      obtain ⟨seconds, hseconds⟩ := (htimed.readSeconds_isOk_iff hcs).2 hgood
      rw [htake, hseconds] at hfault
      cases hfault
    · rw [htake] at hfault
      cases hfault
  · rintro ⟨body, run, htimed, hbad⟩
    rw [takePeriod_of_timed htimed]
    cases hread : readSeconds run with
    | error fault => exact ⟨fault, rfl⟩
    | ok seconds => exact absurd hbad ((htimed.readSeconds_isOk_iff hcs).1 ⟨seconds, hread⟩)

end Seconds

section Remains

variable {cs rest left body : List Char} {period : Option Binary64}

/-- What is left of a text without the number of seconds that it may end in. -/
def Untimed (body cs : List Char) : Prop :=
  (∃ run, Timed body run cs) ∨ (∀ other run, ¬Timed other run cs) ∧ body = cs

/-- What is left of a text without the number of seconds and the colours that it may end in, and without
the sign for a group that it may then begin with. -/
def Remains (cs left : List Char) : Prop :=
  ∃ body core colors, Untimed body cs ∧ Uncolored core colors body ∧ Unsigned left core

theorem untimed_iff (h : takePeriod cs = .ok (rest, period)) : Untimed body cs ↔ body = rest := by
  rcases takePeriod_cases cs with ⟨other, run, htimed, htake⟩ | ⟨hnone, htake⟩
  · have hrest : ∀ {body run}, Timed body run cs → body = rest := by
      intro body run htimed
      rw [takePeriod_of_timed htimed] at h
      obtain ⟨seconds, -, heq⟩ := map_eq_ok_iff.1 h
      exact (Prod.mk.inj heq).1
    constructor
    · rintro (⟨run, hbody⟩ | ⟨hnone, -⟩)
      · exact hrest hbody
      · exact absurd htimed (hnone _ _)
    · rintro rfl
      exact Or.inl ⟨run, hrest htimed ▸ htimed⟩
  · rw [htake] at h
    obtain rfl : cs = rest := (Prod.mk.inj (Except.ok.inj h)).1
    constructor
    · rintro (⟨run, hbody⟩ | ⟨-, rfl⟩)
      · exact absurd hbody (hnone _ _)
      · rfl
    · exact fun heq => Or.inr ⟨hnone, heq⟩

theorem Untimed.head (hcs : Normal cs) (h : Untimed body cs) :
    ∀ c ∈ body.head?, isBlank c = false := by
  rcases h with ⟨run, htimed⟩ | ⟨-, rfl⟩
  · obtain ⟨⟩ := htimed
    intro c hc
    apply hcs.head c
    rw [List.append_assoc, List.append_assoc, List.append_assoc]
    exact mem_head?_append hc
  · exact hcs.head

theorem Uncolored.head {core : List Char} {colors : List Color} (h : Uncolored core colors body)
    (hbody : ∀ c ∈ body.head?, isBlank c = false) : ∀ c ∈ core.head?, isBlank c = false := by
  obtain ⟨⟩ := h
  intro c hc
  apply hbody c
  rw [List.append_assoc]
  exact mem_head?_append hc

/-- One thing remains of a text, and only one: what the readers leave for the rhythm. -/
theorem remains_iff (hcs : Normal cs) (h : takePeriod cs = .ok (rest, period)) :
    Remains cs left ↔ left = dropGroupSign (takeColors rest).1 := by
  constructor
  · rintro ⟨body, core, colors, huntimed, huncolored, hunsigned⟩
    obtain rfl := (untimed_iff h).1 huntimed
    rw [takeColors_of_uncolored huncolored, dropGroupSign_of_unsigned hunsigned]
  · rintro rfl
    have huntimed : Untimed rest cs := (untimed_iff h).2 rfl
    have huncolored := uncolored_takeColors rest
    exact ⟨rest, _, _, huntimed, huncolored,
      unsigned_dropGroupSign (huncolored.head (huntimed.head hcs))⟩

end Remains

theorem Fault.message_eq (fault : Fault) : ∃ detail, fault.message = fault.reason ++ detail := by
  cases fault with
  | unrecognizedRhythm => exact ⟨"", rfl⟩
  | _ => exact ⟨_, String.append_assoc⟩

section Kinds

variable {cs rest left : List Char} {period : Option Binary64} {fault : Fault}

/-- The first reader that fails decides the kind of the fault. -/
theorem ofNormal_eq_error (h : Reading.ofNormal cs = .error fault) :
    (∃ f, takePeriod cs = .error f ∧ fault = .invalidPeriod f) ∨
    ∃ rest period, takePeriod cs = .ok (rest, period) ∧
      (matchRhythm? (dropGroupSign (takeColors rest).1) = none ∧ fault = .unrecognizedRhythm ∨
        matchRhythm? (dropGroupSign (takeColors rest).1) ≠ none ∧ ∃ f, fault = .invalidGroup f) := by
  simp only [Reading.ofNormal, bind_eq_error_iff, mapError_eq_error_iff, mapError_eq_ok_iff] at h
  rcases h with ⟨f, hperiod, rfl⟩ | ⟨⟨rest, period⟩, hperiod, h⟩
  · exact Or.inl ⟨f, hperiod, rfl⟩
  · refine Or.inr ⟨rest, period, hperiod, ?_⟩
    split at h
    · rename_i hrhythm
      exact Or.inl ⟨hrhythm, (Except.error.inj h).symm⟩
    · rename_i hrhythm
      refine Or.inr ⟨by rw [hrhythm]; exact Option.some_ne_none _, ?_⟩
      simp only [bind_eq_error_iff, mapError_eq_error_iff, mapError_eq_ok_iff] at h
      rcases h with ⟨f, -, rfl⟩ | ⟨_, -, ⟨f, -, rfl⟩ | ⟨_, -, ⟨f, -, rfl⟩ | ⟨_, -, h⟩⟩⟩
      · exact ⟨f, rfl⟩
      · exact ⟨f, rfl⟩
      · exact ⟨f, rfl⟩
      · cases h

theorem ofNormal_of_bad_seconds (hcs : Normal cs) (h : EndsInBadSeconds cs) :
    ∃ f, Reading.ofNormal cs = .error (.invalidPeriod f) := by
  obtain ⟨f, hf⟩ := (takePeriod_eq_error_iff hcs).2 h
  rw [Reading.ofNormal, hf]
  exact ⟨f, rfl⟩

/-- Where the seconds are in order, only what remains before the colours decides whether a rhythm is
found, and any further fault is one of the group. -/
theorem ofNormal_of_good_seconds (hcs : Normal cs) (h : ¬EndsInBadSeconds cs) :
    ∃ left, (∀ other, Remains cs other ↔ other = left) ∧
      ((¬BeginsWithKeyword left ∧ Reading.ofNormal cs = .error .unrecognizedRhythm) ∨
        (BeginsWithKeyword left ∧ ((∃ f, Reading.ofNormal cs = .error (.invalidGroup f)) ∨
          ∃ r, Reading.ofNormal cs = .ok r))) := by
  rw [← takePeriod_eq_error_iff hcs] at h
  cases hperiod : takePeriod cs with
  | error f => exact absurd ⟨f, hperiod⟩ h
  | ok taken =>
    refine ⟨dropGroupSign (takeColors taken.1).1, fun other => remains_iff hcs hperiod, ?_⟩
    have htaken : ∀ {rest period}, takePeriod cs = .ok (rest, period) → taken = (rest, period) :=
      fun hrest => Except.ok.inj (hperiod.symm.trans hrest)
    cases hread : Reading.ofNormal cs with
    | ok r =>
      obtain ⟨rest, middle, content, after, hrest, -, hrhythm, -⟩ := ofNormal_eq_ok_iff.1 hread
      rw [htaken hrest]
      refine Or.inr ⟨?_, Or.inr ⟨r, rfl⟩⟩
      by_contra hnone
      cases hrhythm.symm.trans (matchRhythm?_eq_none_iff.2 hnone)
    | error fault =>
      rcases ofNormal_eq_error hread with ⟨f, hf, -⟩ | ⟨rest, period, hrest, hkind⟩
      · exact absurd ⟨f, hf⟩ h
      · rw [htaken hrest]
        rcases hkind with ⟨hnone, rfl⟩ | ⟨hsome, f, rfl⟩
        · exact Or.inl ⟨matchRhythm?_eq_none_iff.1 hnone, rfl⟩
        · refine Or.inr ⟨?_, Or.inl ⟨f, rfl⟩⟩
          by_contra hnone
          exact hsome (matchRhythm?_eq_none_iff.2 hnone)

end Kinds

namespace Characteristic

/-- A refused text has one kind of fault, however many faults it has. It is the period if the default or
the seconds at the end can be none; else the rhythm if what remains before the colours begins with no
keyword; and else the group. -/
theorem readWith_fault_kinds (defaultPeriod : Binary64) (text : String) :
    ((∃ f, readWith defaultPeriod text = .error (.invalidPeriod f)) ↔
      ¬InHour defaultPeriod ∨ EndsInBadSeconds (normalize text.toList)) ∧
    (readWith defaultPeriod text = .error .unrecognizedRhythm ↔
      (InHour defaultPeriod ∧ ¬EndsInBadSeconds (normalize text.toList)) ∧
        ∃ left, Remains (normalize text.toList) left ∧ ¬BeginsWithKeyword left) ∧
    ((∃ f, readWith defaultPeriod text = .error (.invalidGroup f)) ↔
      (InHour defaultPeriod ∧ ¬EndsInBadSeconds (normalize text.toList)) ∧
        (∃ left, Remains (normalize text.toList) left ∧ BeginsWithKeyword left) ∧
        ¬∃ r, Written r (normalize text.toList)) ∧
    (∀ f, readWith defaultPeriod text ≠ .error (.invalidCharacteristic f)) ∧
    ∀ fault : Fault, ∃ detail, fault.message = fault.reason ++ detail := by
  have hcs := normal_normalize text.toList
  by_cases hdefault : InHour defaultPeriod
  · rw [readWith_of_inHour hdefault]
    generalize normalize text.toList = cs at *
    have hwritten : (∃ r, Written r cs) ↔ ∃ r, Reading.ofNormal cs = .ok r :=
      exists_congr fun r => ⟨ofNormal_complete, ofNormal_sound hcs⟩
    rw [hwritten]
    by_cases hbad : EndsInBadSeconds cs
    · obtain ⟨f, hf⟩ := ofNormal_of_bad_seconds hcs hbad
      simp [hf, hbad, Except.map, Fault.message_eq]
    · obtain ⟨left, hleft, hkind⟩ := ofNormal_of_good_seconds hcs hbad
      simp only [hleft, exists_eq_left]
      rcases hkind with ⟨hkeyword, hf⟩ | ⟨hkeyword, ⟨f, hf⟩ | ⟨r, hf⟩⟩
      all_goals simp [hf, hdefault, hbad, hkeyword, Except.map, Fault.message_eq]
  · obtain ⟨f, hf⟩ := readWith_of_not_inHour hdefault text
    simp [hf, hdefault, Fault.message_eq]

end Characteristic

end ChartLight

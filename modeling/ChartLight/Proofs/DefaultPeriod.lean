import ChartLight.CommandLine.Run
import ChartLight.Proofs.TimeScales

/-! What the default period is for. It stands in for a period that the text does not have, and nothing
else of a reading depends on it: neither what is read nor why a text is refused. So a mark that could
be read with one default, as every mark of a catalogue was when it was loaded, can be read with any. -/

namespace ChartLight

open Number Text

/-- A text that ends in a number of seconds: digits and points, white space if any, and an `S`. -/
def EndsInSeconds (cs : List Char) : Prop :=
  ∃ head numeral b, cs = head ++ numeral ++ b ++ ['S'] ∧ numeral ≠ [] ∧
    (∀ c ∈ numeral, inNumeral c = true) ∧ Blank b

section Seconds

theorem endsInSeconds_iff {cs : List Char} : EndsInSeconds cs ↔ ∃ body run, Timed body run cs := by
  constructor
  · rintro ⟨head, numeral, b, rfl, hne, hnumeral, hb⟩
    exact exists_timed head hne hnumeral hb
  · rintro ⟨body, run, ⟨-, -, -, hne, hrun, hb⟩⟩
    exact ⟨_, run, _, rfl, hne, hrun, hb⟩

theorem EndsInSeconds.getLast? {cs : List Char} (h : EndsInSeconds cs) : 'S' ∈ cs.getLast? := by
  obtain ⟨head, numeral, b, rfl, -⟩ := h
  exact List.getLast?_concat

/-- A period is taken just where a number of seconds ends the text. -/
theorem isSome_period_iff {cs rest : List Char} {period : Option Binary64}
    (h : takePeriod cs = .ok (rest, period)) : period.isSome ↔ EndsInSeconds cs := by
  rw [endsInSeconds_iff]
  rcases takePeriod_cases cs with ⟨body, run, htimed, htake⟩ | ⟨hnone, htake⟩
  · rw [htake] at h
    obtain ⟨seconds, -, h⟩ := map_eq_ok_iff.1 h
    obtain ⟨-, rfl⟩ := Prod.mk.inj h
    exact iff_of_true rfl ⟨body, run, htimed⟩
  · rw [htake] at h
    obtain ⟨-, rfl⟩ := Prod.mk.inj (Except.ok.inj h)
    exact iff_of_false Bool.false_ne_true fun ⟨body, run, htimed⟩ => hnone body run htimed

theorem isSome_period_ofNormal_iff {cs : List Char} {r : Reading} (h : Reading.ofNormal cs = .ok r) :
    r.period.isSome ↔ EndsInSeconds cs := by
  obtain ⟨rest, middle, content, after, hperiod, -⟩ := ofNormal_eq_ok_iff.1 h
  exact isSome_period_iff hperiod

end Seconds

section Marks

namespace Characteristic

/-- What can be read with one default period can be read with any. -/
theorem readWith_ok_of_ok {a b : Binary64} (ha : InHour a) (hb : InHour b) {text : String}
    {light : Characteristic} (h : readWith a text = .ok light) :
    ∃ other, readWith b text = .ok other := by
  rw [readWith_of_inHour ha, map_eq_ok_iff] at h
  obtain ⟨r, hr, -⟩ := h
  exact ⟨r.characteristic b, by rw [readWith_of_inHour hb, hr]; rfl⟩

end Characteristic

namespace Mark

theorem firstFault?_eq_none_iff {marks : List Mark} :
    firstFault? marks = none ↔ ∀ mark ∈ marks, ∃ light, Characteristic.read mark.light = .ok light := by
  rw [firstFault?, List.findSome?_eq_none_iff]
  refine forall₂_congr fun mark _ => ?_
  cases Characteristic.read mark.light <;> simp

theorem read_of_readAll {text : String} {marks : List Mark} (h : readAll text = .ok marks) :
    ∀ mark ∈ marks, ∃ light, Characteristic.read mark.light = .ok light := by
  unfold readAll at h
  dsimp only at h
  split at h
  · cases h
  · split at h
    · cases h
    · next hnone =>
      obtain rfl := Except.ok.inj h
      exact firstFault?_eq_none_iff.1 hnone

theorem read_common : ∀ mark ∈ common, ∃ light, Characteristic.read mark.light = .ok light :=
  firstFault?_eq_none_iff.1 (by decide +kernel)

end Mark

/-- A mark that can be read at all is what its name resolves to. -/
theorem CommandLine.resolve_mark {marks : List Mark} {settings : Settings} {text : String} {mark : Mark}
    (hsettings : settings.fault? = none) (hfind : Mark.find? marks text = some mark)
    (hread : ∃ light, Characteristic.read mark.light = .ok light) :
    ∃ light, resolve marks settings text = .ok light := by
  obtain ⟨light, hlight⟩ := hread
  rw [resolve, hfind]
  exact Characteristic.readWith_ok_of_ok Characteristic.inHour_defaultPeriod
    (Settings.fault?_eq_none hsettings).2 hlight

end Marks

namespace Characteristic

/-- Whatever the default period is, a text is refused for the same reason or says the same light but
for a period that it leaves out. Hence the names of common marks and of those of a catalogue that was
read all mean a light, under all settings that are accepted. -/
theorem default_fills_period (text : String) {a b : Binary64} (ha : InHour a) (hb : InHour b) :
    ((∃ fault, readWith a text = .error fault ∧ readWith b text = .error fault) ∨
      ∃ light other, readWith a text = .ok light ∧ readWith b text = .ok other ∧
        other = { light with period := other.period } ∧
        (EndsInSeconds (normalize text.toList) → other.period = light.period) ∧
        (¬EndsInSeconds (normalize text.toList) → light.period = a ∧ other.period = b)) ∧
    ∀ settings, Settings.fault? settings = none →
      ∀ marks name mark, Mark.find? marks name = some mark →
        (mark ∈ Mark.common ∨
          ∃ catalogue entries, Mark.readAll catalogue = .ok entries ∧ mark ∈ entries) →
        ∃ light, CommandLine.resolve marks settings name = .ok light := by
  refine ⟨?_, fun settings hsettings marks name mark hfind hmark => ?_⟩
  · rw [readWith_of_inHour ha, readWith_of_inHour hb]
    cases hr : Reading.ofNormal (normalize text.toList) with
    | error fault => exact Or.inl ⟨fault, rfl, rfl⟩
    | ok r =>
      refine Or.inr ⟨_, _, rfl, rfl, rfl, fun hends => ?_, fun hends => ?_⟩
      · have hsome : r.period.isSome := (isSome_period_ofNormal_iff hr).2 hends
        obtain ⟨seconds, hseconds⟩ := Option.isSome_iff_exists.1 hsome
        simp [Reading.characteristic, hseconds]
      · have hnone : r.period = none := by
          rw [← Option.not_isSome_iff_eq_none, isSome_period_ofNormal_iff hr]
          exact hends
        simp [Reading.characteristic, hnone]
  · refine CommandLine.resolve_mark hsettings hfind ?_
    rcases hmark with hcommon | ⟨catalogue, entries, hload, hentry⟩
    · exact Mark.read_common mark hcommon
    · exact Mark.read_of_readAll hload mark hentry

/-- Without a period in the text the default is the period; a mark of a catalogue that was read is found
by its name. -/
theorem default_fills_period_pier :
    (∃ light other, readWith (Binary64.ofNat 10) "Fl R" = .ok light ∧
      readWith (Binary64.ofNat 4) "Fl R" = .ok other ∧
      light.period = Binary64.ofNat 10 ∧ other.period = Binary64.ofNat 4) ∧
    let pier : Mark := ⟨"Pier", "F R"⟩
    Mark.readAll "- name: Pier\n  notation: F R\n" = .ok [pier] ∧
      Mark.find? (Mark.common ++ [pier]) " pier" = some pier ∧
      ∃ light, CommandLine.resolve (Mark.common ++ [pier]) Settings.default " pier" = .ok light := by
  have hten : InHour (Binary64.ofNat 10) := inHour_ofNat (by decide) (by decide)
  have hfour : InHour (Binary64.ofNat 4) := inHour_ofNat (by decide) (by decide)
  have hrun : (readWith (Binary64.ofNat 10) "Fl R").isOk = true ∧
      Mark.readAll "- name: Pier\n  notation: F R\n" = .ok [⟨"Pier", "F R"⟩] ∧
      Mark.find? (Mark.common ++ [⟨"Pier", "F R"⟩]) " pier" = some ⟨"Pier", "F R"⟩ := by
    decide +kernel
  obtain ⟨hok, hload, hfind⟩ := hrun
  obtain ⟨hread, hmarks⟩ := default_fills_period "Fl R" hten hfour
  have hpier := hmarks _ Settings.fault?_default _ _ _ hfind
    (Or.inr ⟨_, _, hload, List.mem_singleton_self _⟩)
  refine ⟨?_, hload, hfind, hpier⟩
  rcases hread with ⟨fault, hfault, -⟩ | ⟨light, other, hlight, hother, -, -, hmissing⟩
  · rw [hfault] at hok
    cases hok
  · have hends : ¬EndsInSeconds (normalize "Fl R".toList) :=
      fun hends => absurd hends.getLast? (by decide +kernel)
    exact ⟨light, other, hlight, hother, hmissing hends⟩

end Characteristic

end ChartLight

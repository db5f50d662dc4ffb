import ChartLight.Proofs.Register.Effect
import ChartLight.Proofs.Rounds

/-! What stands at each place, told from the commands alone: the cycle that was begun there last,
unless a later command ended it. A register reflects the commands that led to it: what stands by the
commands is at its place, and nothing else is going on. Every step keeps it so, and every run. -/

namespace ChartLight

open Number

section History

/-- Where playbacks were begun, with which cycles, in the order of their numbers. -/
def begun (commands : List Command) : List (Place × Cycle) := commands.filterMap Command.begun?

/-- The playback of a number was begun at a place, and no later command began another there or ended
what is played there. -/
def Stands (commands : List Command) (place : Place) (k : Nat) (cycle : Cycle) : Prop :=
  ∃ before command after, commands = before ++ command :: after ∧
    command.begun? = some (place, cycle) ∧ k = (begun before).length ∧
    ∀ later ∈ after, later.ends place = false

variable {commands : List Command} {command : Command} {place : Place} {k : Nat} {cycle : Cycle}

theorem begun_append (before after : List Command) :
    begun (before ++ after) = begun before ++ begun after := List.filterMap_append

theorem begun_singleton (command : Command) : begun [command] = command.begun?.toList := by
  rw [begun, List.filterMap_cons]
  cases command.begun? <;> rfl

theorem not_stands_nil : ¬Stands [] place k cycle := by
  rintro ⟨before, command, after, hnil, -⟩
  simp at hnil

/-- One command later, what stands was begun just now, or it stood before and was not ended. -/
theorem stands_concat_iff :
    Stands (commands ++ [command]) place k cycle ↔
      command.begun? = some (place, cycle) ∧ k = (begun commands).length ∨
        command.ends place = false ∧ Stands commands place k cycle := by
  constructor
  · rintro ⟨before, first, after, hsplit, hbegun, hk, hkept⟩
    rcases List.eq_nil_or_concat' after with rfl | ⟨rest, last, rfl⟩
    · obtain ⟨rfl, hlast⟩ := List.append_inj' hsplit rfl
      cases hlast
      exact Or.inl ⟨hbegun, hk⟩
    · rw [← List.cons_append, ← List.append_assoc] at hsplit
      obtain ⟨rfl, hlast⟩ := List.append_inj' hsplit rfl
      cases hlast
      obtain ⟨hrest, hlast⟩ := List.forall_mem_append.mp hkept
      exact Or.inr ⟨hlast _ List.mem_cons_self, before, first, rest, rfl, hbegun, hk, hrest⟩
  · rintro (⟨hbegun, hk⟩ | ⟨hends, before, first, after, rfl, hbegun, hk, hkept⟩)
    · exact ⟨commands, command, [], rfl, hbegun, hk, fun _ hmem => absurd hmem List.not_mem_nil⟩
    · refine ⟨before, first, after ++ [command], by simp, hbegun, hk, fun later hmem => ?_⟩
      rcases List.mem_append.mp hmem with hafter | hnow
      · exact hkept later hafter
      · rwa [List.mem_singleton.mp hnow]

theorem Stands.getElem?_begun (h : Stands commands place k cycle) :
    (begun commands)[k]? = some (place, cycle) := by
  obtain ⟨before, command, after, rfl, hbegun, rfl, -⟩ := h
  rw [begun_append, List.getElem?_append_right (Nat.le_refl _), Nat.sub_self, begun,
    List.filterMap_cons, hbegun]
  rfl

theorem Stands.lt_length (h : Stands commands place k cycle) : k < (begun commands).length :=
  (List.getElem?_eq_some_iff.mp h.getElem?_begun).1

/-- Only one playback stands at a place. -/
theorem Stands.unique (h : Stands commands place k cycle) {j : Nat} {other : Cycle}
    (h' : Stands commands place j other) : k = j := by
  induction commands using List.reverseRecOn with
  | nil => exact absurd h not_stands_nil
  | append_singleton commands command ih =>
    rcases stands_concat_iff.mp h with ⟨hbegun, rfl⟩ | ⟨hends, hold⟩
    · rcases stands_concat_iff.mp h' with ⟨-, rfl⟩ | ⟨hends, -⟩
      · rfl
      · rw [Command.ends_of_begun? hbegun] at hends
        cases hends
    · rcases stands_concat_iff.mp h' with ⟨hbegun, -⟩ | ⟨-, hold'⟩
      · rw [Command.ends_of_begun? hbegun] at hends
        cases hends
      · exact ih hold hold'

/-- What still stands after more commands stood before them, unless it was begun by one of them. -/
theorem Stands.of_append {later : List Command} (h : Stands (commands ++ later) place k cycle)
    (hk : k < (begun commands).length) : Stands commands place k cycle := by
  induction later using List.reverseRecOn with
  | nil => rwa [List.append_nil] at h
  | append_singleton later command ih =>
    rw [← List.append_assoc] at h
    rcases stands_concat_iff.mp h with ⟨-, rfl⟩ | ⟨-, hold⟩
    · rw [begun_append, List.length_append] at hk
      omega
    · exact ih hold

end History

namespace Register

/-- A register is what some commands lead to: it has numbered what they began, at the places stands
what they left standing, and that alone is going on. A holder may keep what was stopped, a target
does not. -/
structure Reflects (commands : List Command) (r : Register) : Prop where
  consistent : r.Consistent
  length : r.playbacks.length = (begun commands).length
  mem_places {place : Place} {k : Nat} {cycle : Cycle} :
    Stands commands place k cycle → (place, k) ∈ r.places
  stands_target {name : String} {k : Nat} :
    (Place.target name, k) ∈ r.places → ∃ cycle, Stands commands (.target name) k cycle
  going {k : Nat} {p : Playback} : r.playbacks[k]? = some p →
    (p.cancelled = false ↔ ∃ place cycle, Stands commands place k cycle ∧ cycle.segments ≠ [])

theorem ofScale_reflects (scale : Binary64) : Reflects [] (ofScale scale) where
  consistent := ofScale_consistent scale
  length := rfl
  mem_places h := absurd h not_stands_nil
  stands_target h := absurd h List.not_mem_nil
  going h := by cases h

section Step

variable {r : Register} {commands : List Command} {command : Command} {k : Nat}

/-- A number that was given before a command stands after it just if the command did not end it. -/
theorem Reflects.going_concat (h : Reflects commands r) (hk : k < r.playbacks.length) :
    (∃ place cycle, Stands (commands ++ [command]) place k cycle ∧ cycle.segments ≠ []) ↔
      k ∉ r.ended command ∧ ∃ place cycle, Stands commands place k cycle ∧ cycle.segments ≠ [] := by
  have hended {place : Place} {cycle : Cycle} (hstands : Stands commands place k cycle) :
      k ∈ r.ended command ↔ command.ends place = true := by
    refine ⟨fun hmem => ?_, fun hends => mem_numbers.mpr ⟨place, h.mem_places hstands, hends⟩⟩
    by_contra hnot
    exact h.consistent.not_mem_numbers (h.mem_places hstands) hnot hmem
  constructor
  · rintro ⟨place, cycle, hstands, hne⟩
    rcases stands_concat_iff.mp hstands with ⟨-, hnew⟩ | ⟨hends, hold⟩
    · rw [h.length] at hk
      omega
    · refine ⟨fun hmem => ?_, place, cycle, hold, hne⟩
      rw [(hended hold).mp hmem] at hends
      cases hends
  · rintro ⟨hnot, place, cycle, hold, hne⟩
    have hends : command.ends place = false := by
      rw [← Bool.not_eq_true, ← hended hold]
      exact hnot
    exact ⟨place, cycle, stands_concat_iff.mpr (Or.inr ⟨hends, hold⟩), hne⟩

/-- Taking away what a command ends leaves going what still stands. -/
theorem Reflects.going_clear (h : Reflects commands r) {q : Playback}
    (hq : (r.clear command.ends).playbacks[k]? = some q) :
    q.cancelled = false ↔
      ∃ place cycle, Stands (commands ++ [command]) place k cycle ∧ cycle.segments ≠ [] := by
  have hk := (List.getElem?_eq_some_iff.mp hq).1
  rw [length_clear] at hk
  rw [clear_playbacks_getElem?, List.getElem?_eq_getElem hk, Option.map_some, Option.some.injEq] at hq
  rw [h.going_concat hk, ← h.going (List.getElem?_eq_getElem hk), ← hq, ended]
  split_ifs with hmem
  · simp [hmem, Playback.cancel]
  · simp [hmem]

theorem Reflects.begin (h : Reflects commands r) {place : Place} {cycle : Cycle} {p : Playback}
    (hbegun : command.begun? = some (place, cycle)) (hends : command.ends = (· == place))
    (hp : p.cancelled = false ↔ cycle.segments ≠ []) :
    Reflects (commands ++ [command]) (r.begin place p) where
  consistent := h.consistent.begin place p
  length := by
    rw [begun_append, begun_singleton, hbegun]
    simp [Register.begin, stand, enter, clear, h.length]
  mem_places {other k cycle'} hstands := by
    rcases stands_concat_iff.mp hstands with ⟨hnow, hk⟩ | ⟨hkept, hold⟩
    · rw [hbegun] at hnow
      cases hnow
      rw [hk, ← h.length]
      exact List.mem_cons_self
    · rw [hends] at hkept
      exact List.mem_cons_of_mem _ (List.mem_filter.mpr ⟨h.mem_places hold, by simpa using hkept⟩)
  stands_target {name k} hmem := by
    rcases List.mem_cons.mp hmem with hnow | hold
    · cases hnow
      exact ⟨cycle, stands_concat_iff.mpr (Or.inl ⟨hbegun, h.length⟩)⟩
    · obtain ⟨hold, hkept⟩ := List.mem_filter.mp hold
      obtain ⟨cycle', hstands⟩ := h.stands_target hold
      refine ⟨cycle', stands_concat_iff.mpr (Or.inr ⟨?_, hstands⟩)⟩
      rw [hends]
      simpa using hkept
  going {k q} hq := by
    by_cases hk : k < r.playbacks.length
    · rw [begin_playbacks_getElem? hk, ← hends] at hq
      exact h.going_clear hq
    · -- what was begun now has the next number
      have hlength : (r.clear (· == place)).playbacks.length = r.playbacks.length := length_clear
      have hlast : k = r.playbacks.length := by
        have hlt := (List.getElem?_eq_some_iff.mp hq).1
        simp only [Register.begin, stand, enter, List.length_append, List.length_singleton,
          hlength] at hlt
        omega
      have hqp : q = p := by
        simp only [Register.begin, stand, enter] at hq
        rw [hlast, ← hlength, List.getElem?_concat_length] at hq
        exact (Option.some.inj hq).symm
      rw [hqp, hp, hlast, h.length]
      constructor
      · intro hne
        exact ⟨place, cycle, stands_concat_iff.mpr (Or.inl ⟨hbegun, rfl⟩), hne⟩
      · rintro ⟨other, cycle', hstands, hne⟩
        rcases stands_concat_iff.mp hstands with ⟨hnow, -⟩ | ⟨-, hold⟩
        · rw [hbegun] at hnow
          cases hnow
          exact hne
        · exact absurd hold.lt_length (Nat.lt_irrefl _)

/-- Where a command begins nothing, what stands after it stood before and was not ended. -/
theorem stands_concat_of_begun?_eq_none (hbegun : command.begun? = none) {place : Place}
    {cycle : Cycle} : Stands (commands ++ [command]) place k cycle ↔
      command.ends place = false ∧ Stands commands place k cycle := by
  rw [stands_concat_iff, hbegun]
  simp

theorem begun_concat_length (hbegun : command.begun? = none) :
    (begun (commands ++ [command])).length = (begun commands).length := by
  rw [begun_append, begun_singleton, hbegun]
  simp

theorem Reflects.clear (h : Reflects commands r) (hbegun : command.begun? = none) :
    Reflects (commands ++ [command]) (r.clear command.ends) where
  consistent := h.consistent.clear _
  length := by rw [length_clear, begun_concat_length hbegun, h.length]
  mem_places hstands := by
    obtain ⟨hends, hold⟩ := (stands_concat_of_begun?_eq_none hbegun).mp hstands
    exact List.mem_filter.mpr ⟨h.mem_places hold, by simp [hends]⟩
  stands_target hmem := by
    obtain ⟨hold, hends⟩ := List.mem_filter.mp hmem
    obtain ⟨cycle, hstands⟩ := h.stands_target hold
    exact ⟨cycle, (stands_concat_of_begun?_eq_none hbegun).mpr ⟨by simpa using hends, hstands⟩⟩
  going hq := h.going_clear hq

/-- A holder keeps what it has stopped, but that stands no longer. -/
theorem Reflects.keep (h : Reflects commands r) {holder : String} {j : Nat}
    (hbegun : command.begun? = none) (hends : command.ends = (· == .holder holder))
    (hj : r.places.lookup (.holder holder) = some j) :
    Reflects (commands ++ [command]) (r.keep (.holder holder) j) := by
  have hclear := h.clear hbegun
  rw [hends] at hclear
  refine ⟨h.consistent.keep hj, hclear.length, fun hstands => ?_, fun hmem => ?_, hclear.going⟩
  · exact List.mem_cons_of_mem _ (hclear.mem_places hstands)
  · rcases List.mem_cons.mp hmem with hnow | hold
    · cases hnow
    · exact hclear.stands_target hold

/-- A command that neither begins nor ends anything leaves standing what stood, also where it lets
playbacks go on. -/
theorem Reflects.undisturbed (h : Reflects commands r) {r' : Register}
    (hbegun : command.begun? = none)
    (hends : ∀ place k, (place, k) ∈ r.places → command.ends place = false)
    (hconsistent : r'.Consistent) (hplaces : r'.places = r.places)
    (hmarks : r'.playbacks.map Playback.cancelled = r.playbacks.map Playback.cancelled) :
    Reflects (commands ++ [command]) r' := by
  have hsame {place : Place} {k : Nat} {cycle : Cycle} :
      Stands (commands ++ [command]) place k cycle ↔ Stands commands place k cycle := by
    rw [stands_concat_of_begun?_eq_none hbegun]
    exact ⟨fun hstands => hstands.2, fun hold => ⟨hends _ _ (h.mem_places hold), hold⟩⟩
  refine ⟨hconsistent, ?_, fun hstands => ?_, fun hmem => ?_, ?_⟩
  · have hlength := congrArg List.length hmarks
    rw [List.length_map, List.length_map] at hlength
    rw [hlength, begun_concat_length hbegun, h.length]
  · rw [hplaces]
    exact h.mem_places (hsame.mp hstands)
  · rw [hplaces] at hmem
    simpa only [hsame] using h.stands_target hmem
  · intro k q hq
    have hmark := congrArg (·[k]?) hmarks
    simp only [List.getElem?_map, hq, Option.map_some] at hmark
    obtain ⟨p, hp, hpq⟩ := Option.map_eq_some_iff.mp hmark.symm
    simpa only [hsame, hpq] using h.going hp

theorem Reflects.step (h : Reflects commands r) {step : Step} (hstep : r.step? command = some step) :
    Reflects (commands ++ [command]) step.register := by
  cases effect_of_step? hstep with
  | begin hbegun hends hstart => exact h.begin hbegun hends (Playback.start?_cancelled hstart)
  | clear outcome hbegun => exact h.clear hbegun
  | keep outcome hbegun hends hk => exact h.keep hbegun hends hk
  | advance nowMs hbegun hends =>
    refine h.undisturbed hbegun (fun place _ _ => hends place) (h.consistent.advance nowMs) rfl ?_
    simp [Register.advance, Function.comp_def, Playback.advance_cancelled]
  | rest outcome hbegun hends => exact h.undisturbed hbegun hends h.consistent rfl rfl

end Step

section Run

variable {r : Register} {commands : List Command} {command : Command} {k : Nat}

/-- Whoever makes a call in a step stands after it. -/
theorem Reflects.stands_of_calls (h : Reflects commands r) {step : Step}
    (hstep : r.step? command = some step) (hcalls : step.calls k ≠ []) :
    ∃ place cycle, Stands (commands ++ [command]) place k cycle := by
  cases effect_of_step? hstep with
  | @begin place cycle scale p calls hbegun hends hstart =>
    have hk : k = r.playbacks.length := by
      by_contra hne
      exact hcalls (if_neg hne)
    exact ⟨place, cycle, stands_concat_iff.mpr (Or.inl ⟨hbegun, hk.trans h.length⟩)⟩
  | clear outcome hbegun | keep outcome hbegun hends hk | rest outcome hbegun hends =>
    exact absurd rfl hcalls
  | advance nowMs hbegun hends =>
    obtain ⟨p, hp, hdue⟩ : ∃ p, r.playbacks[k]? = some p ∧ (p.advance nowMs).1 ≠ [] := by
      simp only [due] at hcalls
      cases hp : r.playbacks[k]? with
      | none =>
        rw [hp] at hcalls
        exact absurd rfl hcalls
      | some p =>
        rw [hp] at hcalls
        exact ⟨p, rfl, hcalls⟩
    have hgoing : p.cancelled = false := by
      by_contra hmark
      rw [Bool.not_eq_false] at hmark
      exact hdue (by rw [Playback.advance_of_cancelled hmark])
    obtain ⟨place, cycle, hstands, -⟩ := (h.going hp).mp hgoing
    exact ⟨place, cycle, stands_concat_iff.mpr (Or.inr ⟨hends place, hstands⟩)⟩

/-- In a run, each register reflects the commands so far. -/
theorem Reflects.run (h : Reflects commands r) {later : List Command} {log : List Step}
    (hrun : r.run? later = some log) {i : Nat} {step : Step} (hi : log[i]? = some step) :
    Reflects (commands ++ later.take (i + 1)) step.register ∧
      ∀ k, step.calls k ≠ [] →
        ∃ place cycle, Stands (commands ++ later.take (i + 1)) place k cycle := by
  induction later generalizing commands r log i with
  | nil =>
    cases hrun
    cases hi
  | cons command later ih =>
    obtain ⟨first, rest, hfirst, hrest, rfl⟩ := Steps.run?_cons_eq_some_iff.mp hrun
    cases i with
    | zero =>
      cases hi
      exact ⟨h.step hfirst, fun k hcalls => h.stands_of_calls hfirst hcalls⟩
    | succ i =>
      have hnext := ih (h.step hfirst) hrest (i := i) hi
      rwa [List.append_assoc] at hnext

theorem Reflects.after (h : Reflects commands r) {later : List Command} {log : List Step}
    (hrun : r.run? later = some log) : Reflects (commands ++ later) (r.after log) := by
  induction later generalizing commands r log with
  | nil =>
    cases hrun
    rwa [List.append_nil]
  | cons command later ih =>
    obtain ⟨first, rest, hfirst, hrest, rfl⟩ := Steps.run?_cons_eq_some_iff.mp hrun
    have hlast := ih (h.step hfirst) hrest
    rw [← List.append_cons] at hlast
    rw [Register.after, Steps.after_cons]
    exact hlast

/-- However the commands go on, of the playbacks begun so far none makes a call but those that stand. -/
theorem Reflects.calls_eq_nil (h : Reflects commands r) {later : List Command} {log : List Step}
    (hrun : r.run? later = some log) (hk : k < (begun commands).length)
    (hnot : ∀ place cycle, ¬Stands commands place k cycle) : ∀ step ∈ log, step.calls k = [] := by
  intro step hstep
  obtain ⟨i, hi⟩ := List.mem_iff_getElem?.mp hstep
  by_contra hcalls
  obtain ⟨place, cycle, hstands⟩ := (h.run hrun hi).2 k hcalls
  exact hnot place cycle (hstands.of_append hk)

end Run

end Register

end ChartLight

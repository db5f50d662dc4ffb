/-! Commands that are obeyed one after another. A step is what a command leads to from some state, and
it holds the state after it; a command that is not possible has none. -/

namespace ChartLight.Steps

variable {State Command Step : Type} (step? : State → Command → Option Step) (next : Step → State)

/-- The steps of a list of commands, which must all be possible. -/
def run? (s : State) : List Command → Option (List Step)
  | [] => some []
  | command :: rest => do
    let step ← step? s command
    return step :: (← run? (next step) rest)

/-- The state after some steps. -/
def after (s : State) (log : List Step) : State := (log.getLast?.map next).getD s

section Run

variable {step? : State → Command → Option Step} {next : Step → State} {s : State}
  {commands : List Command} {log : List Step}

theorem run?_cons_eq_some_iff {command : Command} :
    run? step? next s (command :: commands) = some log ↔
      ∃ step rest, step? s command = some step ∧
        run? step? next (next step) commands = some rest ∧ log = step :: rest := by
  simp only [run?, Option.bind_eq_bind, Option.bind_eq_some_iff, Option.pure_def, Option.some.injEq]
  constructor
  · rintro ⟨step, hstep, rest, hrest, rfl⟩
    exact ⟨step, rest, hstep, hrest, rfl⟩
  · rintro ⟨step, rest, hstep, hrest, rfl⟩
    exact ⟨step, hstep, rest, hrest, rfl⟩

theorem after_cons (step : Step) : after next s (step :: log) = after next (next step) log := by
  cases log <;> simp [after, List.getLast?_cons]

theorem run?_append_eq_some_iff {later : List Command} :
    run? step? next s (commands ++ later) = some log ↔
      ∃ early late, run? step? next s commands = some early ∧
        run? step? next (after next s early) later = some late ∧ log = early ++ late := by
  induction commands generalizing s log with
  | nil => simp [run?, after]
  | cons command commands ih =>
    simp only [List.cons_append, run?_cons_eq_some_iff, ih]
    constructor
    · rintro ⟨step, rest, hstep, ⟨early, late, hearly, hlate, rfl⟩, rfl⟩
      exact ⟨step :: early, late, ⟨step, early, hstep, hearly, rfl⟩, by rwa [after_cons], rfl⟩
    · rintro ⟨early, late, ⟨step, rest, hstep, hrest, rfl⟩, hlate, rfl⟩
      rw [after_cons] at hlate
      exact ⟨step, rest ++ late, hstep, ⟨rest, late, hrest, hlate, rfl⟩, rfl⟩

theorem length_of_run? (h : run? step? next s commands = some log) :
    log.length = commands.length := by
  induction commands generalizing s log with
  | nil =>
    cases h
    rfl
  | cons command commands ih =>
    obtain ⟨step, rest, -, hrest, rfl⟩ := run?_cons_eq_some_iff.mp h
    rw [List.length_cons, List.length_cons, ih hrest]

/-- What the step of every command keeps holds after each step of a run. -/
theorem kept_of_mem {I : State → Prop}
    (hstep : ∀ {s command step}, command ∈ commands → I s → step? s command = some step →
      I (next step))
    (h : I s) (hrun : run? step? next s commands = some log) : ∀ step ∈ log, I (next step) := by
  induction commands generalizing s log with
  | nil =>
    cases hrun
    simp
  | cons command commands ih =>
    obtain ⟨step, rest, hfirst, hrest, rfl⟩ := run?_cons_eq_some_iff.mp hrun
    have hnext := hstep List.mem_cons_self h hfirst
    have hkept := ih (fun hmem => hstep (List.mem_cons_of_mem command hmem)) hnext hrest
    exact List.forall_mem_cons.mpr ⟨hnext, hkept⟩

theorem kept_after {I : State → Prop}
    (hstep : ∀ {s command step}, command ∈ commands → I s → step? s command = some step →
      I (next step))
    (h : I s) (hrun : run? step? next s commands = some log) : I (after next s log) := by
  rw [after]
  cases hlast : log.getLast? with
  | none => exact h
  | some step => exact kept_of_mem (I := I) hstep h hrun step (List.mem_of_getLast? hlast)

end Run

end ChartLight.Steps

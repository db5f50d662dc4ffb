import ChartLight.Proofs.Showing
import ChartLight.Proofs.Slicing

/-! A request for a text that cannot be read is refused and leaves no trace. Such requests may stand
anywhere among the commands of a run: each is answered by the fault of its text, and the other commands
make the steps that they make by themselves, with the same answers, the same calls and the same session
after each. -/

namespace ChartLight

open Number

/-- A request to play a text that cannot be read. -/
structure Refusal where
  target : String
  text : String
  fault : Fault
  unread : Characteristic.read text = .error fault

namespace Refusal

def command (refusal : Refusal) : Command := .simulate refusal.target refusal.text

/-- Commands with refused requests among them, as they are given. -/
def among (script : List (Command ⊕ Refusal)) : List Command :=
  script.map (Sum.elim id command)

/-- The same commands without the requests. -/
def without (script : List (Command ⊕ Refusal)) : List Command := script.filterMap Sum.getLeft?

end Refusal

namespace Session

/-- The answer to a refused request. -/
def refuse (s : Session) (refusal : Refusal) : Step := ⟨.refused refusal.fault, [], s⟩

theorem step?_refusal (s : Session) (refusal : Refusal) :
    s.step? refusal.command = some (s.refuse refusal) := by
  unfold step? Refusal.command
  dsimp only
  rw [refusal.unread]
  rfl

/-- A run with refused requests and the run without them, step by step: a command makes the same step in
both, and a refused request one that only the first run has. -/
inductive Alongside : Session → List (Command ⊕ Refusal) → List Step → List Step → Prop
  | nil {s : Session} : Alongside s [] [] []
  | obeyed {s : Session} {command : Command} {step : Step} {script : List (Command ⊕ Refusal)}
      {log bare : List Step} (hstep : s.step? command = some step)
      (hrest : Alongside step.session script log bare) :
    Alongside s (.inl command :: script) (step :: log) (step :: bare)
  | refused {s : Session} {script : List (Command ⊕ Refusal)} {log bare : List Step}
      (refusal : Refusal) (hrest : Alongside s script log bare) :
    Alongside s (.inr refusal :: script) (s.refuse refusal :: log) bare

section Runs

variable {s : Session} {script : List (Command ⊕ Refusal)} {log bare : List Step}

/-- Whatever is run with refused requests can be run without them. -/
theorem exists_alongside (h : s.run? (Refusal.among script) = some log) :
    ∃ bare, Alongside s script log bare := by
  induction script generalizing s log with
  | nil =>
    cases h
    exact ⟨[], .nil⟩
  | cons entry script ih =>
    obtain ⟨step, rest, hstep, hrest, rfl⟩ := Steps.run?_cons_eq_some_iff.mp h
    obtain ⟨bare, hbare⟩ := ih hrest
    cases entry with
    | inl command => exact ⟨step :: bare, .obeyed hstep hbare⟩
    | inr refusal =>
      obtain rfl : s.refuse refusal = step :=
        Option.some.inj ((s.step?_refusal refusal).symm.trans hstep)
      exact ⟨bare, .refused refusal hbare⟩

/-- And whatever is run without them can be run with them. -/
theorem exists_alongside_of_without (h : s.run? (Refusal.without script) = some bare) :
    ∃ log, Alongside s script log bare := by
  induction script generalizing s bare with
  | nil =>
    cases h
    exact ⟨[], .nil⟩
  | cons entry script ih =>
    cases entry with
    | inl command =>
      obtain ⟨step, rest, hstep, hrest, rfl⟩ := Steps.run?_cons_eq_some_iff.mp h
      obtain ⟨log, hlog⟩ := ih hrest
      exact ⟨step :: log, .obeyed hstep hlog⟩
    | inr refusal =>
      obtain ⟨log, hlog⟩ := ih h
      exact ⟨s.refuse refusal :: log, .refused refusal hlog⟩

namespace Alongside

theorem run_among (h : Alongside s script log bare) : s.run? (Refusal.among script) = some log := by
  induction h with
  | nil => rfl
  | obeyed hstep hrest ih => exact Steps.run?_cons_eq_some_iff.mpr ⟨_, _, hstep, ih, rfl⟩
  | refused refusal hrest ih =>
    exact Steps.run?_cons_eq_some_iff.mpr ⟨_, _, step?_refusal _ refusal, ih, rfl⟩

theorem run_without (h : Alongside s script log bare) :
    s.run? (Refusal.without script) = some bare := by
  induction h with
  | nil => rfl
  | obeyed hstep hrest ih => exact Steps.run?_cons_eq_some_iff.mpr ⟨_, _, hstep, ih, rfl⟩
  | refused refusal hrest ih => exact ih

/-- The steps of the commands are all that the run without the requests has. -/
theorem obeyed_eq (h : Alongside s script log bare) :
    ((script.zip log).filter (·.1.isLeft)).map Prod.snd = bare := by
  induction h with
  | nil => rfl
  | obeyed hstep hrest ih => rw [List.zip_cons_cons, List.filter_cons_of_pos rfl, List.map_cons, ih]
  | refused refusal hrest ih => rw [List.zip_cons_cons, List.filter_cons_of_neg (by simp), ih]

/-- Where a refused request stands, the session before it is the session after it. -/
theorem answer (h : Alongside s script log bare) {i : Nat} {refusal : Refusal}
    (hi : script[i]? = some (.inr refusal)) :
    log[i]? = some ((s.after (log.take i)).refuse refusal) := by
  induction h generalizing i with
  | nil => simp at hi
  | @obeyed s command step script log bare hstep hrest ih =>
    cases i with
    | zero => simp at hi
    | succ i =>
      rw [List.getElem?_cons_succ] at hi
      rw [List.getElem?_cons_succ, List.take_succ_cons, ih hi, after, after, Steps.after_cons]
  | @refused s script log bare first hrest ih =>
    cases i with
    | zero =>
      obtain rfl : first = refusal := by simpa using hi
      rfl
    | succ i =>
      rw [List.getElem?_cons_succ] at hi
      rw [List.getElem?_cons_succ, List.take_succ_cons, ih hi, after, after, Steps.after_cons]
      rfl

theorem calls_eq (h : Alongside s script log bare) :
    log.flatMap Step.calls = bare.flatMap Step.calls := by
  induction h with
  | nil => rfl
  | obeyed hstep hrest ih => rw [List.flatMap_cons, List.flatMap_cons, ih]
  | refused refusal hrest ih => rw [List.flatMap_cons, ih]; rfl

theorem after_eq (h : Alongside s script log bare) : s.after log = s.after bare := by
  induction h with
  | nil => rfl
  | obeyed hstep hrest ih =>
    rw [after, after, Steps.after_cons, Steps.after_cons]
    exact ih
  | refused refusal hrest ih =>
    rw [after, Steps.after_cons]
    exact ih

end Alongside

end Runs

/-- Requests for texts that cannot be read leave no trace, wherever they stand in a run and in whichever
session it begins. The run can be made with them just if it can be made without them. Each is answered
by the fault of its text, makes no call and leaves the session as it was; all other steps are those of
the run without them, one by one, and so are the calls and the session in the end. -/
theorem refusals_leave_no_trace (s : Session) (script : List (Command ⊕ Refusal)) :
    (s.run? (Refusal.among script)).isSome = (s.run? (Refusal.without script)).isSome ∧
    ∀ log bare, s.run? (Refusal.among script) = some log →
      s.run? (Refusal.without script) = some bare →
      (∀ (i : Nat) (refusal : Refusal), script[i]? = some (.inr refusal) →
        log[i]? = some ⟨.refused refusal.fault, [], s.after (log.take i)⟩) ∧
      ((script.zip log).filter (·.1.isLeft)).map Prod.snd = bare ∧
      log.flatMap Step.calls = bare.flatMap Step.calls ∧ s.after log = s.after bare := by
  constructor
  · rw [Bool.eq_iff_iff, Option.isSome_iff_exists, Option.isSome_iff_exists]
    constructor
    · rintro ⟨log, hlog⟩
      obtain ⟨bare, hbare⟩ := exists_alongside hlog
      exact ⟨bare, hbare.run_without⟩
    · rintro ⟨bare, hbare⟩
      obtain ⟨log, hlog⟩ := exists_alongside_of_without hbare
      exact ⟨log, hlog.run_among⟩
  · intro log bare hlog hbare
    obtain ⟨bare', halong⟩ := exists_alongside hlog
    obtain rfl : bare' = bare := Option.some.inj (halong.run_without.symm.trans hbare)
    exact ⟨fun i refusal hi => halong.answer hi, halong.obeyed_eq, halong.calls_eq, halong.after_eq⟩

/-- A target that plays is asked for an unknown rhythm, and another for a group that is not closed; the
clock goes on as if nobody had asked. -/
theorem refusals_leave_no_trace_north :
    let s := ofScale (Binary64.ofNat 1)
    let blink := Cycle.mk 3 [⟨1, true, .red⟩, ⟨2, false, .red⟩]
    ∃ (unknown unclosed : Refusal) (log bare : List Step),
      unknown.command = .simulate "north" "Zx 5s" ∧ unknown.fault = .unrecognizedRhythm ∧
      unclosed.command = .simulate "south" "Fl(2 R 5s" ∧
      s.run? [.play "north" blink, unknown.command, unclosed.command, .advance 4] = some log ∧
      s.run? [.play "north" blink, .advance 4] = some bare ∧
      log.flatMap Step.calls = bare.flatMap Step.calls ∧ s.after log = s.after bare ∧
      (bare.flatMap Step.calls).length = 4 := by
  intro s blink
  let unknown : Refusal := ⟨"north", "Zx 5s", .unrecognizedRhythm, by decide +kernel⟩
  let unclosed : Refusal := ⟨"south", "Fl(2 R 5s", .invalidGroup .unclosed, by decide +kernel⟩
  obtain ⟨hsame, hall⟩ := refusals_leave_no_trace s
    [.inl (.play "north" blink), .inr unknown, .inr unclosed, .inl (.advance 4)]
  have hcalls : (s.run? [.play "north" blink, .advance 4]).map
      (fun bare => (bare.flatMap Step.calls).length) = some 4 := by decide +kernel
  obtain ⟨bare, hbare, hlength⟩ := Option.map_eq_some_iff.mp hcalls
  have hsome := hsame.trans (Option.isSome_iff_exists.mpr ⟨bare, hbare⟩)
  obtain ⟨log, hlog⟩ := Option.isSome_iff_exists.mp hsome
  obtain ⟨-, -, hsteps, hlast⟩ := hall log bare hlog hbare
  exact ⟨unknown, unclosed, log, bare, rfl, rfl, rfl, hlog, hbare, hsteps, hlast, hlength⟩

end Session

end ChartLight

import BuildingCode.Display.Trace
import BuildingCode.Proofs.Formula.Authoring
import BuildingCode.Service.Wire

/-! The two ways to present a result. A document rounds the result first; a trace rounds each value as it
is written and asks the definition for the precision. They show the same values since a result carries the
precision of the definition that it was computed from. -/
namespace BuildingCode.Display
open Formula Service

/-- Lines side by side on a branch that the last of them closes. -/
def branch (lines : List String) : List String :=
  lines.mapIdx fun place line => (if place + 1 = lines.length then "\x60-- " else "|-- ") ++ line

@[simp] theorem branch_singleton (line : String) : branch [line] = ["\x60-- " ++ line] := rfl

@[simp] theorem branch_cons_cons (line next : String) (rest : List String) :
    branch (line :: next :: rest) = ("|-- " ++ line) :: branch (next :: rest) := by
  simp [branch, List.mapIdx_cons]

end BuildingCode.Display

namespace BuildingCode.Service
open Display Formula Outcome

def Step.text (s : Step) : String :=
  match s.unit with
  | some unit => s!"{s.label} = {Number.plainText s.value} {unit}"
  | none => s!"{s.label} = {Number.plainText s.value}"

/-- The result and, on a branch below it, the steps. Nothing is rounded. -/
def Result.lines (r : Result) : List String := r.result.text :: branch (r.steps.map Step.text)

theorem digits_of_evaluate {c : Compiled} {values : Values} {r : Result}
    (computed : evaluate c values = .ok r) : r.digits = c.definition.resultDigits := by
  obtain ⟨_, _, computed⟩ := bind_eq_ok.mp computed
  obtain ⟨_, _, computed⟩ := bind_eq_ok.mp computed
  cases computed
  rfl

end BuildingCode.Service

namespace BuildingCode.Display
open Formula Service

theorem stepLine_eq_text (digits : UInt32) (s : Step) : stepLine digits s = (s.rounded digits).text := by
  cases h : s.unit <;> simp only [stepLine, Step.text, Step.rounded, h]

theorem stepLines_eq_branch (digits : UInt32) (steps : List Step) :
    stepLines digits steps = branch (steps.map fun s => (s.rounded digits).text) := by
  induction steps with
  | nil => rfl
  | cons s rest ih =>
    cases rest with
    | nil => rw [stepLines, stepLine_eq_text, List.map_singleton, branch_singleton]
    | cons next rest =>
      rw [stepLines, ih, stepLine_eq_text]
      simp only [List.map_cons, branch_cons_cons]
      exact List.cons_ne_nil next rest

theorem length_headerLines (d : Definition) : (headerLines d).length = d.intermediates.length + 5 := by
  simp only [headerLines, List.length_append, List.length_map, List.length_cons, List.length_nil]
  omega

theorem traceLines_eq (d : Definition) {r : Result} (same : r.digits = d.resultDigits) (digits : UInt32) :
    traceLines d r digits = headerLines d ++ (r.rounded digits).lines := by
  have steps : (r.rounded digits).steps.map Step.text =
      r.steps.map fun s => (s.rounded digits).text := List.map_map
  rw [traceLines, stepLines_eq_branch, stepLine_eq_text, ← same, Result.lines, steps, List.append_assoc]
  rfl

/-- Of a computation that succeeds a document carries the rounded result, the result itself with the
precision that its formula declares, if any, and every step with the precision asked for. A trace with the
formula's definition has, behind its header, one line for each of these values in the same order, with
label and unit unchanged, and the last step alone closes the branch. -/
theorem trace_shows_response {c : Compiled} {values : Values} {r : Result}
    (computed : evaluate c values = .ok r) (digits : UInt32) :
    Response.ofOutcome digits (evaluate c values) = .success (r.rounded digits) ∧
    (r.rounded digits).result =
      ⟨r.result.label, roundFor (c.definition.resultDigits.getD digits) r.result.value, r.result.unit⟩ ∧
    (r.rounded digits).steps = r.steps.map (fun s => ⟨s.label, roundFor digits s.value, s.unit⟩) ∧
    (traceLines c.definition r digits).drop (c.definition.intermediates.length + 5) =
      (r.rounded digits).lines ∧
    trace c.definition r digits = String.join ((headerLines c.definition).map (· ++ "\n")) ++
      String.join ((r.rounded digits).lines.map (· ++ "\n")) := by
  have carried := digits_of_evaluate computed
  have lines := traceLines_eq c.definition carried digits
  refine ⟨by rw [computed, Response.ofOutcome], ?_, rfl, ?_, ?_⟩
  · rw [← carried]
    rfl
  · rw [lines, ← length_headerLines, List.drop_left]
  · rw [trace, lines, List.map_append, String.join_append]

theorem trace_shows_response_two : ∃ (d : Definition) (c : Compiled) (r : Result),
    d.resultDigits = some 2 ∧ compile {} d = .ok c ∧ evaluate c [("a", .number 1.0)] = .ok r ∧
      (traceLines c.definition r 3).drop 6 =
        ["R = 0.33 m", "|-- Length = 1 m", "\x60-- Sixth = 0.167"] := by
  let d : Definition :=
    { id := "third", title := "Third", displayExpression := "a / 3", resultLabel := "R"
      resultUnit := some "m", resultDigits := some 2
      params := [{ name := "a", label := "Length", unit := some "m" }]
      intermediates := [{ name := "b", label := "Sixth", expression := "a / 6" }]
      expression := "b * 2" }
  have shown : (match compile {} d with
    | .ok c => (evaluate c [("a", .number 1.0)]).toOption.map fun r => (r.rounded 3).lines
    | .error _ => none) = some ["R = 0.33 m", "|-- Length = 1 m", "\x60-- Sixth = 0.167"] := by
    decide +kernel
  cases compiled : compile {} d with
  | error fault =>
    rw [compiled] at shown
    cases shown
  | ok c =>
    rw [compiled] at shown
    obtain ⟨r, computed, lines⟩ := Option.map_eq_some_iff.mp shown
    have computed : evaluate c [("a", .number 1.0)] = .ok r := by
      cases outcome : evaluate c [("a", .number 1.0)] <;> simp_all [Except.toOption]
    obtain ⟨_, _, _, drawn, _⟩ := trace_shows_response computed 3
    rw [definition_of_compile compiled] at drawn
    refine ⟨d, c, r, rfl, compiled, computed, ?_⟩
    rw [definition_of_compile compiled]
    exact drawn.trans lines

end BuildingCode.Display

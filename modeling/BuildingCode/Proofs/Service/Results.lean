import BuildingCode.Proofs.Formula.Authoring
import BuildingCode.Proofs.Formula.Values
import BuildingCode.Service.Result

/-! A computation that succeeds shows a value for everything that its formula declares, in the order of
the declarations, and every value is finite. What the values entered cannot be used for is told before
anything is evaluated. -/
namespace BuildingCode.Service
open Formula Expression Outcome

/-- The step carries the label and unit of the parameter and a value that it allows. -/
structure ShowsParameter (p : Parameter) (s : Step) : Prop where
  label : s.label = p.label
  unit : s.unit = p.unit
  finite : s.value.isFinite
  least : ∀ low ∈ p.min, ¬s.value < low
  most : ∀ high ∈ p.max, ¬high < s.value

/-- The step carries the label and unit of the intermediate and a finite value. -/
structure ShowsIntermediate (i : Intermediate) (s : Step) : Prop where
  label : s.label = i.label
  unit : s.unit = i.unit
  finite : s.value.isFinite

/-- One step for each parameter, one for each intermediate behind them, and a finite result. -/
structure Result.Completes (d : Definition) (r : Result) : Prop where
  steps : ∃ params intermediates, r.steps = params ++ intermediates ∧
    List.Forall₂ ShowsParameter d.params params ∧
    List.Forall₂ ShowsIntermediate d.intermediates intermediates
  label : r.result.label = d.resultLabel
  unit : r.result.unit = d.resultUnit
  finite : r.result.value.isFinite

theorem showsParameter_parameterSteps {ps : List Parameter} {values : Values} {xs : List Float}
    (bound : List.Forall₂ (fun p x => p.Admits values x) ps xs) :
    List.Forall₂ ShowsParameter ps (parameterSteps ps xs) := by
  induction bound with
  | nil => exact .nil
  | cons first _ ih => exact .cons ⟨rfl, rfl, first.finite, first.least, first.most⟩ ih

theorem showsIntermediate_intermediateSteps {is : List Intermediate} {vs : List Float}
    (finite : List.Forall₂ (fun _ v => v.isFinite) is vs) :
    List.Forall₂ ShowsIntermediate is (intermediateSteps is vs) := by
  induction finite with
  | nil => exact .nil
  | cons first _ ih => exact .cons ⟨rfl, rfl, first⟩ ih

theorem finite_of_shown {α : Type} {Shows : α → Step → Prop} {xs : List α} {steps : List Step}
    (finite : ∀ x s, Shows x s → s.value.isFinite) (shown : List.Forall₂ Shows xs steps) :
    ∀ s ∈ steps, s.value.isFinite := by
  induction shown with
  | nil => exact List.forall_mem_nil _
  | cons first _ ih => exact List.forall_mem_cons.mpr ⟨finite _ _ first, ih⟩

theorem Result.Completes.finite_steps {d : Definition} {r : Result} (h : r.Completes d) :
    ∀ s ∈ r.steps, s.value.isFinite := by
  obtain ⟨params, intermediates, steps, shown, shown'⟩ := h.steps
  rw [steps, List.forall_mem_append]
  exact ⟨finite_of_shown (fun _ _ s => s.finite) shown, finite_of_shown (fun _ _ s => s.finite) shown'⟩

section
variable {limits : Limits} {d : Definition} {c : Compiled}

theorem completes_of_evaluate (compiled : compile limits d = .ok c) {values : Values} {r : Result}
    (h : evaluate c values = .ok r) : r.Completes d := by
  obtain rfl : c.definition = d := definition_of_compile compiled
  obtain ⟨xs, bound, h⟩ := bind_eq_ok.mp h
  obtain ⟨e, evaluated, h⟩ := bind_eq_ok.mp h
  have bound := bindAll_eq_ok_iff.mp (ok_of_mapError bound)
  obtain ⟨finite, params, intermediates⟩ :=
    finite_of_evaluate compiled bound.length_eq.symm (ok_of_mapError evaluated)
  cases h
  refine ⟨⟨_, _, rfl, ?_, showsIntermediate_intermediateSteps intermediates⟩, rfl, rfl, finite⟩
  rw [params]
  exact showsParameter_parameterSteps bound

theorem evaluate_refuses_iff (c : Compiled) (values : Values) :
    (∃ vs, evaluate c values = .error (.invalidParameters vs)) ↔
      ∃ p ∈ c.definition.params, ¬p.Usable values := by
  have refused : (∃ p ∈ c.definition.params, ¬p.Usable values) ↔
      ∀ xs, bindAll c.definition.params values ≠ .ok xs := by
    rw [← not_exists, exists_bindAll_iff]
    push Not
    rfl
  rw [refused]
  constructor
  · rintro ⟨vs, h⟩ xs bound
    rw [evaluate, bound] at h
    rcases bind_eq_error.mp h with h | ⟨_, _, h⟩
    · cases h
    · rcases bind_eq_error.mp h with failed | ⟨_, _, h⟩
      · obtain ⟨cause, told⟩ := told_of_mapError failed
        cases told
      · cases h
  · intro unbound
    cases outcome : bindAll c.definition.params values with
    | ok xs => exact absurd outcome (unbound xs)
    | error vs => exact ⟨vs, by rw [evaluate, outcome]; rfl⟩

/-- Whatever formula has compiled: when it is computed with success, the steps show all that it
declares, with finite values within the bounds, and the result is finite as well. Values that one of
the parameters cannot use are the answer themselves, and nothing is said of the expressions. -/
theorem evaluate_complete (compiled : compile limits d = .ok c) (values : Values) :
    (∀ r, evaluate c values = .ok r → r.Completes d) ∧
    ((∃ vs, evaluate c values = .error (.invalidParameters vs)) ↔
      ∃ p ∈ d.params, ¬p.Usable values) := by
  constructor
  · intro r computed
    exact completes_of_evaluate compiled computed
  · rw [evaluate_refuses_iff, definition_of_compile compiled]

theorem evaluate_complete_doubled : ∃ (d : Definition) (c : Compiled) (r : Result),
    d.params.map (·.min) = [some 0.5] ∧ d.intermediates.map (·.expression) = ["a + a"] ∧
      compile {} d = .ok c ∧ evaluate c [("a", .text " 1,5 ")] = .ok r ∧ r.Completes d ∧
      r.steps.map (·.value) = [1.5, 3.0] ∧
      ∃ vs, evaluate c [("a", .number 0.25)] = .error (.invalidParameters vs) := by
  let p : Parameter := { name := "a", label := "Length", min := some 0.5 }
  let d : Definition :=
    { id := "double", title := "Double", displayExpression := "", resultLabel := "Product"
      params := [p]
      intermediates := [{ name := "b", label := "Double", expression := "a + a" }]
      expression := "a * b" }
  have shown : (match compile {} d with
    | .ok c => (evaluate c [("a", .text " 1,5 ")]).toOption.map (·.steps.map (·.value))
    | .error _ => none) = some [1.5, 3.0] := by decide +kernel
  have tooLow : ¬p.Usable [("a", .number 0.25)] := by
    rintro ⟨x, entered, least, _⟩
    have number : (Values.get? [("a", .number 0.25)] "a").bind RawValue.number? = some 0.25 := by
      decide +kernel
    obtain rfl : 0.25 = x := Option.some.inj (number.symm.trans entered)
    exact least 0.5 rfl (by decide +kernel)
  cases compiled : compile {} d with
  | error fault =>
    rw [compiled] at shown
    cases shown
  | ok c =>
    rw [compiled] at shown
    obtain ⟨r, computed, values⟩ := Option.map_eq_some_iff.mp shown
    have computed : evaluate c [("a", .text " 1,5 ")] = .ok r := by
      cases outcome : evaluate c [("a", .text " 1,5 ")] <;> simp_all [Except.toOption]
    exact ⟨d, c, r, rfl, rfl, compiled, computed, (evaluate_complete compiled _).1 r computed, values,
      (evaluate_complete compiled _).2.mpr ⟨p, List.mem_singleton_self p, tooLow⟩⟩

end
end BuildingCode.Service

import BuildingCode.Proofs.Formula.Rearrangement
import BuildingCode.Service.Result

/-! The order of parameters is the order in which they are told of, and nothing else: a formula whose
parameters are declared in another order answers with the same result, or refuses the same values. -/
namespace BuildingCode.Service
open Formula Expression Outcome

def entryStep (values : Values) (p : Parameter) : Step := ⟨p.label, p.entry values, p.unit⟩

theorem parameterSteps_entries (ps : List Parameter) (values : Values) :
    parameterSteps ps (ps.map (·.entry values)) = ps.map (entryStep values) := by
  rw [parameterSteps, List.zipWith_map_right, List.zipWith_self]
  rfl

/-- Two answers that tell the same of each parameter, each in its own order, and agree in all else. -/
inductive SameButOrder (values : Values) (ps ps' : List Parameter) :
    Except ComputeFault Result → Except ComputeFault Result → Prop
  | computed (result : Step) (intermediates : List Step) (digits : Option UInt32) :
      SameButOrder values ps ps'
        (.ok ⟨result, ps.map (entryStep values) ++ intermediates, digits⟩)
        (.ok ⟨result, ps'.map (entryStep values) ++ intermediates, digits⟩)
  | failed (fault : EvaluationFault) :
      SameButOrder values ps ps' (.error (.evaluation fault)) (.error (.evaluation fault))
  | refused : SameButOrder values ps ps'
      (.error (.invalidParameters (ps.filterMap (·.refusal? values))))
      (.error (.invalidParameters (ps'.filterMap (·.refusal? values))))

section
variable {limits : Limits} {d : Definition} {ps : List Parameter} {c c' : Compiled}

theorem sameButOrder_evaluate (order : d.params.Perm ps) (compiled : compile limits d = .ok c)
    (compiled' : compile limits { d with params := ps } = .ok c') (values : Values) :
    SameButOrder values d.params ps (evaluate c values) (evaluate c' values) := by
  obtain ⟨other, same, evaluated⟩ := exists_compile_rearranged order compiled
  obtain rfl : c' = other := Except.ok.inj (compiled'.symm.trans same)
  obtain ⟨_, _, _, _, _, definition⟩ := parts_of_compile compiled
  obtain ⟨_, _, _, _, _, definition'⟩ := parts_of_compile compiled'
  have refusals := order.filterMap (·.refusal? values)
  rw [evaluate, evaluate, definition, definition']
  by_cases none : d.params.filterMap (·.refusal? values) = []
  · have none' : ps.filterMap (·.refusal? values) = [] := (none ▸ refusals).nil_eq.symm
    rw [bindAll_of_refusals_eq_nil none, bindAll_of_refusals_eq_nil none']
    show SameButOrder _ _ _ ((c.evaluate _).mapError .evaluation >>= _)
      ((c'.evaluate _).mapError .evaluation >>= _)
    rw [evaluated]
    cases ran : c.evaluate (d.params.map (·.entry values)) with
    | error fault => exact .failed fault
    | ok e =>
      obtain ⟨_, params, _⟩ := finite_of_evaluate compiled (List.length_map _) ran
      show SameButOrder _ _ _ (.ok ⟨_, parameterSteps d.params e.ledger.params ++ _, _⟩)
        (.ok ⟨_, parameterSteps ps (ps.map (·.entry values)) ++ _, _⟩)
      rw [params, parameterSteps_entries, parameterSteps_entries]
      exact .computed _ _ _
  · have some' : ps.filterMap (·.refusal? values) ≠ [] := fun none' => none (none' ▸ refusals).eq_nil
    rw [bindAll_of_refusals_ne_nil none, bindAll_of_refusals_ne_nil some']
    exact .refused

/-- Whether a formula compiles does not depend on the order of its parameters, and neither does what it
answers: the same result and intermediates, the same failure, or the same refusals. -/
theorem evaluate_rearranged (order : d.params.Perm ps) (limits : Limits) :
    ((∃ c, compile limits d = .ok c) ↔ ∃ c', compile limits { d with params := ps } = .ok c') ∧
    ∀ c c', compile limits d = .ok c → compile limits { d with params := ps } = .ok c' →
      ∀ values, SameButOrder values d.params ps (evaluate c values) (evaluate c' values) := by
  refine ⟨⟨?_, ?_⟩, fun c c' => sameButOrder_evaluate order⟩
  · rintro ⟨c, compiled⟩
    obtain ⟨c', compiled', _⟩ := exists_compile_rearranged order compiled
    exact ⟨c', compiled'⟩
  · rintro ⟨c', compiled'⟩
    obtain ⟨c, compiled, _⟩ := exists_compile_rearranged order.symm compiled'
    exact ⟨c, compiled⟩

theorem evaluate_rearranged_quotient : ∃ (p q : Parameter) (d : Definition) (c c' : Compiled),
    p.name = "a" ∧ q.name = "b" ∧ d.params = [p, q] ∧ d.params.Perm [q, p] ∧
      d.expression = "a / b" ∧ compile {} d = .ok c ∧
      compile {} { d with params := [q, p] } = .ok c' ∧
      (∀ values, SameButOrder values [p, q] [q, p] (evaluate c values) (evaluate c' values)) ∧
      (evaluate c [("a", .number 1.0), ("b", .number 4.0)]).toOption.map
        (fun r => (r.result.value, r.steps.map (·.value))) = some (0.25, [1.0, 4.0]) ∧
      (evaluate c' [("a", .number 1.0), ("b", .number 4.0)]).toOption.map
        (fun r => (r.result.value, r.steps.map (·.value))) = some (0.25, [4.0, 1.0]) := by
  let p : Parameter := { name := "a", label := "Numerator" }
  let q : Parameter := { name := "b", label := "Denominator" }
  let d : Definition :=
    { id := "quotient", title := "Quotient", displayExpression := "", resultLabel := "Quotient"
      params := [p, q]
      expression := "a / b" }
  have order : d.params.Perm [q, p] := .swap q p []
  have shown : (match compile {} d with
    | .ok c => (evaluate c [("a", .number 1.0), ("b", .number 4.0)]).toOption.map
        (fun r => (r.result.value, r.steps.map (·.value)))
    | .error _ => none) = some (0.25, [1.0, 4.0]) := by decide +kernel
  have shown' : (match compile {} { d with params := [q, p] } with
    | .ok c => (evaluate c [("a", .number 1.0), ("b", .number 4.0)]).toOption.map
        (fun r => (r.result.value, r.steps.map (·.value)))
    | .error _ => none) = some (0.25, [4.0, 1.0]) := by decide +kernel
  obtain ⟨compiles, same⟩ := evaluate_rearranged order {}
  cases compiled : compile {} d with
  | error fault =>
    rw [compiled] at shown
    cases shown
  | ok c =>
    obtain ⟨c', compiled'⟩ := compiles.mp ⟨c, compiled⟩
    rw [compiled] at shown
    rw [compiled'] at shown'
    exact ⟨p, q, d, c, c', rfl, rfl, rfl, order, rfl, compiled, compiled', same c c' compiled compiled',
      shown, shown'⟩

end
end BuildingCode.Service

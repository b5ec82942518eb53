import BuildingCode.Formula.Compiled
import BuildingCode.Proofs.Expression.Parsing
import BuildingCode.Proofs.Machine.Safety
import BuildingCode.Proofs.Outcome

/-! Nothing that was compiled trips a guard of the machine. The scope that an expression is compiled
over is as long as the ledger that its program runs over, and both grow by one with every
intermediate. -/
namespace BuildingCode.Formula
open Expression Machine Outcome

section
variable {A : Arithmetic} {scope : Scope} {limits : Limits} {text : String} {p : Program}
  {slots : List Float}

theorem exists_expr_of_ofText (h : Program.ofText scope limits text = .ok p) :
    ∃ e, p = .ofExpr e ∧ e.Resolved scope.names.length := by
  obtain ⟨e, read, lowered⟩ := bind_eq_ok.mp h
  cases lowered
  exact ⟨e, rfl, resolved_of_ofText read⟩

theorem clear_of_ofText (h : Program.ofText scope limits text = .ok p)
    (covers : scope.names.length ≤ slots.length) (limit : Nat) : Clear (p.run A slots limit) := by
  obtain ⟨e, rfl, resolved⟩ := exists_expr_of_ofText h
  exact Program.clear_run (resolved.mono covers) limit

theorem ready_of_ofText (h : Program.ofText scope limits text = .ok p)
    (covers : scope.names.length ≤ slots.length) {n : Nat} {s : State}
    (steps : Steps A p slots n ⟨0, []⟩ s) : p.Ready slots s := by
  obtain ⟨e, rfl, resolved⟩ := exists_expr_of_ofText h
  exact Program.ready_of_steps (resolved.mono covers) steps

end

theorem names_of_push {scope scope' : Scope} {name : String} (h : scope.push name = .ok scope') :
    scope'.names = scope.names ++ [name] ∧ isReserved name = false ∧ name ∉ scope.names := by
  unfold Scope.push at h
  by_cases reserved : isReserved name = true
  · rw [dif_pos reserved] at h
    cases h
  · by_cases bound : name ∈ scope.names
    · rw [dif_neg reserved, dif_pos bound] at h
      cases h
    · rw [dif_neg reserved, dif_neg bound] at h
      cases h
      exact ⟨rfl, by simpa using reserved, bound⟩

theorem names_of_foldlM_push {names : List String} {scope scope' : Scope}
    (h : names.foldlM Scope.push scope = .ok scope') : scope'.names = scope.names ++ names := by
  induction names generalizing scope with
  | nil =>
    cases h
    simp
  | cons name names ih =>
    rw [List.foldlM_cons] at h
    obtain ⟨next, pushed, h⟩ := bind_eq_ok.mp h
    rw [ih h, (names_of_push pushed).1, List.append_assoc, List.singleton_append]

theorem length_of_push {scope scope' : Scope} {name : String} (h : scope.push name = .ok scope') :
    scope'.names.length = scope.names.length + 1 := by
  simp [(names_of_push h).1]

theorem length_of_foldlM_push {names : List String} {scope scope' : Scope}
    (h : names.foldlM Scope.push scope = .ok scope') :
    scope'.names.length = scope.names.length + names.length := by
  rw [names_of_foldlM_push h, List.length_append]

/-- No guard of the machine is what an evaluation fails at. -/
def Blameless (r : Except EvaluationFault α) : Prop :=
  ∀ fault, r = .error fault → ∀ cause, fault.cause ≠ .mismatch cause

namespace Blameless

theorem ok (a : α) : Blameless (.ok a) := by
  intro fault h
  cases h

theorem bind {x : Except EvaluationFault α} {f : α → Except EvaluationFault β}
    (first : Blameless x) (rest : ∀ a, x = .ok a → Blameless (f a)) : Blameless (x >>= f) := by
  intro fault h
  rcases bind_eq_error.mp h with failed | ⟨a, done, failed⟩
  · exact first fault failed
  · exact rest a done fault failed

theorem of_clear {x : Except Failure α} (h : Clear x) {f : Failure → EvaluationFault}
    (keeps : ∀ failure, (f failure).cause = failure) : Blameless (x.mapError f) := by
  cases x with
  | error failure =>
    intro fault same cause guard
    cases same
    rw [keeps] at guard
    exact h cause (congrArg Except.error guard)
  | ok a => exact ok a

end Blameless

theorem blameless_runSteps {limits : Limits} {is : List Intermediate} {scope scope' : Scope}
    {steps : List (String × Program)} (h : compileSteps limits scope is = .ok (steps, scope'))
    (budget : Nat) (l : Ledger) (covers : scope.names.length ≤ l.size) :
    Blameless (runSteps budget steps l) ∧
      ∀ l', runSteps budget steps l = .ok l' → scope'.names.length ≤ l'.size := by
  induction is generalizing scope steps l with
  | nil =>
    cases h
    refine ⟨.ok l, ?_⟩
    intro l' done
    cases done
    exact covers
  | cons i is ih =>
    obtain ⟨p, compiled, h⟩ := bind_eq_ok.mp h
    obtain ⟨next, pushed, h⟩ := bind_eq_ok.mp h
    obtain ⟨⟨more, last⟩, rest, h⟩ := bind_eq_ok.mp h
    cases h
    have grown : ∀ v, next.names.length ≤ (l.push v).size := by
      intro v
      rw [length_of_push (ok_of_mapError pushed), Ledger.size_push]
      omega
    have clear := clear_of_ofText (A := .standard) (ok_of_mapError compiled) covers budget
    rw [runSteps]
    constructor
    · exact .bind (.of_clear clear fun _ => rfl) fun v _ => (ih rest (l.push v) (grown v)).1
    · intro l' done
      obtain ⟨v, _, done⟩ := bind_eq_ok.mp done
      exact (ih rest (l.push v) (grown v)).2 l' done

theorem blameless_evaluate {limits : Limits} {d : Definition} {c : Compiled} {params : List Float}
    (h : compile limits d = .ok c) (length : params.length = d.params.length) :
    Blameless (c.evaluate params) := by
  obtain ⟨scope, named, h⟩ := bind_eq_ok.mp h
  obtain ⟨⟨steps, last⟩, compiled, h⟩ := bind_eq_ok.mp h
  obtain ⟨result, lowered, h⟩ := bind_eq_ok.mp h
  cases h
  have covers : scope.names.length ≤ (Ledger.ofParams params).size := by
    have names := length_of_foldlM_push (ok_of_mapError named)
    simp [Scope.empty] at names
    simp [names, length, Ledger.size, Ledger.values, Ledger.ofParams]
  obtain ⟨safe, grown⟩ := blameless_runSteps compiled limits.steps (.ofParams params) covers
  unfold Compiled.evaluate
  rw [if_neg (by simpa using length)]
  refine .bind safe fun l filled => .bind (.of_clear ?_ fun _ => rfl) fun v _ => .ok _
  exact clear_of_ofText (ok_of_mapError lowered) (grown l filled) limits.steps

/-- Neither a program that was read from text, in whatever state of whatever run, nor a formula that
was compiled ever fails a guard of the machine. -/
theorem compiled_never_mismatched :
    (∀ (A : Arithmetic) (scope : Scope) (limits : Limits) (text : String) (p : Program)
      (slots : List Float), Program.ofText scope limits text = .ok p →
        scope.names.length ≤ slots.length →
          (∀ limit, Clear (p.run A slots limit)) ∧
          ∀ n s, Steps A p slots n ⟨0, []⟩ s → p.Ready slots s) ∧
    ∀ (limits : Limits) (d : Definition) (c : Compiled) (params : List Float),
      compile limits d = .ok c → params.length = d.params.length → Blameless (c.evaluate params) := by
  constructor
  · intro A scope limits text p slots compiled covers
    exact ⟨clear_of_ofText compiled covers, fun n s steps => ready_of_ofText compiled covers steps⟩
  · intro limits d c params compiled length
    exact blameless_evaluate compiled length

theorem compiled_never_mismatched_doubled :
    (∃ (scope : Scope) (p : Program), scope.names = ["a"] ∧
      Program.ofText scope {} "a + a" = .ok p ∧ Clear (p.run .standard [0.5] 2) ∧
        p.Ready [0.5] ⟨0, []⟩) ∧
    ∃ (d : Definition) (c : Compiled), d.params.map (·.name) = ["a"] ∧
      d.intermediates.map (·.expression) = ["a + a"] ∧ d.expression = "a * b" ∧
        compile {} d = .ok c ∧ Blameless (c.evaluate [0.5]) := by
  constructor
  · let scope : Scope := ⟨["a"], by decide, by decide⟩
    have compiled : (Program.ofText scope {} "a + a").isOk = true := by decide +kernel
    cases lowered : Program.ofText scope {} "a + a" with
    | error r =>
      rw [lowered] at compiled
      cases compiled
    | ok p =>
      have settled := compiled_never_mismatched.1 .standard scope {} "a + a" p [0.5] lowered
        (Nat.le_refl 1)
      exact ⟨scope, p, rfl, lowered, settled.1 2, settled.2 0 ⟨0, []⟩ (.refl _)⟩
  · let d : Definition :=
      { id := "area", title := "Area", displayExpression := "", resultLabel := "Area"
        params := [{ name := "a", label := "Width" }]
        intermediates := [{ name := "b", label := "Length", expression := "a + a" }]
        expression := "a * b" }
    have compiled : (compile {} d).isOk = true := by decide +kernel
    cases lowered : compile {} d with
    | error r =>
      rw [lowered] at compiled
      cases compiled
    | ok c =>
      exact ⟨d, c, rfl, rfl, rfl, lowered, compiled_never_mismatched.2 {} d c [0.5] lowered rfl⟩

end BuildingCode.Formula

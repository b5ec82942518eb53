import BuildingCode.Formula.Authoring
import BuildingCode.Proofs.Formula.Meaning
import BuildingCode.Proofs.Text.Space

/-! What authoring lets through is settled: written as a draft again it passes again, and comes out
as it went in. -/
namespace BuildingCode.Formula
open Expression Outcome

/-- What authoring asks of a draft before it compiles it. -/
structure Draft.Admissible (d : Draft) : Prop where
  title : Text.isBlank d.title = false
  displayExpression : Text.isBlank d.displayExpression = false
  expression : Text.isBlank d.expression = false
  digits : ∀ digits, d.resultDigits = some digits → digits ≤ maxDisplayDigits
  declarations : declarationViolations d.params d.intermediates = []

section
variable {limits : Limits} {d : Draft} {id : String} {c : Compiled}

theorem requireText_eq_ok {name text : String} {u : Unit} :
    requireText name text = .ok u ↔ Text.isBlank text = false := by
  cases h : Text.isBlank text <;> simp [requireText, h]

theorem filter_maxDisplayDigits {digits : Option UInt32} :
    digits.filter (maxDisplayDigits < ·) = none ↔ ∀ n, digits = some n → n ≤ maxDisplayDigits := by
  simp [Option.filter_eq_none_iff, UInt32.not_lt]

theorem prepare_eq_ok :
    d.prepare limits id = .ok c ↔ d.Admissible ∧ compile limits (d.definition id) = .ok c := by
  simp only [Draft.prepare, bind_eq_ok, requireText_eq_ok]
  constructor
  · rintro ⟨_, title, _, displayExpression, _, expression, h⟩
    split at h
    · cases h
    · rename_i few
      split at h
      · cases h
      · rename_i declared
        exact ⟨⟨title, displayExpression, expression, filter_maxDisplayDigits.mp (by simpa using few),
          not_not.mp declared⟩, ok_of_mapError h⟩
  · rintro ⟨h, compiled⟩
    refine ⟨(), h.title, (), h.displayExpression, (), h.expression, ?_⟩
    rw [filter_maxDisplayDigits.mpr h.digits, if_neg (not_not.mpr h.declarations), compiled]
    rfl

theorem definition_of_compile {limits : Limits} {d : Definition} {c : Compiled}
    (h : compile limits d = .ok c) : c.definition = d := by
  obtain ⟨_, _, _, _, _, same⟩ := parts_of_compile h
  exact same

theorem compile_of_prepare (h : d.prepare limits id = .ok c) :
    compile limits c.definition = .ok c := by
  have compiled := (prepare_eq_ok.mp h).2
  rwa [definition_of_compile compiled]

theorem resultLabel_settled (label : Option String) :
    Text.nonBlank (some ((Text.nonBlank label).getD defaultResultLabel)) =
      some ((Text.nonBlank label).getD defaultResultLabel) := by
  cases h : Text.nonBlank label with
  | none => decide
  | some t => exact Text.nonBlank_of_nonBlank h

/-- A definition that was written by a draft is what its own draft writes. -/
theorem definition_draft (d : Draft) (id : String) :
    (d.definition id).draft.definition id = d.definition id := by
  simp [Draft.definition, Definition.draft, resultLabel_settled]

theorem Draft.Admissible.draft (h : d.Admissible) (id : String) :
    (d.definition id).draft.Admissible where
  title := by simpa [Draft.definition, Definition.draft] using h.title
  displayExpression := by simpa [Draft.definition, Definition.draft] using h.displayExpression
  expression := by simpa [Draft.definition, Definition.draft] using h.expression
  digits := h.digits
  declarations := h.declarations

theorem prepare_draft (h : d.prepare limits id = .ok c) :
    c.definition.draft.prepare limits id = .ok c := by
  obtain ⟨admissible, compiled⟩ := prepare_eq_ok.mp h
  rw [definition_of_compile compiled, prepare_eq_ok, definition_draft]
  exact ⟨admissible.draft id, compiled⟩

end

end BuildingCode.Formula

import BuildingCode.Formula.Compiled
import BuildingCode.Formula.Declaration
import BuildingCode.Formula.Input

/-! From a draft to a formula: required texts first, then the declaration rules, then a full
compile. Nothing of a draft runs before all three have passed. -/
namespace BuildingCode.Formula
open Expression

def maxDisplayDigits : UInt32 := 15

inductive AuthoringFault where
  | missingField (name : String)
  | declarations (violations : List Violation)
  | compile (fault : CompileFault)
  | resultDigits (digits : UInt32)
  | noObject
  | malformedObject
  | generator (message : String)
  | invalidValues (violations : List Violation)
  | evaluation (fault : EvaluationFault)
deriving DecidableEq

def AuthoringFault.message : AuthoringFault → String
  | .missingField name => s!"Field '{name}' is required"
  | .declarations vs => s!"Invalid declarations: {joinMessages vs}"
  | .compile fault => s!"Formula does not compile: {fault.message}"
  | .resultDigits digits =>
    s!"Result precision of {digits} digits exceeds the maximum of {maxDisplayDigits}"
  | .noObject => "Generator output contains no JSON object"
  | .malformedObject => "Generator output is not a valid formula"
  | .generator message => s!"Generator failed: {message}"
  | .invalidValues vs => s!"Invalid sample values: {joinMessages vs}"
  | .evaluation fault => s!"Sample evaluation failed: {fault.message}"

def requireText (name text : String) : Except AuthoringFault Unit :=
  if Text.isBlank text then .error (.missingField name) else .ok ()

def defaultResultLabel : String := "Result"

/-- The definition that a draft writes, its texts trimmed and blank options forgotten. -/
def Draft.definition (d : Draft) (id : String) : Definition :=
  { id
    title := Text.trim d.title
    description := Text.nonBlank d.description
    displayExpression := Text.trim d.displayExpression
    params := d.params
    intermediates := d.intermediates
    expression := Text.trim d.expression
    resultLabel := (Text.nonBlank d.resultLabel).getD defaultResultLabel
    resultUnit := Text.nonBlank d.resultUnit
    resultDigits := d.resultDigits }

def Draft.prepare (limits : Limits) (id : String) (d : Draft) : Except AuthoringFault Compiled := do
  requireText "title" d.title
  requireText "displayExpression" d.displayExpression
  requireText "expression" d.expression
  if let some digits := d.resultDigits.filter (maxDisplayDigits < ·) then
    throw (.resultDigits digits)
  let violations := declarationViolations d.params d.intermediates
  if violations ≠ [] then throw (.declarations violations)
  (Formula.compile limits (d.definition id)).mapError .compile

def Draft.dryRun (limits : Limits) (d : Draft) (values : Values) : Except AuthoringFault Float := do
  let compiled ← d.prepare limits "dry-run"
  let bound ← (bindAll compiled.definition.params values).mapError .invalidValues
  let evaluation ← (compiled.evaluate bound).mapError .evaluation
  return evaluation.value

end BuildingCode.Formula

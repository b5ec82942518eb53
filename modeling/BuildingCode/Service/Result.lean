import BuildingCode.Formula.Compiled
import BuildingCode.Formula.Input

/-! What a computation answers: labelled values for the parameters, the intermediates and the
result, or why there are none. -/
namespace BuildingCode.Service
open Formula

structure Step where
  label : String
  value : Float
  unit : Option String
deriving DecidableEq

structure Result where
  result : Step
  steps : List Step
  digits : Option UInt32
deriving DecidableEq

inductive ComputeFault where
  | unknownFormula (id : String)
  | invalidParameters (violations : List Violation)
  | compilation (fault : CompileFault)
  | evaluation (fault : EvaluationFault)
deriving DecidableEq

namespace ComputeFault

def message : ComputeFault → String
  | unknownFormula id => s!"Unknown formula '{id}'"
  | invalidParameters vs => s!"Invalid parameters: {joinMessages vs}"
  | compilation fault => s!"Formula does not compile: {fault.message}"
  | evaluation fault => s!"Evaluation failed: {fault.message}"

def code : ComputeFault → String
  | unknownFormula _ => "unknown_formula"
  | _ => "compute_failed"

def messages : ComputeFault → List String
  | invalidParameters vs => vs.map Violation.message
  | fault => [fault.message]

end ComputeFault

def parameterSteps (params : List Parameter) (values : List Float) : List Step :=
  List.zipWith (fun p v => ⟨p.label, v, p.unit⟩) params values

def intermediateSteps (is : List Intermediate) (values : List Float) : List Step :=
  List.zipWith (fun i v => ⟨i.label, v, i.unit⟩) is values

def evaluate (c : Compiled) (values : Values) : Except ComputeFault Result := do
  let d := c.definition
  let bound ← (bindAll d.params values).mapError .invalidParameters
  let e ← (c.evaluate bound).mapError .evaluation
  return ⟨⟨d.resultLabel, e.value, d.resultUnit⟩,
    parameterSteps d.params e.ledger.params ++
      intermediateSteps d.intermediates e.ledger.intermediates,
    d.resultDigits⟩

end BuildingCode.Service

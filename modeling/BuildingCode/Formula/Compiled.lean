import BuildingCode.Formula.Definition
import BuildingCode.Formula.Ledger
import BuildingCode.Machine.Run

/-! Formulas compiled as a whole. An intermediate sees the parameters and the intermediates before
it, the result sees them all; evaluation fills the ledger in the same order. -/
namespace BuildingCode.Formula
open Expression Machine

inductive CompileFault where
  | declaration (cause : Rejection)
  | intermediate (name : String) (cause : Rejection)
  | expression (cause : Rejection)
deriving DecidableEq

def CompileFault.cause : CompileFault → Rejection
  | declaration r | intermediate _ r | expression r => r

def CompileFault.message : CompileFault → String
  | declaration r => s!"Invalid declaration: {r.message}"
  | intermediate name r => s!"Intermediate '{name}': {r.message}"
  | expression r => s!"Expression: {r.message}"

inductive EvaluationFault where
  | intermediate (name : String) (cause : Failure)
  | expression (cause : Failure)
deriving DecidableEq

def EvaluationFault.cause : EvaluationFault → Failure
  | intermediate _ f | expression f => f

def EvaluationFault.message : EvaluationFault → String
  | intermediate name f => s!"Intermediate '{name}' failed: {f.message}"
  | expression f => f.message

structure Compiled where
  definition : Definition
  steps : List (String × Program)
  result : Program
  budget : Nat
deriving DecidableEq

def compileSteps (limits : Limits) : Scope → List Intermediate →
    Except CompileFault (List (String × Program) × Scope)
  | scope, [] => .ok ([], scope)
  | scope, i :: is => do
    let program ← (Program.ofText scope limits i.expression).mapError (.intermediate i.name)
    let scope ← (scope.push i.name).mapError .declaration
    let (steps, scope) ← compileSteps limits scope is
    return ((i.name, program) :: steps, scope)

def compile (limits : Limits) (d : Definition) : Except CompileFault Compiled := do
  let scope ← (Scope.ofNames (d.params.map (·.name))).mapError .declaration
  let (steps, scope) ← compileSteps limits scope d.intermediates
  let result ← (Program.ofText scope limits d.expression).mapError .expression
  return ⟨d, steps, result, limits.steps⟩

structure Evaluation where
  value : Float
  ledger : Ledger
deriving DecidableEq

def runSteps (budget : Nat) : List (String × Program) → Ledger → Except EvaluationFault Ledger
  | [], l => .ok l
  | (name, p) :: steps, l => do
    let v ← (p.run .standard l.values budget).mapError (.intermediate name)
    runSteps budget steps (l.push v)

def Compiled.evaluate (c : Compiled) (params : List Float) : Except EvaluationFault Evaluation := do
  let expected := c.definition.params.length
  if params.length ≠ expected then
    throw (.expression (.mismatch (.parametersExpected expected params.length)))
  let ledger ← runSteps c.budget c.steps (.ofParams params)
  let value ← (c.result.run .standard ledger.values c.budget).mapError .expression
  return ⟨value, ledger⟩

end BuildingCode.Formula

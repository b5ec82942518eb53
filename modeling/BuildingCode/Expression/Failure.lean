import BuildingCode.Expression.Tree
import BuildingCode.Number.Layout

/-! Why an evaluation ends without a value. The mismatches are guards: they say that a program and
what it is run on do not belong together. -/
namespace BuildingCode.Expression

inductive Operation where
  | add | sub | mul | div | rem
  | function (f : MathFunction)
  | result
deriving DecidableEq

def Operation.name : Operation → String
  | .add => "+"
  | .sub => "-"
  | .mul => "*"
  | .div => "/"
  | .rem => "%"
  | .function f => f.name
  | .result => "result"

inductive Mismatch where
  | slotsMissing (needed found : Nat)
  | parametersExpected (expected found : Nat)
  | operandOutOfRange (operand : Nat) (opcode : String)
  | stackUnderflow
  | valuesLeft (count : Nat)
  | argumentsMissing (f : MathFunction)
  | secondMissing (f : MathFunction)
deriving DecidableEq

def Mismatch.message : Mismatch → String
  | .slotsMissing needed found => s!"Ledger too small. Needed {needed} slots, got {found}"
  | .parametersExpected expected found => s!"Expected {expected} parameters, got {found}"
  | .operandOutOfRange operand opcode => s!"Operand {operand} out of range for {opcode}"
  | .stackUnderflow => "Stack underflow"
  | .valuesLeft count => s!"Program left {count} values on the stack"
  | .argumentsMissing f => s!"{f.name} called without arguments"
  | .secondMissing f => s!"{f.name} needs two arguments"

inductive Failure where
  | divisionByZero
  | undefined (f : MathFunction) (argument : Float)
  | nonFinite (operation : Operation)
  | budgetExceeded (limit : Nat)
  | mismatch (cause : Mismatch)
deriving DecidableEq

def Failure.message : Failure → String
  | .divisionByZero => "Division by zero"
  | .undefined f x => s!"Math error: {f.name}({Number.plainText x}) is undefined"
  | .nonFinite operation => s!"Math error: {operation.name} produced a non-finite result"
  | .budgetExceeded limit => s!"Evaluation exceeded the limit of {limit} steps"
  | .mismatch cause => s!"Structural mismatch: {cause.message}"

end BuildingCode.Expression

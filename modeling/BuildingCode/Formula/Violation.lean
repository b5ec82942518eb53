import BuildingCode.Number.Layout

/-! What is wrong with declared names and entered values, one violation for each fault, so that
an author or a client sees all of them at once. -/
namespace BuildingCode.Formula
open Number

inductive Rule where
  | notANumber (label : String)
  | belowMinimum (label : String) (min : Float)
  | aboveMaximum (label : String) (max : Float)
  | invalidName (name : String)
  | reservedName (name : String)
  | duplicateName (name : String)
  | invertedBounds (label : String) (min max : Float)
  | missingLabel (name : String)
deriving DecidableEq

def Rule.message : Rule → String
  | .notANumber label => s!"Field '{label}' is required and must be a number."
  | .belowMinimum label min => s!"Field '{label}' must be >= {plainText min}."
  | .aboveMaximum label max => s!"Field '{label}' must be <= {plainText max}."
  | .invalidName name =>
    s!"Name '{name}' must use only Latin letters, digits and '_' and not start with a digit."
  | .reservedName name => s!"Name '{name}' is reserved by the math namespace."
  | .duplicateName name => s!"Name '{name}' is declared more than once."
  | .invertedBounds label min max =>
    s!"Field '{label}' has min {plainText min} greater than max {plainText max}."
  | .missingLabel name => s!"Name '{name}' needs a non-empty label."

structure Violation where
  field : String
  rule : Rule
deriving DecidableEq

def Violation.message (v : Violation) : String := v.rule.message

def joinMessages (vs : List Violation) : String :=
  String.intercalate "; " (vs.map Violation.message)

end BuildingCode.Formula

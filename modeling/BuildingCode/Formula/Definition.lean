/-! What a formula declares: parameters with their bounds, intermediates that build on them, and
the expression of the result. A draft is what an author writes before it is checked. -/
namespace BuildingCode.Formula

structure Parameter where
  name : String
  label : String
  unit : Option String := none
  min : Option Float := none
  max : Option Float := none
  placeholder : Option String := none
deriving DecidableEq

structure Intermediate where
  name : String
  label : String
  unit : Option String := none
  expression : String
deriving DecidableEq

structure Definition where
  id : String
  title : String
  description : Option String := none
  displayExpression : String
  params : List Parameter
  intermediates : List Intermediate := []
  expression : String
  resultLabel : String
  resultUnit : Option String := none
  resultDigits : Option UInt32 := none
deriving DecidableEq

structure Draft where
  title : String := ""
  description : Option String := none
  displayExpression : String := ""
  params : List Parameter := []
  intermediates : List Intermediate := []
  expression : String := ""
  resultLabel : Option String := none
  resultUnit : Option String := none
  resultDigits : Option UInt32 := none
deriving DecidableEq

def Definition.draft (d : Definition) : Draft :=
  ⟨d.title, d.description, d.displayExpression, d.params, d.intermediates, d.expression,
    some d.resultLabel, d.resultUnit, d.resultDigits⟩

end BuildingCode.Formula

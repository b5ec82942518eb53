import BuildingCode.Expression.Token
import BuildingCode.Expression.Vocabulary

/-! Why an expression is rejected before anything of it runs. Positions count characters. -/
namespace BuildingCode.Expression

inductive Expected where
  | value | memberName | colon | closeParen | commaOrClose | endOfText
deriving DecidableEq

def Expected.text : Expected → String
  | .value => "a value"
  | .memberName => "a member name"
  | .colon => "':'"
  | .closeParen => "')'"
  | .commaOrClose => "',' or ')'"
  | .endOfText => "end of expression"

inductive Rejection where
  | empty
  | tooLong (length limit : Nat)
  | unexpectedChar (c : Char) (position : Nat)
  | textLiteral (position : Nat)
  | assignment (position : Nat)
  | invalidNumber (text : String) (position : Nat)
  | unexpectedToken (found : Token) (expected : Expected) (position : Nat)
  | unexpectedEnd (expected : Expected)
  | unknownName (name : String) (position : Nat)
  | unknownFunction (name : String) (position : Nat)
  | forbiddenAccess (path : String) (position : Nat)
  | notCallable (name : String) (position : Nat)
  | notAValue (name : String) (position : Nat)
  | arity (function : MathFunction) (found position : Nat)
  | tooDeep (limit : Nat)
  | tooManyNodes (limit : Nat)
  | reservedName (name : String)
  | duplicateName (name : String)
deriving DecidableEq

def Rejection.message : Rejection → String
  | .empty => "Expression is empty"
  | .tooLong length limit => s!"Expression is {length} characters long, the limit is {limit}"
  | .unexpectedChar c position => s!"Unexpected character '{c}' at {position}"
  | .textLiteral position => s!"String literals are not allowed (at {position})"
  | .assignment position => s!"Assignment is not allowed (at {position})"
  | .invalidNumber text position => s!"Invalid number '{text}' at {position}"
  | .unexpectedToken found expected position =>
    s!"Expected {expected.text}, found '{found.text}' at {position}"
  | .unexpectedEnd expected => s!"Expected {expected.text}, found end of expression"
  | .unknownName name position => s!"Unknown identifier '{name}' at {position}"
  | .unknownFunction name position => s!"Unknown function '{name}' at {position}"
  | .forbiddenAccess path position => s!"Access to '{path}' is not allowed (at {position})"
  | .notCallable name position => s!"'{name}' is not a function (at {position})"
  | .notAValue name position => s!"Function '{name}' must be called (at {position})"
  | .arity function found position =>
    s!"Function '{function.name}' takes {function.arity.text} argument(s), got {found} (at {position})"
  | .tooDeep limit => s!"Expression nesting exceeds the limit of {limit}"
  | .tooManyNodes limit => s!"Expression exceeds the limit of {limit} nodes"
  | .reservedName name => s!"Name '{name}' is reserved by the math namespace"
  | .duplicateName name => s!"Name '{name}' is bound more than once"

end BuildingCode.Expression

/-! The words that expressions have for themselves: whitelisted functions, constants and the two
roots that a member may follow. No parameter may take any of these names. -/
namespace BuildingCode.Expression

inductive MathFunction where
  | abs | sqrt | cbrt | pow | exp | ln | log10 | log2
  | sin | cos | tan | asin | acos | atan | atan2 | sinh | cosh | tanh
  | floor | ceil | round | trunc | sign | min | max | hypot
deriving DecidableEq

def MathFunction.code (f : MathFunction) : Nat := f.ctorIdx

inductive Arity where
  | exactly (n : Nat)
  | atLeast (n : Nat)
deriving DecidableEq

def Arity.accepts : Arity → Nat → Bool
  | .exactly k, n => n == k
  | .atLeast k, n => decide (k ≤ n)

def Arity.text : Arity → String
  | .exactly k => s!"{k}"
  | .atLeast k => s!"at least {k}"

def MathFunction.arity : MathFunction → Arity
  | .pow | .atan2 => .exactly 2
  | .min | .max | .hypot => .atLeast 1
  | _ => .exactly 1

/-- The names of the functions. The natural logarithm has two. -/
def functionNames : List (String × MathFunction) :=
  [("abs", .abs), ("sqrt", .sqrt), ("cbrt", .cbrt), ("pow", .pow), ("exp", .exp), ("log", .ln),
    ("ln", .ln), ("log10", .log10), ("log2", .log2), ("sin", .sin), ("cos", .cos), ("tan", .tan),
    ("asin", .asin), ("acos", .acos), ("atan", .atan), ("atan2", .atan2), ("sinh", .sinh),
    ("cosh", .cosh), ("tanh", .tanh), ("floor", .floor), ("ceil", .ceil), ("round", .round),
    ("trunc", .trunc), ("sign", .sign), ("min", .min), ("max", .max), ("hypot", .hypot)]

def function? (name : String) : Option MathFunction := functionNames.lookup name

def MathFunction.name (f : MathFunction) : String :=
  ((functionNames.find? fun entry => entry.2 = f).map (·.1)).getD ""

def constants : List (String × Float) :=
  [("PI", 3.14159265358979323846), ("E", 2.71828182845904523536),
    ("LN2", 0.693147180559945309417), ("LN10", 2.30258509299404568402),
    ("LOG2E", 1.44269504088896340736), ("LOG10E", 0.434294481903251827651),
    ("SQRT2", 1.41421356237309504880), ("SQRT1_2", 0.707106781186547524401)]

def bareConstants : List (String × Float) :=
  [("pi", 3.14159265358979323846), ("π", 3.14159265358979323846), ("e", 2.71828182845904523536)]

def constant? (asMember : Bool) (name : String) : Option Float :=
  if asMember then constants.lookup name
  else (constants.lookup name).or (bareConstants.lookup name)

def valuesRoot : String := "values"

def mathRoot : String := "Math"

def isReserved (name : String) : Bool :=
  name == valuesRoot || name == mathRoot || (function? name).isSome ||
    (constant? false name).isSome

end BuildingCode.Expression

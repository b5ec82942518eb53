import BuildingCode.Expression.Arithmetic

/-! What an expression means: its value over the values of the slots, computed along the tree.
Operands and arguments are taken from left to right and the first failure is the result. -/
namespace BuildingCode.Expression.Expr

mutual
def valueOver (A : Arithmetic) (slots : List Float) : Expr → Except Failure Float
  | number v => .ok v
  | slot i => match slots[i]? with
    | some v => .ok v
    | none => .error (.mismatch (.operandOutOfRange i "Load"))
  | neg e => do return A.neg (← valueOver A slots e)
  | binary op a b => do
    let x ← valueOver A slots a
    let y ← valueOver A slots b
    op.apply A x y
  | call f args => do f.apply A (← valuesOver A slots args)
  | conditional c t e => do
    let x ← valueOver A slots c
    if x == 0.0 then valueOver A slots e else valueOver A slots t
def valuesOver (A : Arithmetic) (slots : List Float) : List Expr → Except Failure (List Float)
  | [] => .ok []
  | e :: es => do
    let v ← valueOver A slots e
    return v :: (← valuesOver A slots es)
end

def value (A : Arithmetic) (e : Expr) (slots : List Float) : Except Failure Float := do
  finite .result (← valueOver A slots e)

end BuildingCode.Expression.Expr

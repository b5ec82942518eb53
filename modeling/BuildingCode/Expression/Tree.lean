import BuildingCode.Expression.Vocabulary

/-! Expressions as trees. Names are resolved when a tree is built, so a tree holds numbers, slots
and whitelisted functions only; signs without effect and parentheses leave no trace. -/
namespace BuildingCode.Expression

inductive BinaryOp where
  | add | sub | mul | div | rem | pow | lt | le | gt | ge | eq | ne
deriving DecidableEq

inductive Expr where
  | number (value : Float)
  | slot (index : Nat)
  | neg (e : Expr)
  | binary (op : BinaryOp) (a b : Expr)
  | call (f : MathFunction) (args : List Expr)
  | conditional (c t e : Expr)

namespace Expr

mutual
def nodeCount : Expr → Nat
  | number _ | slot _ => 1
  | neg e => e.nodeCount + 1
  | binary _ a b => a.nodeCount + b.nodeCount + 1
  | call _ args => nodeCountAll args + 1
  | conditional c t e => c.nodeCount + t.nodeCount + e.nodeCount + 1
def nodeCountAll : List Expr → Nat
  | [] => 0
  | e :: es => e.nodeCount + nodeCountAll es
end

mutual
def literals : Expr → List Float
  | number v => [v]
  | slot _ => []
  | neg e => e.literals
  | binary _ a b => a.literals ++ b.literals
  | call _ args => literalsAll args
  | conditional c t e => c.literals ++ t.literals ++ e.literals
def literalsAll : List Expr → List Float
  | [] => []
  | e :: es => e.literals ++ literalsAll es
end

mutual
def slotCount : Expr → Nat
  | number _ => 0
  | slot i => i + 1
  | neg e => e.slotCount
  | binary _ a b => max a.slotCount b.slotCount
  | call _ args => slotCountAll args
  | conditional c t e => max c.slotCount (max t.slotCount e.slotCount)
def slotCountAll : List Expr → Nat
  | [] => 0
  | e :: es => max e.slotCount (slotCountAll es)
end

end Expr
end BuildingCode.Expression

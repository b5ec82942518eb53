/-! Hard limits: three for reading an expression and one for running it. -/
namespace BuildingCode.Expression

structure Limits where
  length : Nat := 2000
  depth : Nat := 64
  nodes : Nat := 1000
  steps : Nat := 10000
deriving DecidableEq

def Limits.ceiling : Limits := ⟨20000, 256, 5000, 1000000⟩

structure LimitFault where
  name : String
  value : Nat
  ceiling : Nat
deriving DecidableEq

def Limits.fault? (l : Limits) : Option LimitFault :=
  [LimitFault.mk "maxLength" l.length ceiling.length, ⟨"maxDepth", l.depth, ceiling.depth⟩,
    ⟨"maxNodes", l.nodes, ceiling.nodes⟩, ⟨"maxSteps", l.steps, ceiling.steps⟩].find?
      fun f => f.value == 0 || decide (f.ceiling < f.value)

end BuildingCode.Expression

import BuildingCode.Machine.Program

/-! Lowering expressions to programs. Code is written from its end: the code of an expression is
put in front of the code that comes after it and leaves one more value on the stack. How long all
of it gets depends on the tree alone, so addresses are known and jumps can name their targets. -/
namespace BuildingCode.Machine
open Expression

mutual
def codeSize : Expr → Nat
  | .number _ | .slot _ => 1
  | .neg e => codeSize e + 1
  | .binary _ a b => codeSize a + codeSize b + 1
  | .call _ args => codeSizeAll args + 1
  | .conditional c t e => codeSize c + codeSize t + codeSize e + 2
def codeSizeAll : List Expr → Nat
  | [] => 0
  | e :: es => codeSize e + codeSizeAll es
end

mutual
def stackHeight : Expr → Nat
  | .number _ | .slot _ => 1
  | .neg e => stackHeight e
  | .binary _ a b => max (stackHeight a) (stackHeight b + 1)
  | .call _ args => max (stackHeightAll args) 1
  | .conditional c t e => max (stackHeight c) (max (stackHeight t) (stackHeight e))
def stackHeightAll : List Expr → Nat
  | [] => 0
  | e :: es => max (stackHeight e) (stackHeightAll es + 1)
end

/-- Adds a number to a pool that does not hold it yet. Numbers are told apart by their bits. -/
def pool (known : Array Float) (v : Float) : Array Float :=
  if known.any fun k => k.toBits == v.toBits then known else known.push v

def poolAll (vs : List Float) : Array Float := vs.foldl pool #[]

def poolIndex (constants : Array Float) (v : Float) : Nat :=
  (constants.findIdx? fun k => k.toBits == v.toBits).getD 0

structure Placed where
  start : Nat
  code : List Instr

def Placed.push (p : Placed) (i : Instr) : Placed := ⟨p.start - 1, i :: p.code⟩

mutual
/-- Puts the code of an expression in front of placed code. -/
def emit (constants : Array Float) : Expr → Placed → Placed
  | .number v, p => p.push (.const (poolIndex constants v))
  | .slot i, p => p.push (.load i)
  | .neg e, p => emit constants e (p.push .neg)
  | .binary op a b, p => emit constants a (emit constants b (p.push (.binary op)))
  | .call f args, p => emitAll constants args (p.push (.call f args.length))
  | .conditional c t e, p =>
    let other := emit constants e p
    let taken := emit constants t (other.push (.jump p.start))
    emit constants c (taken.push (.jumpIfFalse other.start))
def emitAll (constants : Array Float) : List Expr → Placed → Placed
  | [], p => p
  | e :: es, p => emit constants e (emitAll constants es p)
end

def Program.ofExpr (e : Expr) : Program :=
  let constants := poolAll e.literals
  ⟨(emit constants e ⟨codeSize e, []⟩).code.toArray, constants, stackHeight e, e.slotCount⟩

end BuildingCode.Machine

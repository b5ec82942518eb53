import BuildingCode.Expression.Arithmetic
import BuildingCode.Expression.Reading
import BuildingCode.Machine.Lowering

/-! Running a program over the values of its slots. Every index is checked before a run starts, and
every instruction takes one step of a budget, so a run ends whatever the program. -/
namespace BuildingCode.Machine
open Expression

/-- The next instruction's position and the stack, its top first. -/
structure State where
  position : Nat
  stack : List Float

def pop : List Float → Except Failure (Float × List Float)
  | [] => .error (.mismatch .stackUnderflow)
  | v :: vs => .ok (v, vs)

def popArguments (count : Nat) (stack : List Float) : Except Failure (List Float × List Float) :=
  if count ≤ stack.length then .ok ((stack.take count).reverse, stack.drop count)
  else .error (.mismatch .stackUnderflow)

def fetched (i : Instr) : Option Float → Except Failure Float
  | some v => .ok v
  | none => .error (.mismatch (.operandOutOfRange i.operand i.opcode))

def step (A : Arithmetic) (constants : Array Float) (slots : List Float) (s : State) :
    Instr → Except Failure State
  | .const i => do return ⟨s.position + 1, (← fetched (.const i) constants[i]?) :: s.stack⟩
  | .load i => do return ⟨s.position + 1, (← fetched (.load i) slots[i]?) :: s.stack⟩
  | .neg => do
    let (v, rest) ← pop s.stack
    return ⟨s.position + 1, A.neg v :: rest⟩
  | .binary op => do
    let (b, rest) ← pop s.stack
    let (a, rest) ← pop rest
    return ⟨s.position + 1, (← op.apply A a b) :: rest⟩
  | .call f count => do
    let (args, rest) ← popArguments count s.stack
    return ⟨s.position + 1, (← f.apply A args) :: rest⟩
  | .jumpIfFalse target => do
    let (v, rest) ← pop s.stack
    return ⟨if v == 0.0 then target else s.position + 1, rest⟩
  | .jump target => .ok ⟨target, s.stack⟩

def Program.runFrom (A : Arithmetic) (p : Program) (slots : List Float) (limit : Nat) :
    (budget : Nat) → State → Except Failure (List Float)
  | 0, s => if s.position < p.code.size then .error (.budgetExceeded limit) else .ok s.stack
  | budget + 1, s =>
    match p.code[s.position]? with
    | none => .ok s.stack
    | some i => do p.runFrom A slots limit budget (← step A p.constants slots s i)

def single : List Float → Except Failure Float
  | [v] => finite .result v
  | vs => .error (.mismatch (.valuesLeft vs.length))

def Instr.inRange (p : Program) (slots : List Float) : Instr → Bool
  | .const i => decide (i < p.constants.size)
  | .load i => decide (i < slots.length)
  | .jumpIfFalse target | .jump target => decide (target ≤ p.code.size)
  | .neg | .binary _ | .call _ _ => true

/-- Why a program cannot run over these slots at all. -/
def Program.misfit? (p : Program) (slots : List Float) : Option Mismatch :=
  if slots.length < p.slotCount then some (.slotsMissing p.slotCount slots.length)
  else (p.code.find? fun i => !i.inRange p slots).map fun i =>
    .operandOutOfRange i.operand i.opcode

def Program.run (A : Arithmetic) (p : Program) (slots : List Float) (limit : Nat) :
    Except Failure Float :=
  match p.misfit? slots with
  | some m => .error (.mismatch m)
  | none => do single (← p.runFrom A slots limit limit ⟨0, []⟩)

def Program.ofText (scope : Scope) (limits : Limits) (text : String) : Except Rejection Program := do
  return .ofExpr (← Expr.ofText scope limits text)

end BuildingCode.Machine

import BuildingCode.Expression.Tree

/-! Programs of a stack machine. Instructions carry what they need; an expression is lowered once
and run many times, so its numbers are pooled and its height on the stack is known beforehand. -/
namespace BuildingCode.Machine
open Expression

inductive Instr where
  | const (index : Nat)
  | load (slot : Nat)
  | neg
  | binary (op : BinaryOp)
  | call (f : MathFunction) (count : Nat)
  | jumpIfFalse (target : Nat)
  | jump (target : Nat)
deriving DecidableEq

structure Program where
  code : Array Instr
  constants : Array Float
  maxStack : Nat
  slotCount : Nat
deriving DecidableEq

def opcodeOf : BinaryOp → String
  | .add => "Add"
  | .sub => "Sub"
  | .mul => "Mul"
  | .div => "Div"
  | .rem => "Rem"
  | .pow => "Pow"
  | .lt => "Lt"
  | .le => "Le"
  | .gt => "Gt"
  | .ge => "Ge"
  | .eq => "Eq"
  | .ne => "Ne"

namespace Instr

def opcode : Instr → String
  | const _ => "Const"
  | load _ => "Load"
  | neg => "Neg"
  | binary op => opcodeOf op
  | call _ _ => "Call"
  | jumpIfFalse _ => "JumpIfFalse"
  | jump _ => "Jump"

def operand : Instr → Nat
  | const i | load i | jumpIfFalse i | jump i => i
  | call f _ => f.code
  | neg | binary _ => 0

def aux : Instr → Nat
  | call _ n => n
  | _ => 0

def slot? : Instr → Option Nat
  | load i => some i
  | _ => none

end Instr

def Program.referencedSlots (p : Program) : List Nat :=
  ((p.code.toList.filterMap Instr.slot?).mergeSort fun a b => decide (a ≤ b)).eraseDups

end BuildingCode.Machine

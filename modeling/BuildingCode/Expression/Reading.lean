import BuildingCode.Expression.Lexeme
import BuildingCode.Expression.Limits
import BuildingCode.Expression.Scope
import BuildingCode.Expression.Tree

/-! Reading an expression from its text. From loose to tight the levels are: conditional,
equality, comparison, sum, product, sign, power. Each level is written over the levels that it
nests, and two functions that recur on the room left for nesting close the circle. -/
namespace BuildingCode.Expression

/-- The lexemes not yet read and the number of nodes built so far. -/
structure Cursor where
  rest : List Lexeme
  nodes : Nat

abbrev Reader := StateT Cursor (Except Rejection)

namespace Reader

def peek : Reader (Option Token) := do return (← get).rest.head?.map (·.token)

def sees (t : Token) : Reader Bool := do return (← peek) == some t

def next : Reader (Option Lexeme) := do
  let s ← get
  match s.rest with
  | [] => return none
  | l :: ls => do
    set { s with rest := ls }
    return some l

def eat (t : Token) : Reader Bool := do
  if ← sees t then
    let _ ← next
    return true
  else return false

def expect (t : Token) (expected : Expected) : Reader Unit := do
  match ← next with
  | some l => if l.token = t then return () else throw (.unexpectedToken l.token expected l.start)
  | none => throw (.unexpectedEnd expected)

/-- Counts a node once everything below it is built. -/
def node (limit : Nat) (e : Expr) : Reader Expr := do
  let s ← get
  if limit < s.nodes + 1 then throw (.tooManyNodes limit)
  set { s with nodes := s.nodes + 1 }
  return e

def equalityOp : Token → Option BinaryOp
  | .eq => some .eq
  | .ne => some .ne
  | _ => none

def comparisonOp : Token → Option BinaryOp
  | .lt => some .lt
  | .le => some .le
  | .gt => some .gt
  | .ge => some .ge
  | _ => none

def sumOp : Token → Option BinaryOp
  | .plus => some .add
  | .minus => some .sub
  | _ => none

def productOp : Token → Option BinaryOp
  | .star => some .mul
  | .slash => some .div
  | .percent => some .rem
  | _ => none

/-- Reads on from a left operand as long as an operator of the level follows. Each round takes
an operator, so the lexemes that were left at the start are enough for the rounds. -/
def chainFrom (limit : Nat) (op? : Token → Option BinaryOp) (operand : Reader Expr) :
    (rounds : List Lexeme) → Expr → Reader Expr
  | [], a => return a
  | _ :: rounds, a => do
    match (← peek).bind op? with
    | none => return a
    | some op => do
      let _ ← next
      let b ← operand
      let e ← node limit (.binary op a b)
      chainFrom limit op? operand rounds e

def chain (limit : Nat) (op? : Token → Option BinaryOp) (operand : Reader Expr) : Reader Expr := do
  let a ← operand
  chainFrom limit op? operand (← get).rest a

def operators (limit : Nat) (sign : Reader Expr) : Reader Expr :=
  chain limit equalityOp (chain limit comparisonOp (chain limit sumOp (chain limit productOp sign)))

def conditional (limit : Nat) (whole sign : Reader Expr) : Reader Expr := do
  let c ← operators limit sign
  if ← eat .question then
    let t ← whole
    expect .colon .colon
    let e ← whole
    node limit (.conditional c t e)
  else return c

def argumentsFrom (whole : Reader Expr) : (rounds : List Lexeme) → Reader (List Expr)
  | [] => throw (.unexpectedEnd .commaOrClose)
  | _ :: rounds => do
    let e ← whole
    if ← eat .comma then return e :: (← argumentsFrom whole rounds)
    else
      expect .closeParen .commaOrClose
      return [e]

def arguments (whole : Reader Expr) : Reader (List Expr) := do
  let rounds := (← get).rest
  let _ ← next
  if ← eat .closeParen then return []
  else argumentsFrom whole rounds

def mathWord (limit : Nat) (whole : Reader Expr) (asMember : Bool) (word shown : String)
    (position : Nat) : Reader Expr := do
  if ← sees .openParen then
    match function? word with
    | none => throw (.unknownFunction shown position)
    | some f => do
      let args ← arguments whole
      if f.arity.accepts args.length then node limit (.call f args)
      else throw (.arity f args.length position)
  else match constant? asMember word with
    | some v => node limit (.number v)
    | none =>
      if (function? word).isSome then throw (.notAValue shown position)
      else if asMember then throw (.forbiddenAccess shown position)
      else throw (.unknownName shown position)

def boundName (limit : Nat) (slot : Nat) (shown : String) (position : Nat) : Reader Expr := do
  if ← sees .openParen then throw (.notCallable shown position)
  else node limit (.slot slot)

def memberName : Reader String := do
  match ← next with
  | some ⟨.name m, _, _⟩ => return m
  | some l => throw (.unexpectedToken l.token .memberName l.start)
  | none => throw (.unexpectedEnd .memberName)

def member (scope : Scope) (limit : Nat) (whole : Reader Expr) (root : String) (position : Nat) :
    Reader Expr := do
  let m ← memberName
  let path := root ++ "." ++ m
  if ← sees .dot then throw (.forbiddenAccess path position)
  else if root = valuesRoot then
    match scope.slot? m with
    | some slot => boundName limit slot path position
    | none =>
      if ← sees .openParen then throw (.notCallable path position)
      else throw (.unknownName path position)
  else if root = mathRoot then mathWord limit whole true m path position
  else throw (.forbiddenAccess path position)

def named (scope : Scope) (limit : Nat) (whole : Reader Expr) (name : String) (position : Nat) :
    Reader Expr := do
  if ← eat .dot then member scope limit whole name position
  else if name = valuesRoot ∨ name = mathRoot then throw (.forbiddenAccess name position)
  else match scope.slot? name with
    | some slot => boundName limit slot name position
    | none => mathWord limit whole false name name position

def primary (scope : Scope) (limit : Nat) (whole : Reader Expr) : Reader Expr := do
  match ← next with
  | none => throw (.unexpectedEnd .value)
  | some ⟨.number v, _, _⟩ => node limit (.number v)
  | some ⟨.openParen, _, _⟩ => do
    let e ← whole
    expect .closeParen .closeParen
    return e
  | some ⟨.name n, position, _⟩ => named scope limit whole n position
  | some l => throw (.unexpectedToken l.token .value l.start)

/-- A power binds tighter than a sign before it and takes a signed exponent. -/
def power (scope : Scope) (limit : Nat) (whole sign : Reader Expr) : Reader Expr := do
  let a ← primary scope limit whole
  if ← eat .power then
    let b ← sign
    node limit (.binary .pow a b)
  else return a

def signed (scope : Scope) (limit : Nat) (whole sign : Reader Expr) : Reader Expr := do
  if ← eat .minus then
    let e ← sign
    node limit (.neg e)
  else if ← eat .plus then sign
  else power scope limit whole sign

mutual
def whole (scope : Scope) (limits : Limits) : (room : Nat) → Reader Expr
  | 0 => throw (.tooDeep limits.depth)
  | room + 1 => conditional limits.nodes (whole scope limits room) (sign scope limits room)
/-- An operand, each of whose signs and exponents is a level of nesting as well. -/
def sign (scope : Scope) (limits : Limits) : (room : Nat) → Reader Expr
  | 0 => throw (.tooDeep limits.depth)
  | room + 1 => signed scope limits.nodes (whole scope limits room) (sign scope limits room)
end

end Reader

def Expr.ofLexemes (scope : Scope) (limits : Limits) (ls : List Lexeme) : Except Rejection Expr := do
  let (e, s) ← (Reader.whole scope limits limits.depth).run ⟨ls, 0⟩
  match s.rest with
  | [] => return e
  | l :: _ => throw (.unexpectedToken l.token .endOfText l.start)

def Expr.ofText (scope : Scope) (limits : Limits) (text : String) : Except Rejection Expr := do
  if limits.length < text.length then throw (.tooLong text.length limits.length)
  let ls ← lexemes text
  if ls.isEmpty then throw .empty
  Expr.ofLexemes scope limits ls

end BuildingCode.Expression

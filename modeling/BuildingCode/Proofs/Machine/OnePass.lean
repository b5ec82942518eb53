import BuildingCode.Proofs.Machine.Cells
import BuildingCode.Proofs.Machine.Pool

/-! Lowering in one pass from left to right. The pass does not know how long code will be, so a jump is
written without its target and aimed once the code behind it is there. It counts the values that the code
leaves on the stack, and comes to nothing where the count would fall below zero. It never does, and what it
writes is the program that is put together from its end. -/
namespace BuildingCode.Machine
open Expression

/-- Instructions in three columns. What they refer to is written in 32 bits. -/
structure Columns where
  opcodes : List String
  operands : List UInt32
  counts : List UInt32

namespace Columns

def ofCode (code : List Instr) : Columns where
  opcodes := code.map Instr.opcode
  operands := code.map fun i => .ofNat i.operand
  counts := code.map fun i => .ofNat i.aux

def length (c : Columns) : Nat := c.opcodes.length

def write (c : Columns) (i : Instr) : Columns where
  opcodes := c.opcodes ++ [i.opcode]
  operands := c.operands ++ [.ofNat i.operand]
  counts := c.counts ++ [.ofNat i.aux]

def aim (c : Columns) (address : Nat) : Columns :=
  { c with operands := c.operands.set address (.ofNat c.length) }

@[simp] theorem length_ofCode (code : List Instr) : (ofCode code).length = code.length :=
  List.length_map _

@[simp] theorem write_ofCode (code : List Instr) (i : Instr) :
    (ofCode code).write i = ofCode (code ++ [i]) := by
  simp [ofCode, write]

theorem aim_ofCode {front back : List Instr} {i j : Instr} {address : Nat}
    (here : front.length = address) (opcode : i.opcode = j.opcode) (aux : i.aux = j.aux)
    (target : j.operand = (front ++ i :: back).length) :
    (ofCode (front ++ i :: back)).aim address = ofCode (front ++ j :: back) := by
  subst here
  have length : (ofCode (front ++ i :: back)).length = j.operand := by rw [length_ofCode, target]
  unfold aim
  rw [length]
  simp [ofCode, opcode, aux]

end Columns

/-- A program as far as it is written, and the number of values that it leaves on the stack. -/
structure Tape where
  columns : Columns
  constants : Array Float
  depth : Nat
  maxStack : Nat
  slotCount : Nat

namespace Tape

def empty : Tape := ⟨.ofCode [], #[], 0, 0, 0⟩

def write (t : Tape) (i : Instr) : Tape := { t with columns := t.columns.write i }

def aim (t : Tape) (address : Nat) : Tape := { t with columns := t.columns.aim address }

def grow (t : Tape) (n : Nat) : Tape :=
  { t with depth := t.depth + n, maxStack := max t.maxStack (t.depth + n) }

def shrink? (t : Tape) (n : Nat) : Option Tape :=
  if n ≤ t.depth then some { t with depth := t.depth - n } else none

def writeNumber (t : Tape) (v : Float) : Tape :=
  let constants := pool t.constants v
  { t with constants }.write (.const (poolIndex constants v))

def writeLoad (t : Tape) (slot : Nat) : Tape :=
  { t with slotCount := max t.slotCount (slot + 1) }.write (.load slot)

mutual
def lower : Expr → Tape → Option Tape
  | .number v, t => some ((t.writeNumber v).grow 1)
  | .slot i, t => some ((t.writeLoad i).grow 1)
  | .neg e, t => do return (← lower e t).write .neg
  | .binary op a b, t => do
    let t ← lower a t
    let t ← lower b t
    (t.write (.binary op)).shrink? 1
  | .call f args, t => do
    let t ← lowerAll args t
    let t ← (t.write (.call f args.length)).shrink? args.length
    return t.grow 1
  | .conditional c e other, t => do
    let t ← lower c t
    let branch := t.columns.length
    let t ← (t.write (.jumpIfFalse 0)).shrink? 1
    let t ← lower e t
    let skip := t.columns.length
    let t ← (t.write (.jump 0)).shrink? 1
    let t ← lower other (t.aim branch)
    return t.aim skip
def lowerAll : List Expr → Tape → Option Tape
  | [], t => some t
  | e :: es, t => do
    let t ← lower e t
    lowerAll es t
end

/-- The pool becomes the other one when more numbers are pooled. -/
def Leads (known constants : Array Float) : Prop :=
  ∃ later : List Float, later.foldl pool known = constants

theorem Leads.of_foldl {vs : List Float} {known constants : Array Float}
    (leads : Leads (vs.foldl pool known) constants) : Leads known constants := by
  obtain ⟨later, rfl⟩ := leads
  exact ⟨vs ++ later, List.foldl_append⟩

theorem Leads.poolIndex {known constants : Array Float} (leads : Leads known constants) {v : Float}
    (h : v ∈ known) : poolIndex constants v = Machine.poolIndex known v := by
  obtain ⟨later, rfl⟩ := leads
  exact poolIndex_foldl later h

/-- The first jump of a conditional comes to go behind the arm that it leads past, the second one behind
both arms. -/
theorem lower_conditional {c e other : Expr} {t : Tape} {front arm rest : List Instr}
    {known known' known'' : Array Float} {depth top top' top'' slots slots' slots'' target finish : Nat}
    (targetEq : target = front.length + arm.length + 2) (finishEq : finish = target + rest.length)
    (condition : lower c t = some ⟨.ofCode front, known, depth + 1, top, slots⟩)
    (taken : lower e ⟨.ofCode (front ++ [.jumpIfFalse 0]), known, depth, top, slots⟩ =
      some ⟨.ofCode (front ++ [.jumpIfFalse 0] ++ arm), known', depth + 1, top', slots'⟩)
    (skipped : lower other
        ⟨.ofCode (front ++ .jumpIfFalse target :: (arm ++ [.jump 0])), known', depth, top', slots'⟩ =
      some ⟨.ofCode (front ++ .jumpIfFalse target :: (arm ++ [.jump 0]) ++ rest), known'', depth + 1,
        top'', slots''⟩) :
    lower (.conditional c e other) t = some
      ⟨.ofCode (front ++ .jumpIfFalse target :: (arm ++ .jump finish :: rest)), known'', depth + 1,
        top'', slots''⟩ := by
  have branch : (Columns.ofCode (front ++ .jumpIfFalse 0 :: (arm ++ [.jump 0]))).aim front.length =
      .ofCode (front ++ .jumpIfFalse target :: (arm ++ [.jump 0])) := by
    refine Columns.aim_ofCode rfl rfl rfl ?_
    simp only [Instr.operand, List.length_append, List.length_cons, List.length_nil]
    omega
  have skip : (Columns.ofCode (front ++ .jumpIfFalse target :: arm ++ .jump 0 :: rest)).aim
      (front ++ .jumpIfFalse 0 :: arm).length =
        .ofCode (front ++ .jumpIfFalse target :: arm ++ .jump finish :: rest) := by
    refine Columns.aim_ofCode (by simp) rfl rfl ?_
    simp only [Instr.operand, List.length_append, List.length_cons]
    omega
  simp only [List.append_assoc, List.cons_append, List.nil_append] at taken skipped skip
  simp only [lower, condition, taken, Option.bind_eq_bind, Option.bind_some, write,
    Columns.write_ofCode, shrink?, if_pos (Nat.le_add_left 1 depth), Nat.add_sub_cancel, aim,
    Columns.length_ofCode, List.append_assoc, List.cons_append, branch, skipped, skip]
  rfl

section
variable {constants : Array Float}

mutual
/-- The pass writes the cells of an expression behind the code that is there and leaves one more value
on the stack. Their indices are those of the finished pool. -/
theorem lower_eq {code : List Instr} {start : Nat} (here : code.length = start) {known : Array Float}
    {depth top : Nat} (below : depth ≤ top) (slots : Nat) : ∀ e : Expr,
    Leads (e.literals.foldl pool known) constants →
    lower e ⟨.ofCode code, known, depth, top, slots⟩ =
      some ⟨.ofCode (code ++ (cells constants start depth e).map Cell.instr),
        e.literals.foldl pool known, depth + 1, max top (depth + stackHeight e),
        max slots e.slotCount⟩
  | .number v, leads => by
    have index := leads.poolIndex (mem_pool_self known v)
    simp only [lower, writeNumber, write, grow, Columns.write_ofCode, cells, Expr.literals,
      List.foldl_cons, List.foldl_nil, index, List.map_singleton, stackHeight, Expr.slotCount,
      Nat.max_zero]
  | .slot i, _ => by
    simp only [lower, writeLoad, write, grow, Columns.write_ofCode, cells, Expr.literals,
      List.foldl_nil, List.map_singleton, stackHeight, Expr.slotCount]
  | .neg e, leads => by
    have inner := lower_eq here below slots e leads
    simp only [lower, inner, write, Option.bind_eq_bind, Option.bind_some, Columns.write_ofCode,
      cells, List.map_append, List.append_assoc]
    rfl
  | .binary op a b, leads => by
    simp only [Expr.literals, List.foldl_append] at leads
    have positive := stackHeight_pos a
    have left := lower_eq here below slots a leads.of_foldl
    have between : (code ++ (cells constants start depth a).map Cell.instr).length =
        start + codeSize a := by simp [here]
    have right := lower_eq between
      (show depth + 1 ≤ max top (depth + stackHeight a) by omega) (max slots a.slotCount) b leads
    have heights : max (max top (depth + stackHeight a)) (depth + 1 + stackHeight b) =
        max top (depth + max (stackHeight a) (stackHeight b + 1)) := by omega
    simp only [lower, left, right, heights, Option.bind_eq_bind, Option.bind_some, write,
      Columns.write_ofCode, shrink?, if_pos (Nat.le_add_left 1 (depth + 1)), cells, Expr.literals,
      List.foldl_append, List.map_append, List.append_assoc, stackHeight, Expr.slotCount,
      Nat.max_assoc]
    rfl
  | .call f args, leads => by
    have inner := lowerAll_eq here below slots args leads
    have heights : max (max top (depth + stackHeightAll args)) (depth + 1) =
        max top (depth + max (stackHeightAll args) 1) := by omega
    simp only [lower, inner, Option.bind_eq_bind, Option.bind_some, write, Columns.write_ofCode,
      shrink?, if_pos (Nat.le_add_left args.length depth), Nat.add_sub_cancel, grow, heights, cells,
      List.map_append, List.append_assoc]
    rfl
  | .conditional c t e, leads => by
    simp only [Expr.literals, List.foldl_append] at leads
    have behindBranch : (code ++ (cells constants start depth c).map Cell.instr ++
        [Instr.jumpIfFalse 0]).length = start + codeSize c + 1 := by
      simp [here]
      omega
    have behindSkip : (code ++ (cells constants start depth c).map Cell.instr ++
        Instr.jumpIfFalse (start + codeSize c + 1 + codeSize t + 1) ::
          ((cells constants (start + codeSize c + 1) depth t).map Cell.instr ++ [.jump 0])).length =
        start + codeSize c + 1 + codeSize t + 1 := by
      simp [here]
      omega
    have condition := lower_eq here below slots c leads.of_foldl.of_foldl
    have taken := lower_eq behindBranch
      (show depth ≤ max top (depth + stackHeight c) by omega) (max slots c.slotCount) t leads.of_foldl
    have skipped := lower_eq behindSkip
      (show depth ≤ max (max top (depth + stackHeight c)) (depth + stackHeight t) by omega)
      (max (max slots c.slotCount) t.slotCount) e leads
    have heights : max (max (max top (depth + stackHeight c)) (depth + stackHeight t))
        (depth + stackHeight e) =
          max top (depth + max (stackHeight c) (max (stackHeight t) (stackHeight e))) := by omega
    have whole := lower_conditional (by simp [here]; omega) rfl condition taken skipped
    rw [whole, heights]
    simp only [cells, Expr.literals, List.foldl_append, List.map_append, List.map_cons,
      List.append_assoc, stackHeight, Expr.slotCount, Nat.max_assoc, length_cells, List.length_map]
theorem lowerAll_eq {code : List Instr} {start : Nat} (here : code.length = start)
    {known : Array Float} {depth top : Nat} (below : depth ≤ top) (slots : Nat) : ∀ es : List Expr,
    Leads ((Expr.literalsAll es).foldl pool known) constants →
    lowerAll es ⟨.ofCode code, known, depth, top, slots⟩ =
      some ⟨.ofCode (code ++ (cellsAll constants start depth es).map Cell.instr),
        (Expr.literalsAll es).foldl pool known, depth + es.length,
        max top (depth + stackHeightAll es), max slots (Expr.slotCountAll es)⟩
  | [], _ => by
    simp [lowerAll, cellsAll, Expr.literalsAll, stackHeightAll, Expr.slotCountAll, below]
  | e :: es, leads => by
    simp only [Expr.literalsAll, List.foldl_append] at leads
    have positive := stackHeight_pos e
    have first := lower_eq here below slots e leads.of_foldl
    have between : (code ++ (cells constants start depth e).map Cell.instr).length =
        start + codeSize e := by simp [here]
    have rest := lowerAll_eq between
      (show depth + 1 ≤ max top (depth + stackHeight e) by omega) (max slots e.slotCount) es leads
    have heights : max (max top (depth + stackHeight e)) (depth + 1 + stackHeightAll es) =
        max top (depth + max (stackHeight e) (stackHeightAll es + 1)) := by omega
    have count : depth + 1 + es.length = depth + (es.length + 1) := by omega
    simp only [lowerAll, first, rest, heights, count, Option.bind_eq_bind, Option.bind_some, cellsAll,
      Expr.literalsAll, List.foldl_append, List.map_append, List.append_assoc, stackHeightAll,
      List.length_cons, Expr.slotCountAll, Nat.max_assoc]
end

end

theorem lower_empty (e : Expr) : lower e empty = some
    ⟨.ofCode (Program.ofExpr e).code.toList, (Program.ofExpr e).constants, 1,
      (Program.ofExpr e).maxStack, (Program.ofExpr e).slotCount⟩ := by
  have written := lower_eq (show ([] : List Instr).length = 0 from rfl) (Nat.le_refl 0) 0 e
    (⟨[], rfl⟩ : Leads (e.literals.foldl pool #[]) (poolAll e.literals))
  rw [Program.code_ofExpr]
  simpa [empty, Program.layout, Program.ofExpr, poolAll] using written

end Tape
end BuildingCode.Machine

import BuildingCode.Machine.Lowering

/-! Lowered code as a list that is put together from left to right. Every instruction stands beside
the height of the stack before it, so one description says what the code computes and how high the
stack gets. -/
namespace BuildingCode.Machine
open Expression

/-- An instruction and the height of the stack before it. -/
structure Cell where
  height : Nat
  instr : Instr

mutual
/-- The code of an expression from an address on, over a stack of a height. -/
def cells (constants : Array Float) (start height : Nat) : Expr → List Cell
  | .number v => [⟨height, .const (poolIndex constants v)⟩]
  | .slot i => [⟨height, .load i⟩]
  | .neg e => cells constants start height e ++ [⟨height + 1, .neg⟩]
  | .binary op a b =>
    cells constants start height a ++
      (cells constants (start + codeSize a) (height + 1) b ++ [⟨height + 2, .binary op⟩])
  | .call f args =>
    cellsAll constants start height args ++ [⟨height + args.length, .call f args.length⟩]
  | .conditional c t e =>
    cells constants start height c ++
      (⟨height + 1, .jumpIfFalse (start + codeSize c + 1 + codeSize t + 1)⟩ ::
        (cells constants (start + codeSize c + 1) height t ++
          (⟨height + 1, .jump (start + codeSize c + 1 + codeSize t + 1 + codeSize e)⟩ ::
            cells constants (start + codeSize c + 1 + codeSize t + 1) height e)))
def cellsAll (constants : Array Float) (start height : Nat) : List Expr → List Cell
  | [] => []
  | e :: es =>
    cells constants start height e ++ cellsAll constants (start + codeSize e) (height + 1) es
end

mutual
@[simp] theorem length_cells (constants : Array Float) (start height : Nat) :
    ∀ e : Expr, (cells constants start height e).length = codeSize e
  | .number _ | .slot _ => rfl
  | .neg e => by simp [cells, codeSize, length_cells constants _ _ e]
  | .binary _ a b => by
    simp only [cells, codeSize, List.length_append, List.length_singleton,
      length_cells constants _ _ a, length_cells constants _ _ b]
    omega
  | .call _ args => by simp [cells, codeSize, length_cellsAll constants _ _ args]
  | .conditional c t e => by
    simp only [cells, codeSize, List.length_append, List.length_cons,
      length_cells constants _ _ c, length_cells constants _ _ t, length_cells constants _ _ e]
    omega
@[simp] theorem length_cellsAll (constants : Array Float) (start height : Nat) :
    ∀ es : List Expr, (cellsAll constants start height es).length = codeSizeAll es
  | [] => rfl
  | e :: es => by
    simp [cellsAll, codeSizeAll, length_cells constants _ _ e, length_cellsAll constants _ _ es]
end

/-- `G` is inherited by the parts of a tree, and `P` follows from it for the cells of the tree that
belong to none of them. -/
structure Inherited (constants : Array Float) (P : Cell → Prop) (G : Nat → Expr → Nat → Prop)
    (Gs : Nat → List Expr → Nat → Prop) : Prop where
  number : ∀ start height v, G start (.number v) height → P ⟨height, .const (poolIndex constants v)⟩
  slot : ∀ start height i, G start (.slot i) height → P ⟨height, .load i⟩
  neg : ∀ start height e, G start (.neg e) height → G start e height ∧ P ⟨height + 1, .neg⟩
  binary : ∀ start height op a b, G start (.binary op a b) height →
    G start a height ∧ G (start + codeSize a) b (height + 1) ∧ P ⟨height + 2, .binary op⟩
  call : ∀ start height f args, G start (.call f args) height →
    Gs start args height ∧ P ⟨height + args.length, .call f args.length⟩
  conditional : ∀ start height c t e, G start (.conditional c t e) height →
    G start c height ∧ P ⟨height + 1, .jumpIfFalse (start + codeSize c + 1 + codeSize t + 1)⟩ ∧
    G (start + codeSize c + 1) t height ∧
    P ⟨height + 1, .jump (start + codeSize c + 1 + codeSize t + 1 + codeSize e)⟩ ∧
    G (start + codeSize c + 1 + codeSize t + 1) e height
  cons : ∀ start height e es, Gs start (e :: es) height →
    G start e height ∧ Gs (start + codeSize e) es (height + 1)

section
variable {constants : Array Float} {P : Cell → Prop} {G : Nat → Expr → Nat → Prop}
  {Gs : Nat → List Expr → Nat → Prop} (inherited : Inherited constants P G Gs)
include inherited

mutual
theorem Inherited.cells (start height : Nat) : ∀ e : Expr, G start e height →
    ∀ cell ∈ cells constants start height e, P cell
  | .number v, good => by
    intro cell member
    rw [List.mem_singleton.mp member]
    exact inherited.number start height v good
  | .slot i, good => by
    intro cell member
    rw [List.mem_singleton.mp member]
    exact inherited.slot start height i good
  | .neg e, good => by
    obtain ⟨inner, own⟩ := inherited.neg start height e good
    intro cell member
    rcases List.mem_append.mp member with member | last
    · exact Inherited.cells start height e inner cell member
    · rw [List.mem_singleton.mp last]
      exact own
  | .binary op a b, good => by
    obtain ⟨left, right, own⟩ := inherited.binary start height op a b good
    intro cell member
    simp only [Machine.cells, List.mem_append, List.mem_singleton] at member
    rcases member with member | member | rfl
    · exact Inherited.cells start height a left cell member
    · exact Inherited.cells (start + codeSize a) (height + 1) b right cell member
    · exact own
  | .call f args, good => by
    obtain ⟨inner, own⟩ := inherited.call start height f args good
    intro cell member
    rcases List.mem_append.mp member with member | last
    · exact Inherited.cellsAll start height args inner cell member
    · rw [List.mem_singleton.mp last]
      exact own
  | .conditional c t e, good => by
    obtain ⟨condition, branch, taken, skip, other⟩ := inherited.conditional start height c t e good
    intro cell member
    simp only [Machine.cells, List.mem_append, List.mem_cons] at member
    rcases member with member | rfl | member | rfl | member
    · exact Inherited.cells start height c condition cell member
    · exact branch
    · exact Inherited.cells _ height t taken cell member
    · exact skip
    · exact Inherited.cells _ height e other cell member
theorem Inherited.cellsAll (start height : Nat) : ∀ es : List Expr, Gs start es height →
    ∀ cell ∈ cellsAll constants start height es, P cell
  | [], _ => by simp [Machine.cellsAll]
  | e :: es, good => by
    obtain ⟨first, later⟩ := inherited.cons start height e es good
    intro cell member
    rcases List.mem_append.mp member with member | member
    · exact Inherited.cells start height e first cell member
    · exact Inherited.cellsAll (start + codeSize e) (height + 1) es later cell member
end

end

theorem stackHeight_pos : ∀ e : Expr, 0 < stackHeight e
  | .number _ | .slot _ => by simp [stackHeight]
  | .neg e => by simpa only [stackHeight] using stackHeight_pos e
  | .binary _ _ _ => by simp only [stackHeight]; omega
  | .call _ _ => by simp only [stackHeight]; omega
  | .conditional c _ _ => by
    have := stackHeight_pos c
    simp only [stackHeight]
    omega

theorem Placed.push_succ (start : Nat) (code : List Instr) (i : Instr) :
    Placed.push ⟨start + 1, code⟩ i = ⟨start, i :: code⟩ := rfl

mutual
/-- Emitting in front of placed code puts the cells there. -/
theorem emit_eq_cells (constants : Array Float) (start height : Nat) (code : List Instr) :
    ∀ e : Expr, emit constants e ⟨start + codeSize e, code⟩ =
      ⟨start, (cells constants start height e).map Cell.instr ++ code⟩
  | .number _ | .slot _ => rfl
  | .neg e => by
    simp only [emit, codeSize, ← Nat.add_assoc, Placed.push_succ,
      emit_eq_cells constants start height _ e, cells, List.map_append, List.append_assoc]
    rfl
  | .binary op a b => by
    simp only [emit, codeSize, ← Nat.add_assoc, Placed.push_succ,
      emit_eq_cells constants _ (height + 1) _ b, emit_eq_cells constants start height _ a, cells,
      List.map_append, List.append_assoc]
    rfl
  | .call f args => by
    simp only [emit, codeSize, ← Nat.add_assoc, Placed.push_succ,
      emitAll_eq_cellsAll constants start height _ args, cells, List.map_append, List.append_assoc]
    rfl
  | .conditional c t e => by
    have sizes : start + codeSize (.conditional c t e) =
        start + codeSize c + 1 + codeSize t + 1 + codeSize e := by simp only [codeSize]; omega
    rw [sizes]
    simp only [emit, Placed.push_succ, emit_eq_cells constants _ height _ e,
      emit_eq_cells constants _ height _ t, emit_eq_cells constants start height _ c, cells,
      List.map_append, List.map_cons, List.append_assoc, List.cons_append]
theorem emitAll_eq_cellsAll (constants : Array Float) (start height : Nat) (code : List Instr) :
    ∀ es : List Expr, emitAll constants es ⟨start + codeSizeAll es, code⟩ =
      ⟨start, (cellsAll constants start height es).map Cell.instr ++ code⟩
  | [] => rfl
  | e :: es => by
    simp only [emitAll, codeSizeAll, ← Nat.add_assoc,
      emitAll_eq_cellsAll constants _ (height + 1) _ es, emit_eq_cells constants start height _ e,
      cellsAll, List.map_append, List.append_assoc]
end

@[simp] theorem Program.maxStack_ofExpr (e : Expr) :
    (Program.ofExpr e).maxStack = stackHeight e := rfl

@[simp] theorem Program.slotCount_ofExpr (e : Expr) :
    (Program.ofExpr e).slotCount = e.slotCount := rfl

def Program.layout (e : Expr) : List Cell := cells (poolAll e.literals) 0 0 e

@[simp] theorem Program.length_layout (e : Expr) : (Program.layout e).length = codeSize e :=
  length_cells _ _ _ e

theorem Program.code_ofExpr (e : Expr) :
    (Program.ofExpr e).code = ((Program.layout e).map Cell.instr).toArray := by
  have emitted := emit_eq_cells (poolAll e.literals) 0 0 [] e
  rw [Nat.zero_add, List.append_nil] at emitted
  simp only [Program.ofExpr, Program.layout, emitted]

@[simp] theorem Program.size_code_ofExpr (e : Expr) :
    (Program.ofExpr e).code.size = codeSize e := by
  simp [Program.code_ofExpr]

end BuildingCode.Machine

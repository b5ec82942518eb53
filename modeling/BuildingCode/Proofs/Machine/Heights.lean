import BuildingCode.Proofs.Expression.Resolved
import BuildingCode.Proofs.Machine.Correctness
import BuildingCode.Proofs.Machine.Steps

/-! The height of the stack at every position of lowered code. It is known before the program runs,
on both arms of every conditional, and no instruction takes more than is there. -/
namespace BuildingCode.Machine
open Expression

def Cell.Checked (H : Nat → Nat → Prop) (address : Nat) (c : Cell) : Prop :=
  c.instr.pops ≤ c.height ∧
    ∀ next ∈ c.instr.successors address, H next (c.height - c.instr.pops + c.instr.pushes)

section
variable {H : Nat → Nat → Prop} {constants : Array Float}

/-- `H` says of the positions of cells what the cells say. -/
def Agrees (H : Nat → Nat → Prop) (start : Nat) (cs : List Cell) : Prop :=
  Along (fun address c => H address c.height) start cs

mutual
theorem Agrees.entry (start height : Nat) : ∀ e : Expr,
    Agrees H start (cells constants start height e) → H start height
  | .number _, h | .slot _, h => h.1
  | .neg e, h => Agrees.entry start height e ((Along.append _ _ _).mp h).1
  | .binary _ a _, h => Agrees.entry start height a ((Along.append _ _ _).mp h).1
  | .call _ args, h => by
    simp only [Agrees, cells, Along.append, length_cellsAll, Along.cons] at h
    exact Agrees.entryAll start height args h.1 h.2.1
  | .conditional c _ _, h => Agrees.entry start height c ((Along.append _ _ _).mp h).1
theorem Agrees.entryAll (start height : Nat) : ∀ es : List Expr,
    Agrees H start (cellsAll constants start height es) →
      H (start + codeSizeAll es) (height + es.length) → H start height
  | [], _, after => after
  | e :: _, h, _ => Agrees.entry start height e ((Along.append _ _ _).mp h).1
end

mutual
theorem checked_cells (start height : Nat) : ∀ e : Expr,
    Agrees H start (cells constants start height e) → H (start + codeSize e) (height + 1) →
      Along (Cell.Checked H) start (cells constants start height e)
  | .number _, _, after | .slot _, _, after => by
    simpa [cells, Cell.Checked, Instr.pops, Instr.pushes, Instr.successors, codeSize] using after
  | .neg e, h, after => by
    simp only [Agrees, cells, Along.append, length_cells, Along.cons] at h
    simp only [cells, Along.append, length_cells, Along.cons]
    refine ⟨checked_cells start height e h.1 h.2.1, ⟨Nat.succ_pos height, ?_⟩, trivial⟩
    simpa [Instr.pops, Instr.pushes, Instr.successors, codeSize, Nat.add_assoc] using after
  | .binary op a b, h, after => by
    simp only [Agrees, cells, Along.append, length_cells, Along.cons] at h
    simp only [cells, Along.append, length_cells, Along.cons]
    have between := Agrees.entry (start + codeSize a) (height + 1) b h.2.1
    refine ⟨checked_cells start height a h.1 between,
      checked_cells (start + codeSize a) (height + 1) b h.2.1 h.2.2.1,
      ⟨Nat.le_add_left 2 height, ?_⟩, trivial⟩
    simpa [Instr.pops, Instr.pushes, Instr.successors, codeSize, Nat.add_assoc] using after
  | .call f args, h, after => by
    simp only [Agrees, cells, Along.append, length_cellsAll, Along.cons] at h
    simp only [cells, Along.append, length_cellsAll, Along.cons]
    refine ⟨checked_cellsAll start height args h.1 h.2.1,
      ⟨Nat.le_add_left args.length height, ?_⟩, trivial⟩
    simpa [Instr.pops, Instr.pushes, Instr.successors, codeSize, Nat.add_assoc] using after
  | .conditional c t e, h, after => by
    simp only [Agrees, cells, Along.append, length_cells, Along.cons] at h
    simp only [cells, Along.append, length_cells, Along.cons]
    obtain ⟨inC, atBranch, inT, atSkip, inE⟩ := h
    have finish : start + codeSize (.conditional c t e) =
        start + codeSize c + 1 + codeSize t + 1 + codeSize e := by
      simp only [codeSize]
      omega
    rw [finish] at after
    have enterT := Agrees.entry (start + codeSize c + 1) height t inT
    have enterE := Agrees.entry (start + codeSize c + 1 + codeSize t + 1) height e inE
    refine ⟨checked_cells start height c inC atBranch, ⟨Nat.succ_pos height, ?_⟩,
      checked_cells (start + codeSize c + 1) height t inT atSkip, ⟨Nat.zero_le _, ?_⟩,
      checked_cells (start + codeSize c + 1 + codeSize t + 1) height e inE after⟩
    · simpa [Instr.pops, Instr.pushes, Instr.successors] using ⟨enterT, enterE⟩
    · simpa [Instr.pops, Instr.pushes, Instr.successors] using after
theorem checked_cellsAll (start height : Nat) : ∀ es : List Expr,
    Agrees H start (cellsAll constants start height es) →
      H (start + codeSizeAll es) (height + es.length) →
        Along (Cell.Checked H) start (cellsAll constants start height es)
  | [], _, _ => trivial
  | e :: es, h, after => by
    simp only [Agrees, cellsAll, Along.append, length_cells] at h
    simp only [cellsAll, Along.append, length_cells]
    have finish : start + codeSizeAll (e :: es) = start + codeSize e + codeSizeAll es := by
      simp only [codeSizeAll]
      omega
    have top : height + (e :: es).length = height + 1 + es.length := by
      rw [List.length_cons]
      omega
    rw [finish, top] at after
    have between := Agrees.entryAll (start + codeSize e) (height + 1) es h.2 after
    exact ⟨checked_cells start height e h.1 between,
      checked_cellsAll (start + codeSize e) (height + 1) es h.2 after⟩
end

theorem length_le_stackHeightAll (es : List Expr) : es.length ≤ stackHeightAll es := by
  induction es with
  | nil => exact Nat.le_refl 0
  | cons e es ih =>
    simp only [stackHeightAll, List.length_cons]
    omega

theorem inherited_height (top : Nat) : Inherited constants (fun cell => cell.height ≤ top)
    (fun _ e height => height + stackHeight e ≤ top)
    (fun _ es height => height + stackHeightAll es ≤ top) where
  number _ height _ below := Nat.le_of_succ_le below
  slot _ height _ below := Nat.le_of_succ_le below
  neg _ height e below := by
    simp only [stackHeight] at below
    have positive := stackHeight_pos e
    dsimp only
    omega
  binary _ height _ a b below := by
    simp only [stackHeight] at below
    have positive := stackHeight_pos b
    dsimp only
    omega
  call _ height _ args below := by
    simp only [stackHeight] at below
    have enough := length_le_stackHeightAll args
    dsimp only
    omega
  conditional _ height c t e below := by
    simp only [stackHeight] at below
    have positive := stackHeight_pos c
    dsimp only
    omega
  cons _ height e es below := by
    simp only [stackHeightAll] at below
    omega

theorem inherited_accepted (slots : Nat) : Inherited constants
    (fun cell => cell.instr.accepted = true) (fun _ e _ => e.Resolved slots)
    (fun _ es _ => Expr.ResolvedAll slots es) where
  number _ _ _ _ := rfl
  slot _ _ _ _ := rfl
  neg _ _ _ resolved := ⟨resolved, rfl⟩
  binary _ _ _ _ _ resolved := ⟨resolved.1, resolved.2, rfl⟩
  call _ _ _ _ resolved := ⟨resolved.2, resolved.1⟩
  conditional _ _ _ _ _ resolved := ⟨resolved.1, rfl, resolved.2.1, rfl, resolved.2.2⟩
  cons _ _ _ _ resolved := resolved

end
end BuildingCode.Machine

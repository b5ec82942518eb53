import BuildingCode.Proofs.Expression.Renaming
import BuildingCode.Proofs.Machine.Correctness
import BuildingCode.Proofs.Machine.References

/-! What a run has from its slots: the values that its loads find, and nothing else. So other values in
slots that the program does not refer to make no difference, nor does it matter where the slots are. -/
namespace BuildingCode.Machine
open Expression

section
variable {A : Arithmetic} {p q : Program} {slots slots' : List Float}

/-- At every address the instructions of the two programs do the same to any state. -/
def Program.ActsLike (A : Arithmetic) (p : Program) (slots : List Float) (q : Program)
    (slots' : List Float) : Prop :=
  ∀ k : Nat, Option.Rel
    (fun i j => ∀ s, step A p.constants slots s i = step A q.constants slots' s j) p.code[k]? q.code[k]?

theorem Program.ActsLike.runFrom (alike : ActsLike A p slots q slots') (limit budget : Nat)
    (s : State) : p.runFrom A slots limit budget s = q.runFrom A slots' limit budget s := by
  induction budget generalizing s with
  | zero =>
    have here := alike s.position
    generalize first : p.code[s.position]? = i, second : q.code[s.position]? = j at here
    cases here with
    | none => rw [runFrom_at_end A slots limit 0 first, runFrom_at_end A slots' limit 0 second]
    | some _ => rw [runFrom_zero first, runFrom_zero second]
  | succ budget ih =>
    have here := alike s.position
    generalize first : p.code[s.position]? = i, second : q.code[s.position]? = j at here
    cases here with
    | none => rw [runFrom_at_end A slots limit _ first, runFrom_at_end A slots' limit _ second]
    | some same =>
      rw [runFrom_succ first, runFrom_succ second, same s]
      exact bind_congr ih

theorem step_congr {i : Instr} (same : ∀ k, i.slot? = some k → slots[k]? = slots'[k]?)
    (constants : Array Float) (s : State) :
    step A constants slots s i = step A constants slots' s i := by
  cases i with
  | load k => simp only [step, same k rfl]
  | _ => rfl

theorem Program.mem_referencedSlots {i : Instr} {k : Nat} (member : i ∈ p.code)
    (loads : i.slot? = some k) : k ∈ p.referencedSlots := by
  simp only [referencedSlots, List.mem_eraseDups, List.mem_mergeSort, List.mem_filterMap]
  exact ⟨i, Array.mem_toList_iff.mpr member, loads⟩

/-- Slots that a program does not refer to may hold anything, and there may be more or fewer of them. -/
theorem Program.run_referenced {e : Expr} (covered : (ofExpr e).slotCount ≤ slots.length)
    (covered' : (ofExpr e).slotCount ≤ slots'.length)
    (same : ∀ k ∈ (ofExpr e).referencedSlots, slots[k]? = slots'[k]?) (A : Arithmetic) (limit : Nat) :
    (ofExpr e).run A slots limit = (ofExpr e).run A slots' limit := by
  have alike : ActsLike A (ofExpr e) slots (ofExpr e) slots' := by
    intro k
    cases found : (ofExpr e).code[k]? with
    | none => exact .none
    | some i =>
      exact .some (step_congr (fun k loads =>
        same k (mem_referencedSlots (Array.mem_of_getElem? found) loads)) _)
  rw [run, run, misfit?_ofExpr covered, misfit?_ofExpr covered']
  simp only [alike.runFrom]

theorem Program.run_referenced_skipped :
    let e : Expr := .binary .div (.slot 0) (.slot 2)
    (ofExpr e).slotCount ≤ [(1.0 : Float), 2.0, 0.0].length ∧
      (ofExpr e).slotCount ≤ [(1.0 : Float), 3.0, 0.0, 4.0].length ∧
      (∀ k ∈ (ofExpr e).referencedSlots,
        [(1.0 : Float), 2.0, 0.0][k]? = [(1.0 : Float), 3.0, 0.0, 4.0][k]?) ∧
      (ofExpr e).run .standard [1.0, 2.0, 0.0] 3 = .error .divisionByZero ∧
      (ofExpr e).run .standard [1.0, 3.0, 0.0, 4.0] 3 = .error .divisionByZero := by
  intro e
  have covered : (ofExpr e).slotCount ≤ [(1.0 : Float), 2.0, 0.0].length := by decide
  have covered' : (ofExpr e).slotCount ≤ [(1.0 : Float), 3.0, 0.0, 4.0].length := by decide
  have same : ∀ k ∈ (ofExpr e).referencedSlots,
      [(1.0 : Float), 2.0, 0.0][k]? = [(1.0 : Float), 3.0, 0.0, 4.0][k]? := by
    intro k member
    rw [mem_referencedSlots_iff] at member
    obtain rfl | rfl : k = 0 ∨ k = 2 := by simpa [e, Expr.references] using member
    · rfl
    · rfl
  have failed : (ofExpr e).run .standard [1.0, 2.0, 0.0] 3 = .error .divisionByZero := by
    decide +kernel
  exact ⟨covered, covered', same, failed, run_referenced covered covered' same .standard 3 ▸ failed⟩

end

namespace Instr

def rename (σ : Nat → Nat) : Instr → Instr
  | load i => load (σ i)
  | i => i

end Instr

def Cell.rename (σ : Nat → Nat) (c : Cell) : Cell := ⟨c.height, c.instr.rename σ⟩

section
variable (σ : Nat → Nat)

mutual
@[simp] theorem codeSize_rename : ∀ e : Expr, codeSize (e.rename σ) = codeSize e
  | .number _ | .slot _ => rfl
  | .neg e => by simp only [Expr.rename, codeSize, codeSize_rename e]
  | .binary _ a b => by simp only [Expr.rename, codeSize, codeSize_rename a, codeSize_rename b]
  | .call _ args => by simp only [Expr.rename, codeSize, codeSizeAll_renameAll args]
  | .conditional c t e => by
    simp only [Expr.rename, codeSize, codeSize_rename c, codeSize_rename t, codeSize_rename e]
@[simp] theorem codeSizeAll_renameAll :
    ∀ es : List Expr, codeSizeAll (Expr.renameAll σ es) = codeSizeAll es
  | [] => rfl
  | e :: es => by
    simp only [Expr.renameAll, codeSizeAll, codeSize_rename e, codeSizeAll_renameAll es]
end

mutual
theorem cells_rename (constants : Array Float) (start height : Nat) : ∀ e : Expr,
    cells constants start height (e.rename σ) = (cells constants start height e).map (Cell.rename σ)
  | .number _ | .slot _ => rfl
  | .neg e => by
    simp only [Expr.rename, cells, cells_rename constants _ _ e, List.map_append]
    rfl
  | .binary _ a b => by
    simp only [Expr.rename, cells, codeSize_rename, cells_rename constants _ _ a,
      cells_rename constants _ _ b, List.map_append]
    rfl
  | .call _ args => by
    simp only [Expr.rename, cells, Expr.length_renameAll, cellsAll_renameAll constants _ _ args,
      List.map_append]
    rfl
  | .conditional c t e => by
    simp only [Expr.rename, cells, codeSize_rename, cells_rename constants _ _ c,
      cells_rename constants _ _ t, cells_rename constants _ _ e, List.map_append, List.map_cons]
    rfl
theorem cellsAll_renameAll (constants : Array Float) (start height : Nat) : ∀ es : List Expr,
    cellsAll constants start height (Expr.renameAll σ es) =
      (cellsAll constants start height es).map (Cell.rename σ)
  | [] => rfl
  | e :: es => by
    simp only [Expr.renameAll, cellsAll, codeSize_rename, cells_rename constants _ _ e,
      cellsAll_renameAll constants _ _ es, List.map_append]
end

end

namespace Program

variable {e : Expr} {σ : Nat → Nat} {slots slots' : List Float}

theorem constants_rename (σ : Nat → Nat) (e : Expr) :
    (ofExpr (e.rename σ)).constants = (ofExpr e).constants := by
  simp only [ofExpr, Expr.literals_rename]

theorem getElem?_code_rename (σ : Nat → Nat) (e : Expr) (k : Nat) :
    (ofExpr (e.rename σ)).code[k]? = (ofExpr e).code[k]?.map (Instr.rename σ) := by
  simp only [code_ofExpr, layout, Expr.literals_rename, cells_rename, List.getElem?_toArray,
    List.getElem?_map, Option.map_map]
  rfl

theorem run_rename (covered : e.slotCount ≤ slots.length)
    (covered' : (e.rename σ).slotCount ≤ slots'.length)
    (moved : ∀ k v, slots[k]? = some v → slots'[σ k]? = some v) (A : Arithmetic) (limit : Nat) :
    (ofExpr (e.rename σ)).run A slots' limit = (ofExpr e).run A slots limit := by
  have alike : ActsLike A (ofExpr (e.rename σ)) slots' (ofExpr e) slots := by
    intro k
    rw [getElem?_code_rename, constants_rename]
    cases found : (ofExpr e).code[k]? with
    | none => exact .none
    | some i =>
      refine .some fun s => ?_
      cases i with
      | load index =>
        have inside : index < slots.length :=
          of_decide_eq_true (inRange_ofExpr covered _ (Array.mem_of_getElem? found))
        have value := List.getElem?_eq_getElem inside
        simp only [Instr.rename, step, value, moved index _ value]
        rfl
      | _ => rfl
  rw [run, run, misfit?_ofExpr covered, misfit?_ofExpr covered']
  simp only [alike.runFrom]

theorem ofText_rename {scope scope' : Scope} (renames : scope.Renames σ scope') {limits : Limits}
    {text : String} {p : Program} (h : Program.ofText scope limits text = .ok p) :
    ∃ p', Program.ofText scope' limits text = .ok p' ∧
      ∀ slots slots' : List Float, scope.names.length ≤ slots.length →
        scope'.names.length ≤ slots'.length →
          (∀ k v, slots[k]? = some v → slots'[σ k]? = some v) →
            ∀ A limit, p'.run A slots' limit = p.run A slots limit := by
  obtain ⟨e, read, lowered⟩ := Outcome.bind_eq_ok.mp h
  cases lowered
  have renamed := Expression.ofText_rename renames read
  refine ⟨ofExpr (e.rename σ), by rw [Program.ofText, renamed]; rfl, ?_⟩
  intro slots slots' covered covered' moved
  refine run_rename ?_ ?_ moved
  · exact Nat.le_trans (resolved_of_ofText read).slotCount_le covered
  · exact Nat.le_trans (resolved_of_ofText renamed).slotCount_le covered'

end Program
end BuildingCode.Machine

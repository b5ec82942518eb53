import BuildingCode.Proofs.Machine.Operands
import BuildingCode.Proofs.Machine.Simulation

/-! The program of an expression, run with enough steps, gives the value of the expression or the
failure that its evaluation meets first. -/
namespace BuildingCode.Machine
open Expression

theorem Program.holds_layout (e : Expr) :
    (Program.ofExpr e).Holds 0 (Program.layout e) := by
  apply Along.of_index
  intro k c found
  rw [Nat.zero_add, Program.code_ofExpr, List.getElem?_toArray, List.getElem?_map, found]
  rfl

theorem Program.runFrom_at_end (A : Arithmetic) {p : Program} {s : State}
    (slots : List Float) (limit budget : Nat) (atEnd : p.code[s.position]? = none) :
    p.runFrom A slots limit budget s = .ok s.stack := by
  cases budget with
  | zero =>
    rw [Program.runFrom, if_neg (Nat.not_lt.mpr (Array.getElem?_eq_none_iff.mp atEnd))]
  | succ budget => rw [Program.runFrom, atEnd]

section
variable {A : Arithmetic} {p : Program} {slots : List Float} {s : State} {i : Instr}

theorem Program.runFrom_zero (next : p.code[s.position]? = some i) (limit : Nat) :
    p.runFrom A slots limit 0 s = .error (.budgetExceeded limit) := by
  rw [Program.runFrom, if_pos (Array.getElem?_eq_some_iff.mp next).1]

theorem Program.runFrom_succ (next : p.code[s.position]? = some i) (limit budget : Nat) :
    p.runFrom A slots limit (budget + 1) s =
      (step A p.constants slots s i).bind (p.runFrom A slots limit budget) := by
  rw [Program.runFrom, next]
  rfl

end

/-- With a budget for every instruction, a run leaves the value alone on the stack. -/
theorem Program.runFrom_ofExpr (A : Arithmetic) (e : Expr) (slots : List Float) {limit : Nat}
    (enough : codeSize e ≤ limit) :
    (Program.ofExpr e).runFrom A slots limit limit ⟨0, []⟩ =
      (do return [← e.valueOver A slots]) := by
  have whole : Runs A (Program.ofExpr e) slots (codeSize e) ⟨0, []⟩
      (do return ⟨0 + codeSize e, [← e.valueOver A slots]⟩) :=
    runs_cells 0 0 [] e (Program.holds_layout e) fun v hv => mem_poolAll hv
  obtain ⟨n, used, run⟩ := whole
  have split : limit - n + n = limit := Nat.sub_add_cancel (Nat.le_trans used enough)
  rw [← split, run]
  cases e.valueOver A slots with
  | error f => rfl
  | ok v =>
    have finished := Program.runFrom_at_end A (p := Program.ofExpr e)
      (s := ⟨0 + codeSize e, [v]⟩) slots (limit - n + n) (limit - n) (by simp)
    exact finished

theorem Program.run_ofExpr (A : Arithmetic) (e : Expr) (slots : List Float) (limit : Nat)
    (covered : (Program.ofExpr e).slotCount ≤ slots.length)
    (enough : (Program.ofExpr e).code.size ≤ limit) :
    (Program.ofExpr e).run A slots limit = e.value A slots := by
  rw [Program.size_code_ofExpr] at enough
  unfold Program.run Expr.value
  rw [Program.misfit?_ofExpr covered, Program.runFrom_ofExpr A e slots enough]
  cases e.valueOver A slots <;> rfl

/-- A negative zero is false as well: the arm that divides by it is the one that runs. -/
theorem Program.run_ofExpr_negative_zero :
    let e : Expr := .conditional (.slot 0) (.number 2.0) (.binary .div (.number 2.0) (.slot 0))
    (Program.ofExpr e).slotCount ≤ [(-0.0 : Float)].length ∧ (Program.ofExpr e).code.size ≤ 7 ∧
      (Program.ofExpr e).run .standard [-0.0] 7 = .error .divisionByZero := by
  intro e
  have covered : (Program.ofExpr e).slotCount ≤ [(-0.0 : Float)].length := by decide
  have enough : (Program.ofExpr e).code.size ≤ 7 := by decide
  refine ⟨covered, enough, ?_⟩
  rw [Program.run_ofExpr .standard e [-0.0] 7 covered enough]
  rfl

end BuildingCode.Machine

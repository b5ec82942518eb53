import BuildingCode.Proofs.Expression.Parsing
import BuildingCode.Proofs.Machine.Budget
import BuildingCode.Proofs.Machine.Safety

/-! How many instructions a run executes. Jumps only lead forward, so no instruction is executed twice
and every run comes to an end of its own; all that a budget decides is whether it gets there. -/
namespace BuildingCode

namespace Expression.Expr

mutual
def conditionalCount : Expr → Nat
  | number _ | slot _ => 0
  | neg e => e.conditionalCount
  | binary _ a b => a.conditionalCount + b.conditionalCount
  | call _ args => conditionalCountAll args
  | conditional c t e => c.conditionalCount + t.conditionalCount + e.conditionalCount + 1
def conditionalCountAll : List Expr → Nat
  | [] => 0
  | e :: es => e.conditionalCount + conditionalCountAll es
end

mutual
theorem conditionalCount_le : ∀ e : Expr, e.conditionalCount ≤ e.nodeCount
  | number _ | slot _ => Nat.zero_le 1
  | neg e => Nat.le_succ_of_le (conditionalCount_le e)
  | binary _ a b => by
    have left := conditionalCount_le a
    have right := conditionalCount_le b
    simp only [conditionalCount, nodeCount]
    omega
  | call _ args => Nat.le_succ_of_le (conditionalCountAll_le args)
  | conditional c t e => by
    have condition := conditionalCount_le c
    have taken := conditionalCount_le t
    have other := conditionalCount_le e
    simp only [conditionalCount, nodeCount]
    omega
theorem conditionalCountAll_le : ∀ es : List Expr, conditionalCountAll es ≤ nodeCountAll es
  | [] => Nat.le_refl 0
  | e :: es => Nat.add_le_add (conditionalCount_le e) (conditionalCountAll_le es)
end

end Expression.Expr

namespace Machine
open Expression Outcome

mutual
theorem codeSize_eq : ∀ e : Expr, codeSize e = e.nodeCount + e.conditionalCount
  | .number _ | .slot _ => rfl
  | .neg e => by
    simp only [codeSize, Expr.nodeCount, Expr.conditionalCount, codeSize_eq e]
    omega
  | .binary _ a b => by
    simp only [codeSize, Expr.nodeCount, Expr.conditionalCount, codeSize_eq a, codeSize_eq b]
    omega
  | .call _ args => by
    simp only [codeSize, Expr.nodeCount, Expr.conditionalCount, codeSizeAll_eq args]
    omega
  | .conditional c t e => by
    simp only [codeSize, Expr.nodeCount, Expr.conditionalCount, codeSize_eq c, codeSize_eq t,
      codeSize_eq e]
    omega
theorem codeSizeAll_eq :
    ∀ es : List Expr, codeSizeAll es = Expr.nodeCountAll es + Expr.conditionalCountAll es
  | [] => rfl
  | e :: es => by
    simp only [codeSizeAll, Expr.nodeCountAll, Expr.conditionalCountAll, codeSize_eq e,
      codeSizeAll_eq es]
    omega
end

def Instr.target? : Instr → Option Nat
  | jumpIfFalse target | jump target => some target
  | const _ | load _ | neg | binary _ | call _ _ => none

theorem Instr.mem_successors_of_target? {i : Instr} {target : Nat} (h : i.target? = some target)
    (address : Nat) : target ∈ i.successors address := by
  cases i <;> cases h <;> simp [successors]

/-- From the address no way leads back, nor to the address itself. -/
def Instr.Forward (address : Nat) (i : Instr) : Prop := ∀ next ∈ i.successors address, address < next

section
variable {constants : Array Float}

mutual
theorem forward_cells (start height : Nat) : ∀ e : Expr,
    Along (fun address c => c.instr.Forward address) start (cells constants start height e)
  | .number _ | .slot _ => by simp [cells, Instr.Forward, Instr.successors]
  | .neg e => by
    simp only [cells, Along.append, Along.cons]
    exact ⟨forward_cells start height e, by simp [Instr.Forward, Instr.successors], trivial⟩
  | .binary _ a b => by
    simp only [cells, Along.append, length_cells, Along.cons]
    exact ⟨forward_cells start height a, forward_cells (start + codeSize a) (height + 1) b,
      by simp [Instr.Forward, Instr.successors], trivial⟩
  | .call _ args => by
    simp only [cells, Along.append, Along.cons]
    exact ⟨forward_cellsAll start height args, by simp [Instr.Forward, Instr.successors], trivial⟩
  | .conditional c t e => by
    simp only [cells, Along.append, length_cells, Along.cons]
    refine ⟨forward_cells start height c, ?_, forward_cells _ height t, ?_, forward_cells _ height e⟩
    · simp only [Instr.Forward, Instr.successors, List.forall_mem_cons, List.not_mem_nil]
      exact ⟨by omega, by omega, by simp⟩
    · simp only [Instr.Forward, Instr.successors, List.forall_mem_singleton]
      omega
theorem forward_cellsAll (start height : Nat) : ∀ es : List Expr,
    Along (fun address c => c.instr.Forward address) start (cellsAll constants start height es)
  | [] => trivial
  | e :: es => by
    simp only [cellsAll, Along.append, length_cells]
    exact ⟨forward_cells start height e, forward_cellsAll _ (height + 1) es⟩
end

end

def Program.Forward (p : Program) : Prop :=
  ∀ k, ∀ i : Instr, p.code[k]? = some i → i.Forward k

theorem Program.forward_ofExpr (e : Expr) : (ofExpr e).Forward := by
  intro k i found
  obtain ⟨c, here, rfl⟩ := code_eq_some_iff.mp found
  have forward := (forward_cells 0 0 e).at_index here
  rwa [Nat.zero_add] at forward

section
variable {A : Arithmetic} {p : Program} {slots : List Float} {n : Nat} {s t : State}

theorem Steps.add_le_position (forward : p.Forward) (steps : Steps A p slots n s t) :
    s.position + n ≤ t.position := by
  induction steps with
  | refl => exact Nat.le_refl _
  | next _ found done ih =>
    obtain ⟨_, _, _, did⟩ := exists_did done
    exact Nat.lt_of_le_of_lt ih (forward _ _ found _ did.goes)

/-- A run from the start of the program, left to itself, executes so many instructions up to its end or
up to the one that fails, which counts as well. -/
inductive Finishes (A : Arithmetic) (p : Program) (slots : List Float) :
    Nat → Except Failure (List Float) → Prop
  | ended {n : Nat} {s : State} : Steps A p slots n ⟨0, []⟩ s → p.code[s.position]? = none →
      Finishes A p slots n (.ok s.stack)
  | failed {n : Nat} {s : State} {i : Instr} {failure : Failure} : Steps A p slots n ⟨0, []⟩ s →
      p.code[s.position]? = some i → step A p.constants slots s i = .error failure →
        Finishes A p slots (n + 1) (.error failure)

theorem exists_finishes_of_steps (forward : p.Forward) (steps : Steps A p slots n ⟨0, []⟩ s) :
    ∃ m r, Finishes A p slots m r := by
  induction left : p.code.size - s.position using Nat.strongRecOn generalizing n s with
  | ind left ih =>
    cases found : p.code[s.position]? with
    | none => exact ⟨n, _, .ended steps found⟩
    | some i =>
      cases done : step A p.constants slots s i with
      | error failure => exact ⟨n + 1, _, .failed steps found done⟩
      | ok t =>
        obtain ⟨_, _, _, did⟩ := exists_did done
        have further := forward _ _ found _ did.goes
        have inside := (Array.getElem?_eq_some_iff.mp found).1
        exact ih _ (by omega) (steps.next found done) rfl

theorem exists_finishes (A : Arithmetic) (e : Expr) (slots : List Float) :
    ∃ n r, Finishes A (.ofExpr e) slots n r :=
  exists_finishes_of_steps (Program.forward_ofExpr e) (.refl _)

theorem Steps.runFrom (steps : Steps A p slots n s t) (limit budget : Nat) :
    p.runFrom A slots limit (budget + n) s = p.runFrom A slots limit budget t := by
  induction steps generalizing budget with
  | refl => rfl
  | next _ found done ih =>
    rw [← Nat.add_assoc, Nat.add_right_comm, ih, Program.runFrom_succ found, done]
    rfl

theorem Steps.runFrom_of_le (steps : Steps A p slots n s t) {i : Instr}
    (found : p.code[t.position]? = some i) (limit : Nat) {budget : Nat} (short : budget ≤ n) :
    p.runFrom A slots limit budget s = .error (.budgetExceeded limit) := by
  induction steps generalizing i budget with
  | refl =>
    obtain rfl := Nat.le_zero.mp short
    exact Program.runFrom_zero found limit
  | @next n s t u j earlier here done ih =>
    by_cases sooner : budget ≤ n
    · exact ih here sooner
    · obtain rfl : budget = 0 + (n + 1) := by omega
      rw [(earlier.next here done).runFrom, Program.runFrom_zero found]

theorem Finishes.runFrom {r : Except Failure (List Float)} (h : Finishes A p slots n r)
    (limit budget : Nat) : p.runFrom A slots limit budget ⟨0, []⟩ =
      if n ≤ budget then r else .error (.budgetExceeded limit) := by
  by_cases enough : n ≤ budget
  · obtain ⟨more, rfl⟩ := Nat.exists_eq_add_of_le' enough
    rw [if_pos enough]
    cases h with
    | ended steps found => rw [steps.runFrom, Program.runFrom_at_end A slots limit more found]
    | failed steps found failed =>
      rw [← Nat.add_assoc, Nat.add_right_comm, steps.runFrom, Program.runFrom_succ found, failed]
      rfl
  · rw [if_neg enough]
    cases h with
    | ended steps _ =>
      cases steps with
      | refl => exact absurd (Nat.zero_le budget) enough
      | next earlier found _ => exact earlier.runFrom_of_le found limit (by omega)
    | failed steps found _ => exact steps.runFrom_of_le found limit (by omega)

end

namespace Program

variable {A : Arithmetic} {e : Expr} {slots : List Float}

theorem run_of_finishes (covered : e.slotCount ≤ slots.length) {n : Nat}
    {r : Except Failure (List Float)} (h : Finishes A (ofExpr e) slots n r) (limit : Nat) :
    (ofExpr e).run A slots limit =
      if n ≤ limit then (do single (← r)) else .error (.budgetExceeded limit) := by
  rw [run_of_covered A covered, h.runFrom]
  split <;> rfl

theorem timely_of_finishes (covered : e.slotCount ≤ slots.length) {n : Nat}
    {r : Except Failure (List Float)} (h : Finishes A (ofExpr e) slots n r) :
    Timely (do single (← r)) := by
  have unmetered := run_of_finishes covered h (n + (ofExpr e).code.size)
  rw [if_pos (Nat.le_add_right _ _)] at unmetered
  rw [← unmetered]
  exact timely_run covered (Nat.le_add_left _ _)

theorem run_of_uncovered (A : Arithmetic) (uncovered : ¬e.slotCount ≤ slots.length) (limit : Nat) :
    (ofExpr e).run A slots limit = .error (.mismatch (.slotsMissing e.slotCount slots.length)) := by
  rw [run, misfit?, slotCount_ofExpr, if_pos (Nat.lt_of_not_le uncovered)]

theorem timely_run_of_size_le (A : Arithmetic) (slots : List Float) {limit : Nat}
    (enough : (ofExpr e).code.size ≤ limit) : Timely ((ofExpr e).run A slots limit) := by
  by_cases covered : e.slotCount ≤ slots.length
  · exact timely_run covered enough
  · rw [run_of_uncovered A covered]
    intro other h
    cases h

theorem size_code_le (e : Expr) : (ofExpr e).code.size ≤ 2 * e.nodeCount := by
  have conditionals := e.conditionalCount_le
  rw [size_code_ofExpr, codeSize_eq]
  omega

theorem run_of_timely {limit limit' : Nat} (more : limit ≤ limit')
    (within : Timely ((ofExpr e).run A slots limit)) :
    (ofExpr e).run A slots limit' = (ofExpr e).run A slots limit := by
  by_cases covered : e.slotCount ≤ slots.length
  · obtain ⟨n, r, h⟩ := exists_finishes A e slots
    rw [run_of_finishes covered h] at within ⊢
    rw [run_of_finishes covered h]
    by_cases enough : n ≤ limit
    · rw [if_pos enough, if_pos (Nat.le_trans enough more)]
    · rw [if_neg enough] at within
      exact absurd rfl (within limit)
  · rw [run_of_uncovered A covered, run_of_uncovered A covered]

/-- Jumps lead forward and not beyond the end, so a run never comes back to an instruction. Left to
itself it executes some number of them, and it exceeds exactly the budgets below that number. A step for
every instruction is always enough, and there are at most two instructions for each node. -/
theorem run_metered (A : Arithmetic) (e : Expr) :
    (∀ k i target, (ofExpr e).code[k]? = some i → i.target? = some target →
      k < target ∧ target ≤ (ofExpr e).code.size) ∧
    (∀ slots n s t, Steps A (ofExpr e) slots (n + 1) s t → s.position < t.position) ∧
    (ofExpr e).code.size = e.nodeCount + e.conditionalCount ∧
    (∀ slots : List Float, (ofExpr e).slotCount ≤ slots.length →
      (∃ n r, Finishes A (ofExpr e) slots n r) ∧
      ∀ n r, Finishes A (ofExpr e) slots n r → ∀ limit,
        (∀ other, (ofExpr e).run A slots limit = .error (.budgetExceeded other) ↔
          other = limit ∧ limit < n) ∧
        (n ≤ limit → (ofExpr e).run A slots limit = (do single (← r)))) ∧
    (∀ scope limits text, Expr.ofText scope limits text = .ok e → 2 * limits.nodes ≤ limits.steps →
      ∀ slots, Timely ((ofExpr e).run A slots limits.steps)) ∧
    ∀ slots limit limit', limit ≤ limit' → Timely ((ofExpr e).run A slots limit) →
      (ofExpr e).run A slots limit' = (ofExpr e).run A slots limit := by
  refine ⟨?_, ?_, ?_, ?_, ?_, fun slots limit limit' => run_of_timely⟩
  · intro k i target found jumps
    have covered : e.slotCount ≤ (List.replicate e.slotCount (0.0 : Float)).length := by simp
    have inRange := inRange_ofExpr covered i (Array.mem_of_getElem? found)
    refine ⟨forward_ofExpr e k i found target (i.mem_successors_of_target? jumps k), ?_⟩
    cases i <;> cases jumps <;> exact of_decide_eq_true inRange
  · intro slots n s t steps
    exact Nat.lt_of_lt_of_le (Nat.lt_add_of_pos_right n.succ_pos)
      (steps.add_le_position (forward_ofExpr e))
  · rw [size_code_ofExpr, codeSize_eq]
  · intro slots covered
    refine ⟨exists_finishes A e slots, fun n r h limit => ?_⟩
    rw [run_of_finishes covered h]
    constructor
    · intro other
      by_cases enough : n ≤ limit
      · rw [if_pos enough]
        exact iff_of_false (timely_of_finishes covered h other) (by omega)
      · rw [if_neg enough]
        constructor
        · rintro ⟨⟩
          exact ⟨rfl, Nat.lt_of_not_le enough⟩
        · rintro ⟨rfl, _⟩
          rfl
    · exact fun enough => if_pos enough
  · intro scope limits text read enough slots
    obtain ⟨_, _, _, _, nodes⟩ := ofText_eq_ok_iff.mp read
    have size := size_code_le e
    exact timely_run_of_size_le A slots (by omega)

/-- The arm that is taken fails at its fifth instruction of seven. With a budget of four steps that
instruction is never executed, and its failure not told. -/
theorem run_metered_failing :
    let e : Expr := .conditional (.slot 0) (.binary .div (.slot 0) (.slot 1)) (.number 3.0)
    (ofExpr e).slotCount ≤ [(1.0 : Float), 0.0].length ∧ (ofExpr e).code.size = 7 ∧
      Finishes .standard (ofExpr e) [1.0, 0.0] 5 (.error .divisionByZero) ∧
      (ofExpr e).run .standard [1.0, 0.0] 4 = .error (.budgetExceeded 4) ∧
      (ofExpr e).run .standard [1.0, 0.0] 5 = .error .divisionByZero := by
  intro e
  have covered : (ofExpr e).slotCount ≤ [(1.0 : Float), 0.0].length := by decide
  have branch : Steps .standard (ofExpr e) [1.0, 0.0] 2 ⟨0, []⟩ ⟨2, []⟩ :=
    .next (i := .jumpIfFalse 6) (.next (i := .load 0) (u := ⟨1, [1.0]⟩) (.refl _) rfl rfl) rfl rfl
  have operands : Steps .standard (ofExpr e) [1.0, 0.0] 4 ⟨0, []⟩ ⟨4, [0.0, 1.0]⟩ :=
    .next (i := .load 1) (.next (i := .load 0) (u := ⟨3, [1.0]⟩) branch rfl rfl) rfl rfl
  have finishes : Finishes .standard (ofExpr e) [1.0, 0.0] 5 (.error .divisionByZero) :=
    .failed (i := .binary .div) operands rfl rfl
  obtain ⟨_, _, size, metered, _⟩ := run_metered .standard e
  have exact := (metered [1.0, 0.0] covered).2 5 _ finishes
  exact ⟨covered, size, finishes, ((exact 4).1 4).mpr ⟨rfl, by decide⟩, (exact 5).2 (by decide)⟩

end Program
end Machine
end BuildingCode

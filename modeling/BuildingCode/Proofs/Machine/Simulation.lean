import BuildingCode.Expression.Meaning
import BuildingCode.Machine.Run
import BuildingCode.Proofs.Machine.Cells
import BuildingCode.Proofs.Machine.Pool

/-! Lowered code computes what the expression means. What a stretch of code does is said for
whatever budget is left behind it, so stretches compose without any count of what they really
use. -/
namespace BuildingCode.Machine
open Expression

/-- `P` holds of every member together with its address. -/
def Along (P : Nat → α → Prop) : (start : Nat) → List α → Prop
  | _, [] => True
  | start, x :: xs => P start x ∧ Along P (start + 1) xs

namespace Along

variable {P : Nat → α → Prop}

@[simp] theorem nil (start : Nat) : Along P start ([] : List α) := trivial

@[simp] theorem cons (start : Nat) (x : α) (xs : List α) :
    Along P start (x :: xs) ↔ P start x ∧ Along P (start + 1) xs := Iff.rfl

@[simp] theorem append (start : Nat) (xs ys : List α) :
    Along P start (xs ++ ys) ↔ Along P start xs ∧ Along P (start + xs.length) ys := by
  induction xs generalizing start with
  | nil => simp
  | cons x xs ih =>
    simp only [List.cons_append, cons, ih, List.length_cons, and_assoc]
    rw [Nat.add_assoc, Nat.add_comm 1]

theorem at_index {start : Nat} {xs : List α} (h : Along P start xs) {k : Nat} {x : α}
    (found : xs[k]? = some x) : P (start + k) x := by
  induction xs generalizing start k with
  | nil => simp at found
  | cons y ys ih =>
    cases k with
    | zero =>
      cases found
      exact h.1
    | succ k =>
      rw [Nat.add_comm k, ← Nat.add_assoc]
      exact ih h.2 (by simpa using found)

theorem of_index {start : Nat} {xs : List α}
    (h : ∀ k x, xs[k]? = some x → P (start + k) x) : Along P start xs := by
  induction xs generalizing start with
  | nil => trivial
  | cons y ys ih =>
    refine ⟨h 0 y rfl, ih fun k x found => ?_⟩
    rw [Nat.add_assoc, Nat.add_comm 1]
    exact h (k + 1) x (by simpa using found)

end Along

def Program.Holds (p : Program) (start : Nat) (cs : List Cell) : Prop :=
  Along (fun address c => p.code[address]? = some c.instr) start cs

/-- Within `bound` instructions a run from `s` comes to `r`, whatever budget is left then. -/
def Runs (A : Arithmetic) (p : Program) (slots : List Float) (bound : Nat) (s : State)
    (r : Except Failure State) : Prop :=
  ∃ n ≤ bound, ∀ limit budget, p.runFrom A slots limit (budget + n) s =
    r.bind (p.runFrom A slots limit budget)

section
variable {A : Arithmetic} {p : Program} {slots : List Float}

theorem Runs.refl (s : State) : Runs A p slots 0 s (.ok s) :=
  ⟨0, Nat.le_refl 0, fun _ _ => rfl⟩

theorem Runs.step (A : Arithmetic) (slots : List Float) (s : State) {i : Instr}
    (next : p.code[s.position]? = some i) :
    Runs A p slots 1 s (step A p.constants slots s i) := by
  refine ⟨1, Nat.le_refl 1, fun limit budget => ?_⟩
  rw [Program.runFrom, next]
  rfl

theorem Runs.trans {s t : State} {r : Except Failure State} {m n : Nat}
    (first : Runs A p slots m s (.ok t)) (rest : Runs A p slots n t r) :
    Runs A p slots (m + n) s r := by
  obtain ⟨k, hk, first⟩ := first
  obtain ⟨l, hl, rest⟩ := rest
  refine ⟨l + k, by omega, fun limit budget => ?_⟩
  rw [← Nat.add_assoc, first]
  exact rest limit budget

theorem Runs.mono {s : State} {r : Except Failure State} {m n : Nat}
    (run : Runs A p slots m s r) (h : m ≤ n) : Runs A p slots n s r := by
  obtain ⟨k, hk, run⟩ := run
  exact ⟨k, Nat.le_trans hk h, run⟩

theorem Runs.bind {s : State} {x : Except Failure α} {f : α → State}
    {g : α → Except Failure State} {m n : Nat}
    (first : Runs A p slots m s (do return f (← x)))
    (rest : ∀ v, x = .ok v → Runs A p slots n (f v) (g v)) :
    Runs A p slots (m + n) s (do g (← x)) := by
  cases x with
  | error e => exact first.mono (Nat.le_add_right m n)
  | ok v => exact first.trans (rest v rfl)

theorem valuesOver_length {es : List Expr} {vs : List Float}
    (h : Expr.valuesOver A slots es = .ok vs) : vs.length = es.length := by
  induction es generalizing vs with
  | nil => cases h; rfl
  | cons e es ih =>
    simp only [Expr.valuesOver] at h
    cases he : Expr.valueOver A slots e with
    | error f => rw [he] at h; cases h
    | ok v =>
      cases hes : Expr.valuesOver A slots es with
      | error f => rw [he, hes] at h; cases h
      | ok ws =>
        rw [he, hes] at h
        cases h
        simp [ih hes]

theorem popArguments_reverse_append (vs stack : List Float) :
    popArguments vs.length (vs.reverse ++ stack) = .ok (vs, stack) := by
  rw [popArguments, if_pos (by simp)]
  simp

theorem step_jumpIfFalse (constants : Array Float) (start target : Nat) (v : Float)
    (stack : List Float) :
    step A constants slots ⟨start, v :: stack⟩ (.jumpIfFalse target) =
      .ok ⟨if v == 0.0 then target else start + 1, stack⟩ := rfl

mutual
/-- The code of an expression puts its value on the stack or ends with its failure. -/
theorem runs_cells (start height : Nat) (stack : List Float) : ∀ e : Expr,
    p.Holds start (cells p.constants start height e) → (∀ v ∈ e.literals, v ∈ p.constants) →
      Runs A p slots (codeSize e) ⟨start, stack⟩
        (do return ⟨start + codeSize e, (← e.valueOver A slots) :: stack⟩)
  | .number v, held, pooled => by
    have run := Runs.step A slots ⟨start, stack⟩ held.1
    have found := getElem?_poolIndex (pooled v (by simp [Expr.literals]))
    simp only [step, found] at run
    exact run
  | .slot i, held, _ => by
    have run := Runs.step A slots ⟨start, stack⟩ held.1
    simp only [step] at run
    simp only [Expr.valueOver]
    cases found : slots[i]? with
    | none => rw [found] at run; exact run
    | some v => rw [found] at run; exact run
  | .neg e, held, pooled => by
    simp only [Program.Holds, cells, Along.append, length_cells, Along.cons] at held
    have operand := runs_cells start height stack e held.1 pooled
    simp only [Expr.valueOver, codeSize, bind_assoc, pure_bind]
    refine operand.bind fun v _ => ?_
    exact Runs.step A slots ⟨start + codeSize e, v :: stack⟩ held.2.1
  | .binary op a b, held, pooled => by
    simp only [Program.Holds, cells, Along.append, length_cells, Along.cons] at held
    simp only [Expr.literals, List.mem_append] at pooled
    have left := runs_cells start height stack a held.1 fun v hv => pooled v (.inl hv)
    simp only [Expr.valueOver, codeSize, bind_assoc, Nat.add_assoc]
    refine left.bind fun x _ => ?_
    have right := runs_cells (start + codeSize a) (height + 1) (x :: stack) b held.2.1
      fun v hv => pooled v (.inr hv)
    simp only [← Nat.add_assoc]
    refine right.bind fun y _ => ?_
    exact Runs.step A slots ⟨start + codeSize a + codeSize b, y :: x :: stack⟩ held.2.2.1
  | .call f args, held, pooled => by
    simp only [Program.Holds, cells, Along.append, length_cellsAll, Along.cons] at held
    have arguments := runs_cellsAll start height stack args held.1 pooled
    simp only [Expr.valueOver, codeSize, bind_assoc]
    refine arguments.bind fun vs computed => ?_
    have run := Runs.step A slots ⟨start + codeSizeAll args, vs.reverse ++ stack⟩ held.2.1
    simp only [step, ← valuesOver_length computed, popArguments_reverse_append] at run
    exact run
  | .conditional c t e, held, pooled => by
    simp only [Program.Holds, cells, Along.append, length_cells, Along.cons] at held
    simp only [Expr.literals, List.mem_append] at pooled
    have condition := runs_cells start height stack c held.1 fun v hv => pooled v (.inl (.inl hv))
    have taken := runs_cells (start + codeSize c + 1) height stack t held.2.2.1
      fun v hv => pooled v (.inl (.inr hv))
    have other := runs_cells (start + codeSize c + 1 + codeSize t + 1) height stack e held.2.2.2.2
      fun v hv => pooled v (.inr hv)
    simp only [Expr.valueOver, codeSize, bind_assoc]
    -- The arms are alternatives: a bound that covers both covers the one that runs.
    have bound : codeSize c + (1 + (codeSize t + 1 + codeSize e)) ≤
        codeSize c + codeSize t + codeSize e + 2 := by omega
    refine Runs.mono (condition.bind fun v _ => ?_) bound
    have branch := Runs.step A slots ⟨start + codeSize c, v :: stack⟩ held.2.1
    rw [step_jumpIfFalse] at branch
    refine branch.trans ?_
    have finish : start + (codeSize c + codeSize t + codeSize e + 2) =
        start + codeSize c + 1 + codeSize t + 1 + codeSize e := by omega
    rw [finish]
    by_cases zero : v == 0.0
    · rw [if_pos zero, if_pos zero]
      exact other.mono (by omega)
    · rw [if_neg zero, if_neg zero]
      refine Runs.mono (taken.bind fun w _ => ?_) (Nat.le_add_right _ _)
      exact Runs.step A slots ⟨start + codeSize c + 1 + codeSize t, w :: stack⟩ held.2.2.2.1
theorem runs_cellsAll (start height : Nat) (stack : List Float) : ∀ es : List Expr,
    p.Holds start (cellsAll p.constants start height es) →
      (∀ v ∈ Expr.literalsAll es, v ∈ p.constants) →
        Runs A p slots (codeSizeAll es) ⟨start, stack⟩
          (do return ⟨start + codeSizeAll es, (← Expr.valuesOver A slots es).reverse ++ stack⟩)
  | [], _, _ => Runs.refl _
  | e :: es, held, pooled => by
    simp only [Program.Holds, cellsAll, Along.append, length_cells] at held
    simp only [Expr.literalsAll, List.mem_append] at pooled
    have first := runs_cells start height stack e held.1 fun v hv => pooled v (.inl hv)
    simp only [Expr.valuesOver, codeSizeAll, bind_assoc, pure_bind, List.reverse_cons,
      List.append_assoc, List.singleton_append, ← Nat.add_assoc]
    exact first.bind fun v _ => runs_cellsAll (start + codeSize e) (height + 1) (v :: stack) es
      held.2 fun w hw => pooled w (.inr hw)
end

end
end BuildingCode.Machine

import BuildingCode.Proofs.Machine.Correctness
import BuildingCode.Proofs.Outcome

/-! The budget of a run. A run that does not use up its budget would not go on differently with a
larger one, and a budget with a step for every instruction is never used up. -/
namespace BuildingCode.Machine
open Expression Outcome

/-- The budget is not the reason for the failure, if there is one. -/
def Timely (r : Except Failure α) : Prop := ∀ limit, r ≠ .error (.budgetExceeded limit)

namespace Timely

theorem ok (a : α) : Timely (.ok a) := by
  intro limit h
  cases h

theorem bind {x : Except Failure α} {f : α → Except Failure β} (first : Timely x)
    (rest : ∀ a, Timely (f a)) : Timely (x >>= f) :=
  fun limit => bind_ne_error (first limit) fun a _ => rest a limit

end Timely

section
variable (A : Arithmetic)

theorem timely_finite (operation : Operation) (x : Float) : Timely (finite operation x) := by
  intro limit h
  unfold finite at h
  split at h <;> cases h

theorem timely_raise (a b : Float) : Timely (raise A a b) := by
  intro limit h
  simp only [raise, defined, finite] at h
  repeat' split at h
  all_goals cases h

theorem timely_binary (op : BinaryOp) (a b : Float) : Timely (op.apply A a b) := by
  intro limit h
  cases op <;> simp only [BinaryOp.apply, raise, defined, finite] at h <;>
    (repeat' split at h) <;> cases h

theorem timely_second (f : MathFunction) (more : List Float) : Timely (second f more) := by
  intro limit h
  cases more <;> cases h

theorem timely_apply (f : MathFunction) (args : List Float) : Timely (f.apply A args) := by
  cases args with
  | nil =>
    intro limit h
    cases h
  | cons x more =>
    cases f with
    | pow => exact (timely_second .pow more).bind fun y => timely_raise A x y
    | atan2 => exact (timely_second .atan2 more).bind fun y => .ok _
    | _ =>
      intro limit h
      simp only [MathFunction.apply, MathFunction.applyTo, defined, finite] at h
      (repeat' split at h) <;> cases h

mutual
theorem timely_valueOver (slots : List Float) : ∀ e : Expr, Timely (e.valueOver A slots)
  | .number v => .ok v
  | .slot i => by
    intro limit h
    simp only [Expr.valueOver] at h
    split at h <;> cases h
  | .neg e => (timely_valueOver slots e).bind fun v => .ok _
  | .binary op a b => by
    simp only [Expr.valueOver]
    exact (timely_valueOver slots a).bind fun x => (timely_valueOver slots b).bind fun y =>
      timely_binary A op x y
  | .call f args => (timely_valuesOver slots args).bind fun vs => timely_apply A f vs
  | .conditional c t e => by
    simp only [Expr.valueOver]
    refine (timely_valueOver slots c).bind fun x => ?_
    split
    · exact timely_valueOver slots e
    · exact timely_valueOver slots t
theorem timely_valuesOver (slots : List Float) :
    ∀ es : List Expr, Timely (Expr.valuesOver A slots es)
  | [] => .ok []
  | e :: es => by
    simp only [Expr.valuesOver]
    exact (timely_valueOver slots e).bind fun v => (timely_valuesOver slots es).bind fun vs => .ok _
end

theorem timely_value (e : Expr) (slots : List Float) : Timely (e.value A slots) :=
  (timely_valueOver A slots e).bind fun v => timely_finite .result v

end

namespace Program

variable {A : Arithmetic} {p : Program} {slots : List Float}

/-- Only a run that used up its budget could go on differently with more. -/
theorem runFrom_add {limit budget : Nat} {s : State}
    (within : Timely (p.runFrom A slots limit budget s)) (limit' more : Nat) :
    p.runFrom A slots limit' (budget + more) s = p.runFrom A slots limit budget s := by
  induction budget generalizing s with
  | zero =>
    by_cases inside : s.position < p.code.size
    · rw [runFrom, if_pos inside] at within
      exact absurd rfl (within limit)
    · have ended : p.code[s.position]? = none := Array.getElem?_eq_none (Nat.not_lt.mp inside)
      rw [runFrom_at_end A slots limit' _ ended, runFrom_at_end A slots limit 0 ended]
  | succ budget ih =>
    rw [Nat.succ_add, runFrom, runFrom]
    rw [runFrom] at within
    cases found : p.code[s.position]? with
    | none => rfl
    | some i =>
      simp only [found] at within ⊢
      cases done : step A p.constants slots s i with
      | error failure => rfl
      | ok t =>
        rw [done] at within
        exact ih within

variable {e : Expr} {limit : Nat}

theorem run_of_covered (A : Arithmetic) (covered : e.slotCount ≤ slots.length) (limit : Nat) :
    (ofExpr e).run A slots limit =
      (do single (← (ofExpr e).runFrom A slots limit limit ⟨0, []⟩)) := by
  rw [run, misfit?_ofExpr covered]

theorem value_eq_runFrom (A : Arithmetic) (e : Expr) (slots : List Float)
    (enough : codeSize e ≤ limit) :
    (do single (← (ofExpr e).runFrom A slots limit limit ⟨0, []⟩)) = e.value A slots := by
  rw [runFrom_ofExpr A e slots enough, Expr.value]
  cases e.valueOver A slots <;> rfl

theorem run_eq_value (covered : e.slotCount ≤ slots.length)
    (within : Timely ((ofExpr e).run A slots limit)) :
    (ofExpr e).run A slots limit = e.value A slots := by
  rw [run_of_covered A covered] at within ⊢
  have machine : Timely ((ofExpr e).runFrom A slots limit limit ⟨0, []⟩) := by
    intro other failed
    rw [failed] at within
    exact within other rfl
  rw [← value_eq_runFrom A e slots (Nat.le_add_left (codeSize e) limit), runFrom_add machine]

theorem timely_run (covered : e.slotCount ≤ slots.length)
    (enough : (ofExpr e).code.size ≤ limit) : Timely ((ofExpr e).run A slots limit) := by
  rw [size_code_ofExpr] at enough
  rw [run_of_covered A covered, value_eq_runFrom A e slots enough]
  exact timely_value A e slots

end Program
end BuildingCode.Machine

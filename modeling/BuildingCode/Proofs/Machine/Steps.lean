import BuildingCode.Machine.Run
import BuildingCode.Proofs.Outcome

/-! What one instruction can do to the machine, whatever the program: how much it takes off the
stack, what it leaves there, where it goes on, and what keeps it clear of the guards. -/
namespace BuildingCode.Machine
open Expression

/-- No guard is the reason for the failure, if there is one. -/
def Clear (r : Except Failure α) : Prop := ∀ cause, r ≠ .error (.mismatch cause)

namespace Clear

theorem ok (a : α) : Clear (.ok a) := by
  intro cause h
  cases h

theorem bind {x : Except Failure α} {f : α → Except Failure β} (first : Clear x)
    (rest : ∀ a, x = .ok a → Clear (f a)) : Clear (x >>= f) := by
  intro cause h
  rcases Outcome.bind_eq_error.mp h with failed | ⟨a, done, failed⟩
  · exact first cause failed
  · exact rest a done cause failed

theorem ite {c : Prop} [Decidable c] {x y : Except Failure α} (yes : Clear x) (no : Clear y) :
    Clear (if c then x else y) := by
  split
  · exact yes
  · exact no

theorem divisionByZero : Clear (.error .divisionByZero : Except Failure α) := by
  intro cause h
  cases h

theorem undefined (f : MathFunction) (x : Float) :
    Clear (.error (.undefined f x) : Except Failure α) := by
  intro cause h
  cases h

theorem nonFinite (operation : Operation) :
    Clear (.error (.nonFinite operation) : Except Failure α) := by
  intro cause h
  cases h

theorem budgetExceeded (limit : Nat) :
    Clear (.error (.budgetExceeded limit) : Except Failure α) := by
  intro cause h
  cases h

end Clear

section
variable (A : Arithmetic)

theorem clear_finite (operation : Operation) (x : Float) : Clear (finite operation x) :=
  .ite (.ok x) (.nonFinite operation)

theorem clear_defined (f : MathFunction) (argument x : Float) : Clear (defined f argument x) :=
  .ite (.undefined f argument) (clear_finite _ x)

theorem clear_raise (a b : Float) : Clear (raise A a b) :=
  .ite .divisionByZero (clear_defined .pow a _)

theorem clear_binary (op : BinaryOp) (a b : Float) : Clear (op.apply A a b) := by
  cases op with
  | add | sub | mul => exact clear_finite _ _
  | div | rem => exact .ite .divisionByZero (clear_finite _ _)
  | pow => exact clear_raise A a b
  | lt | le | gt | ge | eq | ne => exact .ok _

theorem clear_apply (f : MathFunction) (args : List Float)
    (arity : f.arity.accepts args.length = true) : Clear (f.apply A args) := by
  match args with
  | [] => cases f <;> contradiction
  | x :: more =>
    cases f with
    | pow | atan2 =>
      match more with
      | [] => contradiction
      | y :: _ => first | exact clear_raise A x y | exact .ok _
    | sqrt | ln | log10 | log2 => exact .ite (.undefined _ x) (.ok _)
    | asin | acos => exact .ite (.ok _) (.undefined _ x)
    | exp | sinh | cosh | hypot => exact clear_finite _ _
    | sin | cos | tan => exact clear_defined _ x _
    | abs | cbrt | atan | tanh | floor | ceil | round | trunc | sign | min | max => exact .ok _

end

namespace Instr

def pops : Instr → Nat
  | const _ | load _ | jump _ => 0
  | neg | jumpIfFalse _ => 1
  | binary _ => 2
  | call _ count => count

def pushes : Instr → Nat
  | jumpIfFalse _ | jump _ => 0
  | const _ | load _ | neg | binary _ | call _ _ => 1

/-- The positions at which a run may go on. -/
def successors (address : Nat) : Instr → List Nat
  | jumpIfFalse target => [address + 1, target]
  | jump target => [target]
  | const _ | load _ | neg | binary _ | call _ _ => [address + 1]

def accepted : Instr → Bool
  | call f count => f.arity.accepts count
  | const _ | load _ | neg | binary _ | jumpIfFalse _ | jump _ => true

end Instr

variable {A : Arithmetic} {p : Program} {slots : List Float}

theorem step_binary (constants : Array Float) (position : Nat) (op : BinaryOp) (a b : Float)
    (rest : List Float) : step A constants slots ⟨position, b :: a :: rest⟩ (.binary op) =
      (do return ⟨position + 1, (← op.apply A a b) :: rest⟩) := rfl

theorem step_call (constants : Array Float) (position : Nat) (f : MathFunction) {count : Nat}
    {stack : List Float} (enough : count ≤ stack.length) :
    step A constants slots ⟨position, stack⟩ (.call f count) =
      (do return ⟨position + 1, (← f.apply A (stack.take count).reverse) :: stack.drop count⟩) := by
  simp only [step, popArguments, if_pos enough]
  rfl

theorem clear_step {s : State} {i : Instr} (inRange : i.inRange p slots = true)
    (accepted : i.accepted = true) (enough : i.pops ≤ s.stack.length) :
    Clear (step A p.constants slots s i) := by
  obtain ⟨position, stack⟩ := s
  cases i with
  | const index =>
    have found := Array.getElem?_eq_getElem (of_decide_eq_true inRange)
    simp only [step, found]
    exact .ok _
  | load index =>
    have found := List.getElem?_eq_getElem (of_decide_eq_true inRange)
    simp only [step, found]
    exact .ok _
  | neg =>
    obtain ⟨v, rest, rfl⟩ := List.exists_cons_of_length_pos enough
    exact .ok _
  | binary op =>
    obtain ⟨b, rest, rfl⟩ := List.exists_cons_of_length_pos (Nat.zero_lt_of_lt enough)
    obtain ⟨a, rest, rfl⟩ := List.exists_cons_of_length_pos (Nat.le_of_succ_le_succ enough)
    rw [step_binary]
    exact .bind (clear_binary A op a b) fun v _ => .ok _
  | call f count =>
    have enough : count ≤ stack.length := enough
    have length : (stack.take count).reverse.length = count :=
      List.length_reverse.trans (List.length_take_of_le enough)
    rw [step_call p.constants position f enough]
    refine .bind (clear_apply A f _ ?_) fun v _ => .ok _
    rw [length]
    exact accepted
  | jumpIfFalse target =>
    obtain ⟨v, rest, rfl⟩ := List.exists_cons_of_length_pos enough
    exact .ok _
  | jump target => exact .ok _

/-- What an instruction did when it succeeded: it replaced values on top of the stack and left
those below alone. -/
structure Did (i : Instr) (s t : State) (taken given below : List Float) : Prop where
  before : s.stack = taken ++ below
  after : t.stack = given ++ below
  pops : taken.length = i.pops
  pushes : given.length = i.pushes
  goes : t.position ∈ i.successors s.position

theorem exists_did {s t : State} {i : Instr} (h : step A p.constants slots s i = .ok t) :
    ∃ taken given below, Did i s t taken given below := by
  obtain ⟨position, stack⟩ := s
  cases i with
  | const index =>
    simp only [step] at h
    cases found : p.constants[index]? with
    | none => rw [found] at h; cases h
    | some v =>
      rw [found] at h
      cases h
      exact ⟨[], [v], stack, rfl, rfl, rfl, rfl, List.mem_singleton_self _⟩
  | load index =>
    simp only [step] at h
    cases found : slots[index]? with
    | none => rw [found] at h; cases h
    | some v =>
      rw [found] at h
      cases h
      exact ⟨[], [v], stack, rfl, rfl, rfl, rfl, List.mem_singleton_self _⟩
  | neg =>
    cases stack with
    | nil => cases h
    | cons v below =>
      cases h
      exact ⟨[v], [A.neg v], below, rfl, rfl, rfl, rfl, List.mem_singleton_self _⟩
  | binary op =>
    cases stack with
    | nil => cases h
    | cons b under =>
      cases under with
      | nil => cases h
      | cons a below =>
        rw [step_binary] at h
        cases applied : op.apply A a b with
        | error f => rw [applied] at h; cases h
        | ok v =>
          rw [applied] at h
          cases h
          exact ⟨[b, a], [v], below, rfl, rfl, rfl, rfl, List.mem_singleton_self _⟩
  | call f count =>
    by_cases enough : count ≤ stack.length
    · rw [step_call p.constants position f enough] at h
      cases applied : f.apply A (stack.take count).reverse with
      | error f => rw [applied] at h; cases h
      | ok v =>
        rw [applied] at h
        cases h
        exact ⟨stack.take count, [v], stack.drop count, (List.take_append_drop _ _).symm, rfl,
          List.length_take_of_le enough, rfl, List.mem_singleton_self _⟩
    · simp only [step, popArguments, if_neg enough] at h
      cases h
  | jumpIfFalse target =>
    cases stack with
    | nil => cases h
    | cons v below =>
      cases h
      refine ⟨[v], [], below, rfl, rfl, rfl, rfl, ?_⟩
      by_cases zero : v == 0.0 <;> simp [Instr.successors, zero]
  | jump target =>
    cases h
    exact ⟨[], [], stack, rfl, rfl, rfl, rfl, List.mem_singleton_self _⟩

/-- A number of instructions in a row, none of which fails. -/
inductive Steps (A : Arithmetic) (p : Program) (slots : List Float) : Nat → State → State → Prop
  | refl (s : State) : Steps A p slots 0 s s
  | next {n : Nat} {s t u : State} {i : Instr} : Steps A p slots n s t →
      p.code[t.position]? = some i → step A p.constants slots t i = .ok u → Steps A p slots (n + 1) s u

/-- What every instruction preserves holds along a run. -/
theorem Steps.invariant {Q : State → Prop} {n : Nat} {s t : State}
    (steps : Steps A p slots n s t) (start : Q s)
    (preserved : ∀ t u i, Q t → p.code[t.position]? = some i →
      step A p.constants slots t i = .ok u → Q u) : Q t := by
  induction steps with
  | refl => exact start
  | next _ found done ih => exact preserved _ _ _ (ih start) found done

end BuildingCode.Machine

import BuildingCode.Proofs.Machine.Heights

/-! A lowered program never trips a guard of the machine. The state that a run is in agrees with the
cell at its position; every instruction preserves that, so it holds of every state of every run. -/
namespace BuildingCode.Machine
open Expression

namespace Program

/-- The height of the stack at a position of the program, the end among them. -/
def HeightAt (e : Expr) (address height : Nat) : Prop :=
  ((layout e).map Cell.height ++ [1])[address]? = some height

theorem heightAt_of_cell {e : Expr} {address : Nat} {c : Cell}
    (found : (layout e)[address]? = some c) : HeightAt e address c.height := by
  have inside := (List.getElem?_eq_some_iff.mp found).1
  unfold HeightAt
  rw [List.getElem?_append_left (by simpa using inside), List.getElem?_map, found]
  rfl

theorem heightAt_end (e : Expr) : HeightAt e (codeSize e) 1 := by
  simp [HeightAt]

theorem agrees_layout (e : Expr) : Agrees (HeightAt e) 0 (layout e) := by
  apply Along.of_index
  intro k c found
  rw [Nat.zero_add]
  exact heightAt_of_cell found

theorem HeightAt.start (e : Expr) : HeightAt e 0 0 := Agrees.entry 0 0 e (agrees_layout e)

theorem checked_layout (e : Expr) : Along (Cell.Checked (HeightAt e)) 0 (layout e) := by
  apply checked_cells 0 0 e (agrees_layout e)
  rw [Nat.zero_add]
  exact heightAt_end e

/-- At a position the program has the instruction of a checked cell there, or it ends there with
one value on the stack. -/
theorem HeightAt.cases {e : Expr} {address height : Nat} (known : HeightAt e address height) :
    (∃ c, (layout e)[address]? = some c ∧ c.height = height) ∨
      (address = codeSize e ∧ height = 1) := by
  unfold HeightAt at known
  by_cases inside : address < codeSize e
  · left
    rw [List.getElem?_append_left (by simpa using inside), List.getElem?_map,
      Option.map_eq_some_iff] at known
    exact known
  · right
    have last : address = codeSize e := by
      have := (List.getElem?_eq_some_iff.mp known).1
      simp only [List.length_append, List.length_map, length_layout, List.length_singleton] at this
      omega
    subst last
    simpa using known.symm

/-- What the guards of the machine ask of a state. -/
structure Ready (p : Program) (slots : List Float) (s : State) : Prop where
  room : s.stack.length ≤ p.maxStack
  inRange : ∀ i, p.code[s.position]? = some i → i.inRange p slots = true
  accepted : ∀ i, p.code[s.position]? = some i → i.accepted = true
  operands : ∀ i, p.code[s.position]? = some i → i.pops ≤ s.stack.length
  single : p.code[s.position]? = none → s.stack.length = 1

section
variable {A : Arithmetic} {e : Expr} {slots : List Float}

theorem code_eq_some_iff {address : Nat} {i : Instr} :
    (ofExpr e).code[address]? = some i ↔ ∃ c, (layout e)[address]? = some c ∧ c.instr = i := by
  rw [code_ofExpr, List.getElem?_toArray, List.getElem?_map, Option.map_eq_some_iff]

theorem HeightAt.checked {address height : Nat} {i : Instr} (known : HeightAt e address height)
    (found : (ofExpr e).code[address]? = some i) :
    ∃ c ∈ layout e, c.instr = i ∧ c.height = height ∧ c.Checked (HeightAt e) address := by
  obtain ⟨c, here, rfl⟩ := code_eq_some_iff.mp found
  have same : HeightAt e address c.height := heightAt_of_cell here
  have agrees : c.height = height := Option.some.inj (same.symm.trans known)
  have checked := (checked_layout e).at_index here
  rw [Nat.zero_add] at checked
  exact ⟨c, List.mem_of_getElem? here, rfl, agrees, checked⟩

theorem HeightAt.le_maxStack {address height : Nat} (known : HeightAt e address height) :
    height ≤ (ofExpr e).maxStack := by
  rcases known.cases with ⟨c, here, rfl⟩ | ⟨_, rfl⟩
  · exact (inherited_height (stackHeight e)).cells 0 0 e (by simp) c (List.mem_of_getElem? here)
  · exact stackHeight_pos e

theorem HeightAt.step {s t : State} {i : Instr} (known : HeightAt e s.position s.stack.length)
    (found : (ofExpr e).code[s.position]? = some i)
    (done : Machine.step A (ofExpr e).constants slots s i = .ok t) :
    HeightAt e t.position t.stack.length := by
  obtain ⟨c, _, rfl, height, _, next⟩ := known.checked found
  obtain ⟨taken, given, below, did⟩ := exists_did done
  have lengths : t.stack.length = c.height - c.instr.pops + c.instr.pushes := by
    rw [height, did.before, did.after, List.length_append, List.length_append, did.pops, did.pushes]
    omega
  rw [lengths]
  exact next t.position did.goes

theorem HeightAt.ready {s : State} (resolved : e.Resolved slots.length)
    (known : HeightAt e s.position s.stack.length) : Ready (ofExpr e) slots s where
  room := known.le_maxStack
  inRange i found := inRange_ofExpr resolved.slotCount_le i (Array.mem_of_getElem? found)
  accepted i found := by
    obtain ⟨c, member, rfl, _⟩ := known.checked found
    exact (inherited_accepted slots.length).cells 0 0 e resolved c member
  operands i found := by
    obtain ⟨c, _, rfl, height, enough, _⟩ := known.checked found
    exact height ▸ enough
  single ended := by
    rcases known.cases with ⟨c, here, _⟩ | ⟨_, one⟩
    · rw [code_eq_some_iff.mpr ⟨c, here, rfl⟩] at ended
      contradiction
    · exact one

theorem ready_of_steps (resolved : e.Resolved slots.length) {n : Nat} {s : State}
    (steps : Steps A (ofExpr e) slots n ⟨0, []⟩ s) : Ready (ofExpr e) slots s := by
  apply HeightAt.ready resolved
  exact steps.invariant (Q := fun t => HeightAt e t.position t.stack.length) (HeightAt.start e)
    fun t u i known found done => known.step found done

/-- A run ends with one value, with a failure of the arithmetic or for want of budget. -/
theorem clear_runFrom (resolved : e.Resolved slots.length) (limit budget : Nat) (s : State)
    (known : HeightAt e s.position s.stack.length) :
    Clear (do single (← (ofExpr e).runFrom A slots limit budget s)) := by
  have ends : ∀ t : State, t.stack.length = 1 → Clear (single t.stack) := by
    intro t one
    obtain ⟨v, only⟩ := List.length_eq_one_iff.mp one
    rw [only]
    exact clear_finite .result v
  induction budget generalizing s with
  | zero =>
    rw [runFrom]
    by_cases inside : s.position < (ofExpr e).code.size
    · rw [if_pos inside]
      exact .budgetExceeded limit
    · rw [if_neg inside]
      exact ends s ((known.ready resolved).single (Array.getElem?_eq_none (Nat.not_lt.mp inside)))
  | succ budget ih =>
    rw [runFrom]
    cases found : (ofExpr e).code[s.position]? with
    | none => exact ends s ((known.ready resolved).single found)
    | some i =>
      have ready := known.ready resolved
      have safe : Clear (Machine.step A (ofExpr e).constants slots s i) :=
        clear_step (ready.inRange i found) (ready.accepted i found) (ready.operands i found)
      rw [bind_assoc]
      exact safe.bind fun t done => ih t (known.step found done)

theorem clear_run (resolved : e.Resolved slots.length) (limit : Nat) :
    Clear ((ofExpr e).run A slots limit) := by
  unfold run
  rw [misfit?_ofExpr resolved.slotCount_le]
  exact clear_runFrom resolved limit limit ⟨0, []⟩ (HeightAt.start e)

end
end Program
end BuildingCode.Machine

import BuildingCode.Proofs.Machine.Safety
import Mathlib.Order.Bounds.Defs
import Mathlib.Order.MinMax

/-! Paths through a program, on which a conditional goes either way. They tell how high the stack gets
whatever the values on it are: no higher than the program says, and on one of them as high as that. -/
namespace BuildingCode.Machine
open Expression

inductive Program.Reaches (p : Program) : (address height : Nat) → Prop
  | start : p.Reaches 0 0
  | step {address height next : Nat} {i : Instr} : p.Reaches address height →
      p.code[address]? = some i → next ∈ i.successors address →
        p.Reaches next (height - i.pops + i.pushes)

def Program.Rises (p : Program) (height : Nat) : Prop := ∃ address, p.Reaches address height

theorem Program.Rises.max {p : Program} {height m n : Nat} (first : p.Rises (height + m))
    (second : p.Rises (height + n)) : p.Rises (height + max m n) :=
  max_rec' (fun k => p.Rises (height + k)) first second

theorem Program.reaches_of_steps {A : Arithmetic} {p : Program} {slots : List Float} {n : Nat}
    {s : State} (steps : Steps A p slots n ⟨0, []⟩ s) : p.Reaches s.position s.stack.length := by
  apply steps.invariant (Q := fun s => p.Reaches s.position s.stack.length) .start
  intro t u i reached found done
  obtain ⟨taken, given, below, did⟩ := exists_did done
  have lengths : u.stack.length = t.stack.length - i.pops + i.pushes := by
    rw [did.before, did.after, List.length_append, List.length_append, did.pops, did.pushes]
    omega
  rw [lengths]
  exact reached.step found did.goes

section
variable {p : Program} {constants : Array Float}

mutual
/-- A path leads through all of the code of an expression, by its second arm where it has two, and one
leads to where its stack is highest. -/
theorem reaches_cells (start height : Nat) : ∀ e : Expr,
    p.Holds start (cells constants start height e) → p.Reaches start height →
      p.Reaches (start + codeSize e) (height + 1) ∧
        p.Rises (height + stackHeight e)
  | .number _, held, reached | .slot _, held, reached => by
    have after := reached.step held.1 (List.mem_singleton_self _)
    exact ⟨after, _, after⟩
  | .neg e, held, reached => by
    simp only [Program.Holds, cells, Along.append, length_cells, Along.cons] at held
    obtain ⟨through, highest⟩ := reaches_cells start height e held.1 reached
    exact ⟨through.step held.2.1 (List.mem_singleton_self _), highest⟩
  | .binary op a b, held, reached => by
    simp only [Program.Holds, cells, Along.append, length_cells, Along.cons] at held
    obtain ⟨through, highest⟩ := reaches_cells start height a held.1 reached
    obtain ⟨through', highest'⟩ :=
      reaches_cells (start + codeSize a) (height + 1) b held.2.1 through
    have after := through'.step held.2.2.1 (List.mem_singleton_self _)
    rw [Nat.add_right_comm, Nat.add_assoc] at highest'
    simp only [stackHeight, codeSize, ← Nat.add_assoc]
    exact ⟨after, highest.max highest'⟩
  | .call f args, held, reached => by
    simp only [Program.Holds, cells, Along.append, length_cellsAll, Along.cons] at held
    obtain ⟨through, highest⟩ := reaches_cellsAll start height args held.1 reached
    have after := through.step held.2.1 (List.mem_singleton_self _)
    simp only [Instr.pops, Instr.pushes, Nat.add_sub_cancel] at after
    exact ⟨after, highest.max ⟨_, after⟩⟩
  | .conditional c t e, held, reached => by
    simp only [Program.Holds, cells, Along.append, length_cells, Along.cons] at held
    obtain ⟨inC, atBranch, inT, atSkip, inE⟩ := held
    obtain ⟨through, highest⟩ := reaches_cells start height c inC reached
    have taken := through.step atBranch List.mem_cons_self
    have other := through.step atBranch (List.mem_cons_of_mem _ (List.mem_singleton_self _))
    obtain ⟨_, highestT⟩ := reaches_cells _ height t inT taken
    obtain ⟨after, highestE⟩ := reaches_cells _ height e inE other
    have finish : start + codeSize (.conditional c t e) =
        start + codeSize c + 1 + codeSize t + 1 + codeSize e := by
      simp only [codeSize]
      omega
    rw [finish]
    exact ⟨after, highest.max (highestT.max highestE)⟩
theorem reaches_cellsAll (start height : Nat) : ∀ es : List Expr,
    p.Holds start (cellsAll constants start height es) → p.Reaches start height →
      p.Reaches (start + codeSizeAll es) (height + es.length) ∧
        p.Rises (height + stackHeightAll es)
  | [], _, reached => ⟨reached, start, reached⟩
  | e :: es, held, reached => by
    simp only [Program.Holds, cellsAll, Along.append, length_cells] at held
    obtain ⟨through, highest⟩ := reaches_cells start height e held.1 reached
    obtain ⟨after, highest'⟩ :=
      reaches_cellsAll (start + codeSize e) (height + 1) es held.2 through
    rw [Nat.add_right_comm, Nat.add_assoc] at highest'
    have finish : start + codeSizeAll (e :: es) = start + codeSize e + codeSizeAll es := by
      simp only [codeSizeAll]
      omega
    have top : height + (e :: es).length = height + 1 + es.length := by
      rw [List.length_cons]
      omega
    rw [finish, top]
    exact ⟨after, highest.max highest'⟩
end

end

namespace Program
variable {e : Expr} {address height : Nat}

theorem Reaches.heightAt (reached : (ofExpr e).Reaches address height) :
    HeightAt e address height := by
  induction reached with
  | start => exact HeightAt.start e
  | step _ found goes known =>
    obtain ⟨c, _, rfl, agrees, _, next⟩ := known.checked found
    rw [← agrees]
    exact next _ goes

theorem Reaches.enough {i : Instr} (reached : (ofExpr e).Reaches address height)
    (found : (ofExpr e).code[address]? = some i) : i.pops ≤ height := by
  obtain ⟨c, _, rfl, rfl, enough, _⟩ := reached.heightAt.checked found
  exact enough

theorem isGreatest_maxStack (e : Expr) :
    IsGreatest {height | (ofExpr e).Rises height} (ofExpr e).maxStack := by
  obtain ⟨_, highest⟩ := reaches_cells 0 0 e (holds_layout e) .start
  rw [Nat.zero_add] at highest
  refine ⟨highest, ?_⟩
  rintro height ⟨address, reached⟩
  exact reached.heightAt.le_maxStack

end Program
end BuildingCode.Machine

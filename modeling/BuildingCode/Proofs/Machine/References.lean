import BuildingCode.Machine.Run
import BuildingCode.Proofs.Expression.Identifiers
import BuildingCode.Proofs.Expression.Parsing
import BuildingCode.Proofs.Machine.Cells
import BuildingCode.Proofs.Outcome

/-! What a program can reach. Lowering keeps the references of an expression as they are, so a
program loads the slots that its text names and calls whitelisted functions, and nothing else. -/
namespace BuildingCode.Machine
open Expression Outcome

namespace Instr

def reference? : Instr → Option Reference
  | load i => some (.slot i)
  | call f count => some (.function f count)
  | const _ | neg | binary _ | jumpIfFalse _ | jump _ => none

@[simp] theorem reference?_call (f : MathFunction) (count : Nat) :
    (call f count).reference? = some (.function f count) := rfl

@[simp] theorem reference?_neg : neg.reference? = none := rfl

@[simp] theorem reference?_binary (op : BinaryOp) : (binary op).reference? = none := rfl

@[simp] theorem reference?_jumpIfFalse (target : Nat) :
    (jumpIfFalse target).reference? = none := rfl

@[simp] theorem reference?_jump (target : Nat) : (jump target).reference? = none := rfl

theorem slot?_eq_some_iff {i : Instr} {slot : Nat} :
    i.slot? = some slot ↔ i.reference? = some (.slot slot) := by
  cases i <;> simp [slot?, reference?]

theorem reference?_of_opcode {i : Instr} (h : i.opcode = "Call") :
    ∃ f count, i.reference? = some (.function f count) ∧ i.operand = f.code ∧ i.aux = count := by
  cases i with
  | call f count => exact ⟨f, count, rfl, rfl, rfl⟩
  | binary op => cases op <;> simp [opcode, opcodeOf] at h
  | _ => simp [opcode] at h

end Instr

mutual
theorem references_cells (constants : Array Float) (start height : Nat) : ∀ e : Expr,
    (cells constants start height e).filterMap (fun c => c.instr.reference?) = e.references
  | .number _ | .slot _ => rfl
  | .neg e => by
    simp [cells, Expr.references, references_cells constants start height e]
  | .binary _ a b => by
    simp [cells, Expr.references, references_cells constants _ _ a,
      references_cells constants _ _ b]
  | .call _ args => by
    simp [cells, Expr.references, referencesAll_cellsAll constants _ _ args]
  | .conditional c t e => by
    simp [cells, Expr.references, List.filterMap_cons, references_cells constants _ _ c,
      references_cells constants _ _ t, references_cells constants _ _ e]
theorem referencesAll_cellsAll (constants : Array Float) (start height : Nat) : ∀ es : List Expr,
    (cellsAll constants start height es).filterMap (fun c => c.instr.reference?) =
      Expr.referencesAll es
  | [] => rfl
  | e :: es => by
    simp [cellsAll, Expr.referencesAll, references_cells constants _ _ e,
      referencesAll_cellsAll constants _ _ es]
end

namespace Program

theorem mem_references_iff {e : Expr} {r : Reference} :
    r ∈ e.references ↔ ∃ i ∈ (ofExpr e).code, i.reference? = some r := by
  rw [← references_cells (poolAll e.literals) 0 0 e, code_ofExpr]
  simp [layout]

theorem mem_referencedSlots_iff {e : Expr} {slot : Nat} :
    slot ∈ (ofExpr e).referencedSlots ↔ .slot slot ∈ e.references := by
  simp [referencedSlots, mem_references_iff, Instr.slot?_eq_some_iff]

theorem pairwise_lt_eraseDups {ns : List Nat} (ascending : ns.Pairwise (· ≤ ·)) :
    ns.eraseDups.Pairwise (· < ·) := by
  induction length : ns.length using Nat.strongRecOn generalizing ns with
  | ind size ih =>
    cases ns with
    | nil => exact .nil
    | cons n ns =>
      obtain ⟨least, ascending⟩ := List.pairwise_cons.mp ascending
      have shorter : (ns.filter fun m => !m == n).length < size := by
        have := List.length_filter_le (fun m => !m == n) ns
        simp only [List.length_cons] at length
        omega
      rw [List.eraseDups_cons, List.pairwise_cons]
      refine ⟨fun m member => ?_, ih _ shorter (ascending.sublist List.filter_sublist) rfl⟩
      have kept : m ∈ ns ∧ m ≠ n := by simpa using member
      exact Nat.lt_of_le_of_ne (least m kept.1) kept.2.symm

theorem pairwise_lt_referencedSlots (p : Program) : p.referencedSlots.Pairwise (· < ·) := by
  apply pairwise_lt_eraseDups
  have sorted : ((p.code.toList.filterMap Instr.slot?).mergeSort fun a b => decide (a ≤ b)).Pairwise
      fun a b => decide (a ≤ b) = true :=
    List.pairwise_mergeSort (fun a b c => by simpa using Nat.le_trans)
      (fun a b => by simpa using Nat.le_total a b) _
  exact sorted.imp of_decide_eq_true

end Program

/-- In a text that compiles every identifier is allowed where it stands, the referenced slots are
those whose names it holds, in order and each once, and every call is one of a whitelisted function
that the text names, with as many arguments as the function takes. -/
theorem Program.ofText_reaches_named {scope : Scope} {limits : Limits} {text : String} {p : Program}
    (h : Program.ofText scope limits text = .ok p) :
    ∃ ls, lexemes text = .ok ls ∧
      (∀ before name after, ls.map (·.token) = before ++ .name name :: after →
        Admitted scope before name after) ∧
      p.referencedSlots.Pairwise (· < ·) ∧
      (∀ i, i ∈ p.referencedSlots ↔
        ∃ name, scope.names[i]? = some name ∧ .name name ∈ ls.map (·.token)) ∧
      ∀ i ∈ p.code, i.opcode = "Call" → ∃ name f, function? name = some f ∧
        .name name ∈ ls.map (·.token) ∧ i.operand = f.code ∧ f.arity.accepts i.aux = true := by
  obtain ⟨e, read, lowered⟩ := bind_eq_ok.mp h
  cases lowered
  obtain ⟨ls, scanned, derives⟩ := derives_of_ofText read
  refine ⟨ls, scanned, ?_, pairwise_lt_referencedSlots _, ?_, ?_⟩
  · intro before name after split
    simpa using derives.admitted bare_nil [] before name after split
  · intro i
    rw [mem_referencedSlots_iff]
    constructor
    · intro member
      obtain ⟨name, inside, found⟩ := derives.named _ member
      exact ⟨name, Scope.slot?_eq_some_iff.mp found, inside⟩
    · rintro ⟨name, found, inside⟩
      exact derives.slot_mem (Scope.slot?_eq_some_iff.mpr found) inside
  · intro i member call
    obtain ⟨f, count, refers, code, aux⟩ := Instr.reference?_of_opcode call
    have inside : .function f count ∈ e.references := mem_references_iff.mpr ⟨i, member, refers⟩
    obtain ⟨⟨name, word, found⟩, arity⟩ := derives.named _ inside
    exact ⟨name, f, found, word, code, aux ▸ arity⟩

theorem Program.ofText_reaches_named_untaken : ∃ (scope : Scope) (p : Program),
    scope.names = ["a", "b"] ∧ Program.ofText scope {} "a ? values.a : max(a, b)" = .ok p ∧
      0 ∈ p.referencedSlots ∧ 1 ∈ p.referencedSlots := by
  let scope : Scope := ⟨["a", "b"], by decide, by decide⟩
  have compiled : (Program.ofText scope {} "a ? values.a : max(a, b)").isOk = true := by
    decide +kernel
  have read : lexemes "a ? values.a : max(a, b)" = .ok [⟨.name "a", 0, 1⟩, ⟨.question, 2, 1⟩,
      ⟨.name "values", 4, 6⟩, ⟨.dot, 10, 1⟩, ⟨.name "a", 11, 1⟩, ⟨.colon, 13, 1⟩,
      ⟨.name "max", 15, 3⟩, ⟨.openParen, 18, 1⟩, ⟨.name "a", 19, 1⟩, ⟨.comma, 20, 1⟩,
      ⟨.name "b", 22, 1⟩, ⟨.closeParen, 23, 1⟩] := rfl
  cases lowered : Program.ofText scope {} "a ? values.a : max(a, b)" with
  | error r =>
    rw [lowered] at compiled
    cases compiled
  | ok p =>
    obtain ⟨ls, scanned, _, _, referenced, _⟩ := Program.ofText_reaches_named lowered
    cases scanned.symm.trans read
    exact ⟨scope, p, rfl, lowered, (referenced 0).mpr ⟨"a", rfl, by simp⟩,
      (referenced 1).mpr ⟨"b", rfl, by simp⟩⟩

end BuildingCode.Machine

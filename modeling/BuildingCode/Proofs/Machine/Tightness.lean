import BuildingCode.Proofs.Machine.OnePass
import BuildingCode.Proofs.Machine.Paths
import BuildingCode.Proofs.Machine.References

/-! Lowered programs hold nothing that they do not need. Every number of the pool is loaded, the slots end
at the highest one that is loaded, and on some path the stack fills up. All that instructions refer to is
small enough for the columns that one pass writes, so those read as the program. -/
namespace BuildingCode.Machine
open Expression

namespace Instr

def constant? : Instr → Option Nat
  | const index => some index
  | load _ | neg | binary _ | call _ _ | jumpIfFalse _ | jump _ => none

@[simp] theorem constant?_neg : neg.constant? = none := rfl

@[simp] theorem constant?_binary (op : BinaryOp) : (binary op).constant? = none := rfl

@[simp] theorem constant?_call (f : MathFunction) (count : Nat) :
    (call f count).constant? = none := rfl

@[simp] theorem constant?_jumpIfFalse (target : Nat) :
    (jumpIfFalse target).constant? = none := rfl

@[simp] theorem constant?_jump (target : Nat) : (jump target).constant? = none := rfl

end Instr

mutual
theorem constants_cells (constants : Array Float) (start height : Nat) : ∀ e : Expr,
    (cells constants start height e).filterMap (fun c => c.instr.constant?) =
      e.literals.map (poolIndex constants)
  | .number _ | .slot _ => rfl
  | .neg e => by simp [cells, Expr.literals, constants_cells constants start height e]
  | .binary _ a b => by
    simp [cells, Expr.literals, constants_cells constants _ _ a, constants_cells constants _ _ b]
  | .call _ args => by simp [cells, Expr.literals, constantsAll_cellsAll constants _ _ args]
  | .conditional c t e => by
    simp [cells, Expr.literals, List.filterMap_cons, constants_cells constants _ _ c,
      constants_cells constants _ _ t, constants_cells constants _ _ e]
theorem constantsAll_cellsAll (constants : Array Float) (start height : Nat) : ∀ es : List Expr,
    (cellsAll constants start height es).filterMap (fun c => c.instr.constant?) =
      (Expr.literalsAll es).map (poolIndex constants)
  | [] => rfl
  | e :: es => by
    simp [cellsAll, Expr.literalsAll, constants_cells constants _ _ e,
      constantsAll_cellsAll constants _ _ es]
end

mutual
theorem slot_mem_references {k : Nat} : ∀ e : Expr, e.slotCount = k + 1 → .slot k ∈ e.references
  | .slot i, counted => by
    rw [Nat.succ.inj counted]
    exact List.mem_singleton_self _
  | .neg e, counted => slot_mem_references e counted
  | .binary _ a b, counted => by
    simp only [Expr.slotCount] at counted
    simp only [Expr.references, List.mem_append]
    obtain left | right : a.slotCount = k + 1 ∨ b.slotCount = k + 1 := by omega
    · exact .inl (slot_mem_references a left)
    · exact .inr (slot_mem_references b right)
  | .call _ args, counted => List.mem_append_left _ (slot_mem_referencesAll args counted)
  | .conditional c t e, counted => by
    simp only [Expr.slotCount] at counted
    simp only [Expr.references, List.mem_append]
    obtain condition | taken | other :
        c.slotCount = k + 1 ∨ t.slotCount = k + 1 ∨ e.slotCount = k + 1 := by omega
    · exact .inl (slot_mem_references c condition)
    · exact .inr (.inl (slot_mem_references t taken))
    · exact .inr (.inr (slot_mem_references e other))
theorem slot_mem_referencesAll {k : Nat} : ∀ es : List Expr,
    Expr.slotCountAll es = k + 1 → .slot k ∈ Expr.referencesAll es
  | e :: es, counted => by
    simp only [Expr.slotCountAll] at counted
    simp only [Expr.referencesAll, List.mem_append]
    obtain first | later : e.slotCount = k + 1 ∨ Expr.slotCountAll es = k + 1 := by omega
    · exact .inl (slot_mem_references e first)
    · exact .inr (slot_mem_referencesAll es later)
end

mutual
theorem stackHeight_le_codeSize : ∀ e : Expr, stackHeight e ≤ codeSize e
  | .number _ | .slot _ => Nat.le_refl 1
  | .neg e => Nat.le_succ_of_le (stackHeight_le_codeSize e)
  | .binary _ a b => by
    have left := stackHeight_le_codeSize a
    have right := stackHeight_le_codeSize b
    have positive := Nat.lt_of_lt_of_le (stackHeight_pos a) left
    simp only [stackHeight, codeSize]
    omega
  | .call _ args => by
    have inner := stackHeightAll_le_codeSizeAll args
    simp only [stackHeight, codeSize]
    omega
  | .conditional c t e => by
    have condition := stackHeight_le_codeSize c
    have taken := stackHeight_le_codeSize t
    have other := stackHeight_le_codeSize e
    simp only [stackHeight, codeSize]
    omega
theorem stackHeightAll_le_codeSizeAll : ∀ es : List Expr, stackHeightAll es ≤ codeSizeAll es
  | [] => Nat.le_refl 0
  | e :: es => by
    have first := stackHeight_le_codeSize e
    have later := stackHeightAll_le_codeSizeAll es
    have positive := Nat.lt_of_lt_of_le (stackHeight_pos e) first
    simp only [stackHeightAll, codeSizeAll]
    omega
end

theorem Instr.aux_le_pops (i : Instr) : i.aux ≤ i.pops := by
  cases i <;> first | exact Nat.le_refl _ | exact Nat.zero_le _

theorem functionCode_lt (f : MathFunction) : f.code < UInt32.size := by
  cases f <;> decide

namespace Program
variable {e : Expr}

/-- The indices of the numbers that a program loads, in the order of its code. -/
def constantLoads (p : Program) : List Nat := p.code.toList.filterMap Instr.constant?

theorem constantLoads_ofExpr (e : Expr) :
    (ofExpr e).constantLoads = e.literals.map (poolIndex (ofExpr e).constants) := by
  have loads := constants_cells (poolAll e.literals) 0 0 e
  rw [constantLoads, code_ofExpr, List.filterMap_map]
  exact loads

theorem inRange_self {i : Instr} (member : i ∈ (ofExpr e).code) :
    i.inRange (ofExpr e) (List.replicate e.slotCount 0.0) = true :=
  inRange_ofExpr (by simp) i member

theorem lt_slotCount {slot : Nat} (referenced : slot ∈ (ofExpr e).referencedSlots) :
    slot < e.slotCount := by
  obtain ⟨i, member, refers⟩ := mem_references_iff.mp (mem_referencedSlots_iff.mp referenced)
  have inRange := inRange_self member
  cases i with
  | load index =>
    cases refers
    simpa [Instr.inRange] using inRange
  | _ => cases refers

theorem slotCount_eq (e : Expr) :
    (ofExpr e).slotCount = (ofExpr e).referencedSlots.max?.elim 0 (· + 1) := by
  rw [slotCount_ofExpr]
  cases counted : e.slotCount with
  | zero =>
    have none : (ofExpr e).referencedSlots = [] :=
      List.eq_nil_iff_forall_not_mem.mpr fun slot referenced => by
        have := lt_slotCount referenced
        omega
    rw [none]
    rfl
  | succ k =>
    have last : k ∈ (ofExpr e).referencedSlots :=
      mem_referencedSlots_iff.mpr (slot_mem_references e counted)
    have highest : (ofExpr e).referencedSlots.max? = some k := by
      refine List.max?_eq_some_iff.mpr ⟨last, fun slot referenced => ?_⟩
      have := lt_slotCount referenced
      omega
    rw [highest]
    rfl

theorem size_constants_le (e : Expr) : (ofExpr e).constants.size ≤ (ofExpr e).code.size := by
  have pooled := size_foldl_pool_le e.literals #[]
  have loads := congrArg List.length (constantLoads_ofExpr e)
  rw [List.length_map] at loads
  have some : (ofExpr e).constantLoads.length ≤ (ofExpr e).code.size :=
    List.length_filterMap_le Instr.constant? _
  change (poolAll e.literals).size ≤ _
  rw [poolAll]
  simp only [List.size_toArray, List.length_nil] at pooled
  omega

theorem operand_lt (short : (ofExpr e).code.size < UInt32.size) (slots : e.slotCount ≤ UInt32.size)
    {i : Instr} (member : i ∈ (ofExpr e).code) : i.operand < UInt32.size := by
  have inRange := inRange_self member
  have pooled := size_constants_le e
  cases i with
  | const _ | load _ | jumpIfFalse _ | jump _ =>
    simp only [Instr.inRange, List.length_replicate, decide_eq_true_eq] at inRange
    simp only [Instr.operand]
    omega
  | neg | binary _ => exact Nat.zero_lt_of_lt short
  | call f _ => exact functionCode_lt f

theorem aux_lt (short : (ofExpr e).code.size < UInt32.size) {i : Instr}
    (member : i ∈ (ofExpr e).code) : i.aux < UInt32.size := by
  obtain ⟨c, inside, rfl⟩ := exists_cell member
  obtain ⟨k, here⟩ := List.mem_iff_getElem?.mp inside
  have fewer : c.instr.pops ≤ c.height := ((checked_layout e).at_index here).1
  have below : c.height ≤ stackHeight e := (heightAt_of_cell here).le_maxStack
  have sizes := stackHeight_le_codeSize e
  have aux := c.instr.aux_le_pops
  rw [size_code_ofExpr] at short
  omega

end Program

/-- Read back, what is written is the program. -/
structure Tape.Writes (t : Tape) (p : Program) : Prop where
  opcodes : t.columns.opcodes = p.code.toList.map Instr.opcode
  operands : t.columns.operands.map UInt32.toNat = p.code.toList.map Instr.operand
  counts : t.columns.counts.map UInt32.toNat = p.code.toList.map Instr.aux
  constants : t.constants = p.constants
  maxStack : t.maxStack = p.maxStack
  slotCount : t.slotCount = p.slotCount

/-- A program without anything to spare, for an expression with these numbers. -/
structure Program.Tight (p : Program) (literals : List Float) : Prop where
  distinct : (p.constants.toList.map Float.toBits).Nodup
  firstUses : p.constantLoads.eraseDups = List.range p.constants.size
  loaded : p.constantLoads.map (fun i => p.constants[i]?.map Float.toBits) =
    literals.map fun v => some v.toBits
  slotCount : p.slotCount = p.referencedSlots.max?.elim 0 (· + 1)
  maxStack : IsGreatest {height | p.Rises height} p.maxStack
  enough : ∀ address height i, p.Reaches address height → p.code[address]? = some i → i.pops ≤ height

theorem Program.tight_ofExpr (e : Expr) : (ofExpr e).Tight e.literals where
  distinct := nodup_poolAll e.literals
  firstUses := by
    rw [constantLoads_ofExpr]
    exact eraseDups_map_poolIndex e.literals
  loaded := by
    rw [constantLoads_ofExpr, List.map_map]
    refine List.map_congr_left fun v member => ?_
    exact congrArg (Option.map Float.toBits) (getElem?_poolIndex (mem_poolAll member))
  slotCount := slotCount_eq e
  maxStack := isGreatest_maxStack e
  enough _ _ _ reached found := reached.enough found

theorem map_toNat_ofNat {code : List Instr} {part : Instr → Nat}
    (fits : ∀ i ∈ code, part i < UInt32.size) :
    (code.map fun i => UInt32.ofNat (part i)).map UInt32.toNat = code.map part := by
  rw [List.map_map]
  exact List.map_congr_left fun i member => UInt32.toNat_ofNat_of_lt (fits i member)

/-- One pass over an expression whose addresses and slots fit 32 bits never takes more off the stack than
it counted and ends with a count of one. It writes columns of one length, which read as a tight program. -/
theorem Tape.lower_tight (e : Expr) (short : (Program.ofExpr e).code.size < UInt32.size)
    (slots : e.slotCount ≤ UInt32.size) : ∃ t, lower e empty = some t ∧ t.depth = 1 ∧
      t.columns.operands.length = t.columns.opcodes.length ∧
      t.columns.counts.length = t.columns.opcodes.length ∧
      t.Writes (Program.ofExpr e) ∧ (Program.ofExpr e).Tight e.literals := by
  refine ⟨_, lower_empty e, rfl, by simp [Columns.ofCode], by simp [Columns.ofCode],
    ⟨rfl, map_toNat_ofNat ?_, map_toNat_ofNat ?_, rfl, rfl, rfl⟩, Program.tight_ofExpr e⟩
  · exact fun i member => Program.operand_lt short slots (Array.mem_toList_iff.mp member)
  · exact fun i member => Program.aux_lt short (Array.mem_toList_iff.mp member)

theorem Tape.lower_tight_arms :
    let e : Expr := .conditional (.slot 0) (.call .max [.number 1.0, .slot 2, .number 1.0])
      (.neg (.number 2.0))
    (Program.ofExpr e).code.size < UInt32.size ∧ e.slotCount ≤ UInt32.size ∧
      ∃ t, lower e empty = some t ∧ t.depth = 1 ∧ t.maxStack = 3 ∧ t.slotCount = 3 ∧
        t.constants.size = 2 ∧ t.columns.operands.map UInt32.toNat = [0, 7, 0, 2, 0, 24, 9, 1, 0] ∧
        t.columns.counts.length = 9 ∧ IsGreatest {height | (Program.ofExpr e).Rises height} 3 := by
  intro e
  have short : (Program.ofExpr e).code.size < UInt32.size := by decide
  have slots : e.slotCount ≤ UInt32.size := by decide
  obtain ⟨t, lowered, depth, _, counts, written, tight⟩ := lower_tight e short slots
  refine ⟨short, slots, t, lowered, depth, written.maxStack, written.slotCount, ?_, ?_, ?_,
    tight.maxStack⟩
  · rw [written.constants]
    decide +kernel
  · rw [written.operands]
    decide +kernel
  · rw [counts, written.opcodes]
    decide +kernel

end BuildingCode.Machine

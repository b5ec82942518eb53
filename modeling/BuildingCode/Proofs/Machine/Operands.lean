import BuildingCode.Machine.Run
import BuildingCode.Proofs.Machine.Cells
import BuildingCode.Proofs.Machine.Pool

/-! Every index and every target in lowered code refers to something, in arms that are taken and in
arms that are not. So a lowered program passes the check that stands before a run. -/
namespace BuildingCode.Machine
open Expression

variable {p : Program} {slots : List Float}

theorem inherited_inRange : Inherited p.constants (fun cell => cell.instr.inRange p slots = true)
    (fun start e _ => (∀ v ∈ e.literals, v ∈ p.constants) ∧ e.slotCount ≤ slots.length ∧
      start + codeSize e ≤ p.code.size)
    (fun start es _ => (∀ v ∈ Expr.literalsAll es, v ∈ p.constants) ∧
      Expr.slotCountAll es ≤ slots.length ∧ start + codeSizeAll es ≤ p.code.size) where
  number _ _ v given := by
    have found := getElem?_poolIndex (given.1 v (by simp [Expr.literals]))
    exact decide_eq_true (Array.getElem?_eq_some_iff.mp found).1
  slot _ _ _ given := decide_eq_true given.2.1
  neg start _ e given := by
    obtain ⟨pooled, covered, fits⟩ := given
    rw [codeSize] at fits
    exact ⟨⟨pooled, covered, by omega⟩, rfl⟩
  binary start _ op a b given := by
    obtain ⟨pooled, covered, fits⟩ := given
    simp only [Expr.literals, List.mem_append] at pooled
    simp only [Expr.slotCount, codeSize] at covered fits
    exact ⟨⟨fun v hv => pooled v (.inl hv), by omega, by omega⟩,
      ⟨fun v hv => pooled v (.inr hv), by omega, by omega⟩, rfl⟩
  call start _ f args given := by
    obtain ⟨pooled, covered, fits⟩ := given
    rw [codeSize] at fits
    exact ⟨⟨pooled, covered, by omega⟩, rfl⟩
  conditional start _ c t e given := by
    obtain ⟨pooled, covered, fits⟩ := given
    simp only [Expr.literals, List.mem_append] at pooled
    simp only [Expr.slotCount, codeSize] at covered fits
    exact ⟨⟨fun v hv => pooled v (.inl (.inl hv)), by omega, by omega⟩, decide_eq_true (by omega),
      ⟨fun v hv => pooled v (.inl (.inr hv)), by omega, by omega⟩, decide_eq_true (by omega),
      ⟨fun v hv => pooled v (.inr hv), by omega, by omega⟩⟩
  cons start _ e es given := by
    obtain ⟨pooled, covered, fits⟩ := given
    simp only [Expr.literalsAll, List.mem_append] at pooled
    simp only [Expr.slotCountAll, codeSizeAll] at covered fits
    exact ⟨⟨fun v hv => pooled v (.inl hv), by omega, by omega⟩,
      ⟨fun v hv => pooled v (.inr hv), by omega, by omega⟩⟩

theorem Program.exists_cell {e : Expr} {i : Instr} (h : i ∈ (Program.ofExpr e).code) :
    ∃ c ∈ Program.layout e, c.instr = i := by
  simpa [Program.code_ofExpr] using h

theorem Program.inRange_ofExpr {e : Expr} (covered : e.slotCount ≤ slots.length) :
    ∀ i ∈ (Program.ofExpr e).code, i.inRange (Program.ofExpr e) slots = true := by
  intro i member
  obtain ⟨c, inside, rfl⟩ := Program.exists_cell member
  have pooled : ∀ v ∈ e.literals, v ∈ (Program.ofExpr e).constants := fun v hv => mem_poolAll hv
  exact inherited_inRange.cells 0 0 e ⟨pooled, covered, by simp⟩ c inside

theorem Program.misfit?_ofExpr {e : Expr} (covered : e.slotCount ≤ slots.length) :
    (Program.ofExpr e).misfit? slots = none := by
  unfold Program.misfit?
  rw [Program.slotCount_ofExpr, if_neg (Nat.not_lt.mpr covered), Option.map_eq_none_iff,
    Array.find?_eq_none]
  intro i member
  simp [Program.inRange_ofExpr covered i member]

end BuildingCode.Machine

import BuildingCode.Clause.Forest
import BuildingCode.Proofs.Clause.Id

/-! Labels are ordered totally. A label that is a clause number is the only text of that number, so no two
labels are equal in the order, whether they are numbers or not. -/
namespace BuildingCode

namespace ClauseId

theorem text_congr {a b : ClauseId} (same : a.values = b.values) : a.text = b.text := by
  unfold text
  rw [same]

instance : Std.TransCmp order where
  eq_swap {a b} := by
    unfold order
    exact Std.OrientedCmp.eq_swap
  isLE_trans {a b c} := by
    unfold order
    exact Std.TransCmp.isLE_trans

theorem text_eq_of_order {a b : ClauseId} (same : a.order b = .eq) : a.text = b.text := by
  unfold order at same
  exact text_congr (Std.LawfulEqCmp.eq_of_compare same)

end ClauseId

namespace Clause

theorem text_of_number? {label : String} {id : ClauseId} (h : number? label = some id) :
    id.text = label := by
  unfold number? at h
  cases read : ClauseId.parse 0xFFFFFFFF label with
  | error fault =>
    rw [read] at h
    cases h
  | ok n =>
    rw [read] at h
    cases h
    exact ClauseId.text_of_parse read

instance : Std.TransCmp compareLabels where
  eq_swap {a b} := by
    unfold compareLabels
    cases number? a <;> cases number? b
    · exact Std.OrientedOrd.eq_swap
    · rfl
    · rfl
    · exact Std.OrientedCmp.eq_swap
  isLE_trans {a b c} ab bc := by
    revert ab bc
    unfold compareLabels
    -- Numbers stand before all other labels, so only labels of one kind have to be compared.
    cases number? a <;> cases number? b <;> cases number? c <;> intro ab bc
    · exact Std.TransOrd.isLE_trans ab bc
    · cases bc
    · cases ab
    · cases ab
    · rfl
    · cases bc
    · rfl
    · exact Std.TransCmp.isLE_trans ab bc

instance : Std.LawfulEqCmp compareLabels where
  compare_self {a} := Std.ReflCmp.compare_self
  eq_of_compare {a b} same := by
    unfold compareLabels at same
    cases ha : number? a <;> cases hb : number? b <;> rw [ha, hb] at same
    · exact Std.LawfulEqOrd.eq_of_compare same
    · cases same
    · cases same
    · rw [← text_of_number? ha, ← text_of_number? hb]
      exact ClauseId.text_eq_of_order same

end Clause
end BuildingCode

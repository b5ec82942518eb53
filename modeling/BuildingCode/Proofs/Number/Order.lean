import BuildingCode.Number.Binary

/-! The order of floats as far as tests rest on it: between numbers one test is the negation of the other,
every finite number lies between the infinities, and nothing but a zero equals zero. -/
namespace BuildingCode.Number
open Float.Model

theorem swap_compare_then (e f : Int) (m n : Nat) :
    ((compare e f).then (compare m n)).swap = (compare f e).then (compare n m) := by
  rw [Ordering.swap_then, Int.compare_swap, Nat.compare_swap]

theorem exists_compare {a b : UnpackedFloat} (left : a.isNaN = false) (right : b.isNaN = false) :
    ∃ o, a.compare b = some o ∧ b.compare a = some o.swap := by
  cases a with
  | notANumber => cases left
  | infinity s | zero s =>
    cases b with
    | notANumber => cases right
    | infinity t | zero t | finite t => cases s <;> cases t <;> exact ⟨_, rfl, rfl⟩
  | finite s m e =>
    cases b with
    | notANumber => cases right
    | infinity t | zero t => cases s <;> cases t <;> exact ⟨_, rfl, rfl⟩
    | finite t n f =>
      cases s <;> cases t
      · exact ⟨_, rfl, congrArg some (by rw [Ordering.swap_swap, swap_compare_then])⟩
      · exact ⟨_, rfl, rfl⟩
      · exact ⟨_, rfl, rfl⟩
      · exact ⟨_, rfl, congrArg some (by rw [swap_compare_then])⟩

theorem isNaN_of_isFinite_unpacked : {u : UnpackedFloat} → u.isFinite = true → u.isNaN = false
  | .zero _, _ | .finite .., _ => rfl

theorem compare_infinity : {u : UnpackedFloat} → u.isFinite = true →
    u.compare (.infinity .positive) = some .lt ∧
      (UnpackedFloat.infinity .negative).compare u = some .lt
  | .zero _, _ | .finite .., _ => ⟨rfl, rfl⟩

section
variable {x y : Float}

theorem lt_iff_compare : x < y ↔ x.toModel.unpack.compare y.toModel.unpack = some .lt := by
  change decide (x.toModel < y.toModel) = true ↔ _
  rw [decide_eq_true_iff]
  exact beq_iff_eq

theorem le_iff_compare :
    x ≤ y ↔ ∃ o, x.toModel.unpack.compare y.toModel.unpack = some o ∧ o.isLE = true := by
  change decide (x.toModel ≤ y.toModel) = true ↔ _
  rw [decide_eq_true_iff]
  exact Option.any_eq_true ..

theorem isNaN_of_isFinite (finite : x.isFinite = true) : x.isNaN = false :=
  isNaN_of_isFinite_unpacked (u := x.toModel.unpack) finite

theorem le_of_not_lt (left : x.isNaN = false) (right : y.isNaN = false) (h : ¬x < y) : y ≤ x := by
  obtain ⟨o, forward, back⟩ := exists_compare (a := x.toModel.unpack) (b := y.toModel.unpack) left right
  rw [lt_iff_compare, forward] at h
  refine le_iff_compare.mpr ⟨o.swap, back, ?_⟩
  cases o <;> simp_all

theorem lt_of_not_le (left : x.isNaN = false) (right : y.isNaN = false) (h : ¬x ≤ y) : y < x := by
  obtain ⟨o, forward, back⟩ := exists_compare (a := x.toModel.unpack) (b := y.toModel.unpack) left right
  rw [le_iff_compare, forward] at h
  rw [lt_iff_compare, back]
  cases o <;> simp_all

theorem lt_infinity (finite : x.isFinite = true) : x < 1.0 / 0.0 :=
  lt_iff_compare.mpr (compare_infinity (u := x.toModel.unpack) finite).1

theorem infinity_lt (finite : x.isFinite = true) : -1.0 / 0.0 < x :=
  lt_iff_compare.mpr (compare_infinity (u := x.toModel.unpack) finite).2

theorem isFinite_of_beq_zero (same : (x == 0.0) = true) : x.isFinite = true := by
  change (x.toModel.unpack.compare (.zero .positive) == some .eq) = true at same
  change x.toModel.unpack.isFinite = true
  generalize x.toModel.unpack = u at *
  cases u with
  | notANumber => cases same
  | infinity s => cases s <;> cases same
  | zero s | finite s m e pos => rfl

end

end BuildingCode.Number

import BuildingCode.Proofs.Clause.Label
import BuildingCode.Proofs.Sorting

/-! Labels in order. Those that spell clause numbers stand in front, by their segments, and all others behind
them as plain texts. No two labels are equal there, so a list of labels has a single sorted arrangement. -/
namespace BuildingCode

namespace ClauseId

theorem compareLex_eq_lt_iff {a b : List UInt32} : List.compareLex compare a b = .lt ↔ a < b := by
  induction a generalizing b with
  | nil => cases b <;> simp [List.compareLex_nil_nil, List.compareLex_nil_cons]
  | cons x a ih =>
    cases b with
    | nil => simp [List.compareLex_cons_nil]
    | cons y b =>
      rw [List.compareLex_cons_cons, Ordering.then_eq_lt, ih, List.cons_lt_cons_iff, Std.compare_eq_lt,
        Std.LawfulEqCmp.compare_eq_iff_eq]

theorem order_eq_lt_iff {a b : ClauseId} : a.order b = .lt ↔ a.values < b.values := compareLex_eq_lt_iff

theorem Spells.ne_nil {label : String} {segments : List Segment} (h : Spells label segments) :
    segments ≠ [] := by
  obtain ⟨ps, filled, _, _, all⟩ := h
  rw [all.length_eq] at filled
  exact List.ne_nil_of_length_pos filled

end ClauseId

namespace Clause
open ClauseId

variable {label : String}

theorem number?_eq_some_iff {id : ClauseId} : number? label = some id ↔ Spells label id.segments := by
  have wide : id.top ≤ 0xFFFFFFFF := UInt32.le_iff_toNat_le.mpr (Nat.le_of_lt_succ id.top.toNat_lt)
  have read : parse 0xFFFFFFFF label = .ok id ↔ Spells label id.segments := by
    rw [parse_eq_ok_iff, spells_iff]
    exact and_congr_right' (iff_of_true wide id.length_le)
  rw [← read, number?]
  cases parse 0xFFFFFFFF label <;> simp [Except.toOption]

theorem exists_number?_of_spells {segments : List Segment} (h : Spells label segments) :
    ∃ id, number? label = some id ∧ id.segments = segments :=
  let id : ClauseId := ⟨segments, h.ne_nil, (spells_iff.mp h).2⟩
  ⟨id, number?_eq_some_iff.mpr h, rfl⟩

theorem number?_eq_none_iff : number? label = none ↔ ∀ segments, ¬ Spells label segments := by
  constructor
  · intro none segments spelt
    obtain ⟨id, read, _⟩ := exists_number?_of_spells spelt
    cases none.symm.trans read
  · intro stray
    cases read : number? label with
    | none => rfl
    | some id => exact absurd (number?_eq_some_iff.mp read) (stray id.segments)

section
variable {a b : String} {s t : List Segment}

theorem compareLabels_of_spells (ha : Spells a s) (hb : Spells b t) :
    compareLabels a b = .lt ↔ s.map (·.val) < t.map (·.val) := by
  obtain ⟨x, readA, rfl⟩ := exists_number?_of_spells ha
  obtain ⟨y, readB, rfl⟩ := exists_number?_of_spells hb
  rw [compareLabels, readA, readB]
  exact order_eq_lt_iff

theorem compareLabels_of_stray (ha : Spells a s) (hb : ∀ t, ¬ Spells b t) : compareLabels a b = .lt := by
  obtain ⟨x, readA, _⟩ := exists_number?_of_spells ha
  rw [compareLabels, readA, number?_eq_none_iff.mpr hb]

theorem compareLabels_of_strays (ha : ∀ s, ¬ Spells a s) (hb : ∀ t, ¬ Spells b t) :
    compareLabels a b = compare a b := by
  rw [compareLabels, number?_eq_none_iff.mpr ha, number?_eq_none_iff.mpr hb]

end

theorem eq_sortLabels_iff {labels sorted : List String} : sorted = sortLabels labels ↔
    sorted.Perm labels ∧ sorted.Pairwise fun a b => (compareLabels a b).isLE = true :=
  Sorting.eq_mergeSort_iff

theorem sortLabels_congr {labels labels' : List String} (same : labels.Perm labels') :
    sortLabels labels = sortLabels labels' := by
  obtain ⟨arranged, ascending⟩ := eq_sortLabels_iff.mp (rfl : sortLabels labels = _)
  exact eq_sortLabels_iff.mpr ⟨arranged.trans same, ascending⟩

/-- Labels are totally ordered, and no two of them are equal in the order. Labels that spell numbers go by
their segments, with a prefix first, and stand before those that do not, which go by their text. So the
sorted list is the one ascending arrangement of the labels, in whatever order they come. -/
theorem sortLabels_canonical :
    (∀ a b, compareLabels b a = (compareLabels a b).swap) ∧
    (∀ a b c, compareLabels a b = .lt → compareLabels b c = .lt → compareLabels a c = .lt) ∧
    (∀ a b c, (compareLabels a b).isLE → (compareLabels b c).isLE → (compareLabels a c).isLE) ∧
    (∀ a b, compareLabels a b = .eq ↔ a = b) ∧
    (∀ a b s t, Spells a s → Spells b t →
      (compareLabels a b = .lt ↔ s.map (·.val) < t.map (·.val))) ∧
    (∀ a b s, Spells a s → (∀ t, ¬ Spells b t) → compareLabels a b = .lt) ∧
    (∀ a b, (∀ s, ¬ Spells a s) → (∀ t, ¬ Spells b t) → compareLabels a b = compare a b) ∧
    (∀ labels sorted, sorted = sortLabels labels ↔
      sorted.Perm labels ∧ sorted.Pairwise fun a b => (compareLabels a b).isLE) ∧
    ∀ labels labels', labels.Perm labels' → sortLabels labels = sortLabels labels' := by
  refine ⟨fun a b => Std.OrientedCmp.eq_swap, fun a b c => Std.TransCmp.lt_trans,
    fun a b c => Std.TransCmp.isLE_trans, fun a b => Std.LawfulEqCmp.compare_eq_iff_eq, ?_, ?_, ?_, ?_, ?_⟩
  · intro a b s t ha hb
    exact compareLabels_of_spells ha hb
  · intro a b s ha stray
    exact compareLabels_of_stray ha stray
  · intro a b strayA strayB
    exact compareLabels_of_strays strayA strayB
  · intro labels sorted
    exact eq_sortLabels_iff
  · intro labels labels' same
    exact sortLabels_congr same

theorem sortLabels_canonical_mixed :
    let labels := ["Annex", "6.10", "4294967296", "6", "06", "6.2"]
    let sorted := ["6", "6.2", "6.10", "06", "4294967296", "Annex"]
    sortLabels labels = sorted ∧ sortLabels labels.reverse = sorted ∧
      compareLabels "6.2" "6.10" = .lt ∧ compareLabels "6.10" "06" = .lt ∧
      compareLabels "06" "Annex" = compare "06" "Annex" := by
  intro labels sorted
  obtain ⟨_, _, _, _, numbers, apart, strays, unique, alike⟩ := sortLabels_canonical
  have arranged : sorted = sortLabels labels :=
    (unique labels sorted).mpr ⟨by decide, by decide +kernel⟩
  let second : ClauseId := ⟨[⟨6, by decide⟩, ⟨2, by decide⟩], List.cons_ne_nil _ _, by decide⟩
  let tenth : ClauseId := ⟨[⟨6, by decide⟩, ⟨10, by decide⟩], List.cons_ne_nil _ _, by decide⟩
  have two : Spells "6.2" second.segments := number?_eq_some_iff.mp (by decide +kernel)
  have ten : Spells "6.10" tenth.segments := number?_eq_some_iff.mp (by decide +kernel)
  have zero : ∀ segments, ¬ Spells "06" segments := number?_eq_none_iff.mp (by decide +kernel)
  have annex : ∀ segments, ¬ Spells "Annex" segments := number?_eq_none_iff.mp (by decide +kernel)
  refine ⟨arranged.symm, ?_, (numbers _ _ _ _ two ten).mpr (by decide), apart _ _ _ ten zero,
    strays _ _ zero annex⟩
  exact (alike _ _ labels.reverse_perm).trans arranged.symm

end Clause
end BuildingCode

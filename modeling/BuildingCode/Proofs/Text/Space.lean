import BuildingCode.Text.Space
import Mathlib.Data.List.DropRight

/-! A text that has been trimmed is trimmed for good, and trimming does not decide whether a text is
blank. -/
namespace BuildingCode.Text

theorem trimmed_eq_rdropWhile (cs : List Char) :
    trimmed cs = (cs.dropWhile isSpace).rdropWhile isSpace := rfl

theorem dropWhile_of_prefix_dropWhile {p : α → Bool} {xs ys : List α}
    (h : xs <+: ys.dropWhile p) : xs.dropWhile p = xs := by
  cases xs with
  | nil => rfl
  | cons x xs =>
    obtain ⟨rest, split⟩ := h
    have kept := List.head_dropWhile_not p (l := ys) (by simp [← split])
    simp only [← split, List.cons_append, List.head_cons] at kept
    rw [List.dropWhile_cons_of_neg (by simp [kept])]

theorem trimmed_trimmed (cs : List Char) : trimmed (trimmed cs) = trimmed cs := by
  have front : (trimmed cs).dropWhile isSpace = trimmed cs :=
    dropWhile_of_prefix_dropWhile (List.rdropWhile_prefix isSpace _)
  rw [trimmed_eq_rdropWhile (trimmed cs), front, trimmed_eq_rdropWhile, List.rdropWhile_idempotent]

theorem all_dropWhile (p : α → Bool) (xs : List α) : (xs.dropWhile p).all p = xs.all p := by
  induction xs with
  | nil => rfl
  | cons x xs ih =>
    by_cases h : p x <;> simp [h, ih]

theorem all_trimmed (cs : List Char) : (trimmed cs).all isSpace = cs.all isSpace := by
  rw [trimmed, List.all_reverse, all_dropWhile, List.all_reverse, all_dropWhile]

theorem trimmed_map {f : Char → Char} (same : ∀ c, isSpace (f c) = isSpace c) (cs : List Char) :
    trimmed (cs.map f) = (trimmed cs).map f := by
  have alike : isSpace ∘ f = isSpace := funext same
  rw [trimmed, List.dropWhile_map, alike, ← List.map_reverse, List.dropWhile_map, alike,
    ← List.map_reverse, trimmed]

@[simp] theorem trim_trim (s : String) : trim (trim s) = trim s := by
  simp [trim, trimmed_trimmed]

@[simp] theorem isBlank_trim (s : String) : isBlank (trim s) = isBlank s := by
  simp [isBlank, trim, all_trimmed]

theorem isBlank_iff_trim {s : String} : isBlank s = true ↔ trim s = "" := by
  constructor
  · intro blank
    have dropped : s.toList.dropWhile isSpace = [] :=
      List.dropWhile_eq_nil_iff.mpr (List.all_eq_true.mp blank)
    simp [trim, trimmed, dropped]
  · intro empty
    rw [← isBlank_trim, empty]
    rfl

theorem nonBlank_some (t : String) :
    nonBlank (some t) = if trim t = "" then none else some (trim t) := by
  by_cases h : trim t = "" <;> simp [nonBlank, h]

theorem nonBlank_of_trimmed {t : String} (trimmed : trim t = t) (filled : isBlank t = false) :
    nonBlank (some t) = some t := by
  rw [nonBlank_some, trimmed, if_neg]
  rintro rfl
  cases filled

theorem nonBlank_of_nonBlank {s : Option String} {t : String} (h : nonBlank s = some t) :
    nonBlank (some t) = some t := by
  cases s with
  | none => cases h
  | some u =>
    rw [nonBlank_some] at h
    split at h
    · cases h
    · cases h
      rw [nonBlank_some, trim_trim, if_neg (by assumption)]

@[simp] theorem nonBlank_nonBlank (s : Option String) : nonBlank (nonBlank s) = nonBlank s := by
  cases h : nonBlank s with
  | none => rfl
  | some t => exact nonBlank_of_nonBlank h

end BuildingCode.Text

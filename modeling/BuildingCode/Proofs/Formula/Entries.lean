import BuildingCode.Proofs.Formula.Values
import BuildingCode.Proofs.Number.Nearest
import BuildingCode.Proofs.Number.Reading
import BuildingCode.Proofs.Text.Space

/-! What clients may enter. A text counts as a number if it is one in an exact grammar, where point and
comma are the same and blanks around it do not matter. Every parameter that is given no number, or one
out of bounds, is reported with the first check that failed, and no other parameter is. -/
namespace BuildingCode.Formula
open Number Text

def IsEntry (n : Numeral) (cs : List Char) : Prop :=
  ∃ separator, IsSeparator separator ∧ WritesNumeral separator n cs

def commaAsPoint (c : Char) : Char := if c = ',' then '.' else c

section
variable {cs front : List Char} {c : Char} {n : Numeral}

theorem commaToPoint_of_not_mem (absent : ',' ∉ cs) : commaToPoint cs = cs := by
  induction cs with
  | nil => rfl
  | cons c cs ih =>
    have other : c ≠ ',' := fun same => absent (same ▸ List.mem_cons_self)
    rw [commaToPoint, ih fun mem => absent (List.mem_cons_of_mem c mem)]
    exact other

theorem commaToPoint_append (absent : ',' ∉ front) (back : List Char) :
    commaToPoint (front ++ ',' :: back) = front ++ '.' :: back := by
  induction front with
  | nil => rfl
  | cons c cs ih =>
    have other : c ≠ ',' := fun same => absent (same ▸ List.mem_cons_self)
    rw [List.cons_append, commaToPoint, ih fun mem => absent (List.mem_cons_of_mem c mem)]
    · rfl
    · exact other

theorem not_mem_of_undivided (h : Undivided cs) (mark : IsSeparator c) : c ∉ cs :=
  fun mem => h c mem mark

/-- With its first comma turned into a point a text is a number exactly if it was an entry. -/
theorem writesNumeral_commaToPoint :
    WritesNumeral '.' n (commaToPoint cs) ↔ IsEntry n cs := by
  constructor
  · intro written
    by_cases comma : ',' ∈ cs
    · obtain ⟨front, back, rfl, absent⟩ := List.eq_append_cons_of_mem comma
      rw [commaToPoint_append absent] at written
      rcases written.parts with ⟨undivided, _⟩ | ⟨front', back', split, before, behind, respelled⟩
      · exact absurd (.inl rfl) (undivided '.' (by simp))
      · have point : IsSeparator '.' := .inl rfl
        obtain ⟨rfl, _, rfl⟩ := (List.append_cons_inj_of_notMem (not_mem_of_undivided before point)
          (not_mem_of_undivided behind point)).mp split.symm
        exact ⟨',', .inr rfl, respelled ','⟩
    · rw [commaToPoint_of_not_mem comma] at written
      exact ⟨'.', .inl rfl, written⟩
  · rintro ⟨separator, mark, written⟩
    have comma : IsSeparator ',' := .inr rfl
    rcases written.parts with ⟨undivided, respelled⟩ | ⟨front, back, rfl, before, behind, respelled⟩
    · rw [commaToPoint_of_not_mem (not_mem_of_undivided undivided comma)]
      exact respelled '.'
    · rcases mark with rfl | rfl
      · rw [commaToPoint_of_not_mem]
        · exact written
        · simp [not_mem_of_undivided before comma, not_mem_of_undivided behind comma]
      · rw [commaToPoint_append (not_mem_of_undivided before comma)]
        exact respelled '.'

theorem commaAsPoint_of_not_isSeparator (h : ¬IsSeparator c) : commaAsPoint c = c :=
  if_neg fun same => h (.inr same)

theorem isSeparator_commaAsPoint {c : Char} : IsSeparator (commaAsPoint c) ↔ IsSeparator c := by
  unfold commaAsPoint
  split
  · next same => exact iff_of_true (.inl rfl) (.inr same)
  · exact .rfl

theorem map_commaAsPoint_of_undivided (h : Undivided cs) : cs.map commaAsPoint = cs :=
  (List.map_congr_left fun c mem => commaAsPoint_of_not_isSeparator (h c mem)).trans
    (List.map_id cs)

theorem undivided_of_map_commaAsPoint (h : Undivided (cs.map commaAsPoint)) : Undivided cs :=
  fun _ mem mark => h _ (List.mem_map_of_mem mem) (isSeparator_commaAsPoint.mpr mark)

theorem isEntry_map_commaAsPoint : IsEntry n (cs.map commaAsPoint) ↔ IsEntry n cs := by
  constructor
  · rintro ⟨separator, mark, written⟩
    rcases written.parts with ⟨undivided, _⟩ | ⟨front, back, split, before, behind, respelled⟩
    · rw [map_commaAsPoint_of_undivided (undivided_of_map_commaAsPoint undivided)] at written
      exact ⟨separator, mark, written⟩
    · obtain ⟨front, rest, rfl, rfl, split'⟩ := List.map_eq_append_iff.mp split
      obtain ⟨c, back, rfl, rfl, rfl⟩ := List.map_eq_cons_iff.mp split'
      have left := undivided_of_map_commaAsPoint before
      have right := undivided_of_map_commaAsPoint behind
      rw [map_commaAsPoint_of_undivided left, map_commaAsPoint_of_undivided right] at respelled
      exact ⟨c, isSeparator_commaAsPoint.mp mark, respelled c⟩
  · rintro ⟨separator, mark, written⟩
    rcases written.parts with ⟨undivided, respelled⟩ | ⟨front, back, rfl, before, behind, respelled⟩
    · rw [map_commaAsPoint_of_undivided undivided]
      exact ⟨separator, mark, written⟩
    · refine ⟨commaAsPoint separator, isSeparator_commaAsPoint.mpr mark, ?_⟩
      rw [List.map_append, List.map_cons, map_commaAsPoint_of_undivided before,
        map_commaAsPoint_of_undivided behind]
      exact respelled _

theorem IsEntry.countP_le (h : IsEntry n cs) : cs.countP (IsSeparator ·) ≤ 1 := by
  obtain ⟨separator, _, written⟩ := h
  have none {cs : List Char} (undivided : Undivided cs) : cs.countP (IsSeparator ·) = 0 := by
    simpa [List.countP_eq_zero, Undivided] using undivided
  rcases written.parts with ⟨undivided, _⟩ | ⟨front, back, rfl, before, behind, _⟩
  · rw [none undivided]
    exact Nat.zero_le 1
  · rw [List.countP_append, List.countP_cons, none before, none behind]
    split <;> simp

theorem IsEntry.ofNumber (h : IsEntry n cs) : ∀ c ∈ cs, OfNumber c := by
  obtain ⟨separator, mark, written⟩ := h
  exact written.ofNumber mark

end

section
variable {s : String} {v : Float}

theorem parseNumber_eq_some_iff : parseNumber s = some v ↔
    ∃ n, IsEntry n (trimmed s.toList) ∧ IsNearest n v := by
  unfold parseNumber
  rw [finite_ofText_iff]
  simp only [String.toList_ofList, writesNumeral_commaToPoint, isNearest_iff]

theorem parseNumber_eq_none (h : ∀ n, ¬IsEntry n (trimmed s.toList)) : parseNumber s = none := by
  rw [Option.eq_none_iff_forall_ne_some]
  intro v parsed
  obtain ⟨n, entry, _⟩ := parseNumber_eq_some_iff.mp parsed
  exact h n entry

theorem parseNumber_map_commaAsPoint (s : String) :
    parseNumber (String.ofList (s.toList.map commaAsPoint)) = parseNumber s := by
  have space (c : Char) : isSpace (commaAsPoint c) = isSpace c := by
    unfold commaAsPoint
    split
    · next same =>
      subst same
      rfl
    · rfl
  ext v
  rw [parseNumber_eq_some_iff, parseNumber_eq_some_iff, String.toList_ofList, trimmed_map space]
  simp only [isEntry_map_commaAsPoint]

theorem not_ofNumber_of_lowercase {c : Char} (letter : lowercase c = 'n') : ¬OfNumber c := by
  intro stands
  rcases stands with digit | sign | rfl | rfl
  · have range := isDigit_iff.mp digit
    have small : ¬('A' ≤ c && c ≤ 'Z') = true := by
      simp only [Char.reduceToNat] at range
      simp [Char.le_def, UInt32.le_iff_toNat_le]
      omega
    rw [lowercase, if_neg small] at letter
    subst letter
    cases digit
  · simp only [List.mem_cons, List.not_mem_nil, or_false] at sign
    rcases sign with rfl | rfl | rfl | rfl <;> revert letter <;> decide
  · revert letter
    decide
  · revert letter
    decide

theorem exists_of_readWord {cs : List Char} (word : readWord cs ≠ none) :
    ∃ c ∈ cs, ¬OfNumber c := by
  cases signed : splitSign cs with
  | mk negative letters =>
    obtain ⟨sign, _, rfl⟩ := exists_of_splitSign signed
    have held {w : String} (mem : 'n' ∈ w.toList)
        (same : String.ofList (letters.map lowercase) = w) : 'n' ∈ letters.map lowercase := by
      rwa [← same, String.toList_ofList] at mem
    have spelled : 'n' ∈ letters.map lowercase := by
      simp only [readWord, signed] at word
      split at word
      · next same => exact held (by decide) same
      · next same => exact held (by decide) same
      · next same => exact held (by decide) same
      · exact absurd rfl word
    obtain ⟨c, mem, letter⟩ := List.mem_map.mp spelled
    exact ⟨c, List.mem_append_right sign mem, not_ofNumber_of_lowercase letter⟩

/-- A text is read as a number exactly if it is an entry, blanks around it passed over, that is not too
large for a float, and then as the nearest one. -/
theorem parseNumber_exact (s : String) :
    (∀ v, parseNumber s = some v ↔ ∃ n, IsEntry n (trimmed s.toList) ∧ IsNearest n v) ∧
    (2 ≤ (trimmed s.toList).countP (IsSeparator ·) → parseNumber s = none) ∧
    ((∃ c ∈ trimmed s.toList, ¬OfNumber c) → parseNumber s = none) ∧
    (readWord (trimmed s.toList) ≠ none → parseNumber s = none) ∧
    parseNumber (String.ofList (s.toList.map commaAsPoint)) = parseNumber s := by
  have foreign : (∃ c ∈ trimmed s.toList, ¬OfNumber c) → parseNumber s = none := by
    rintro ⟨c, mem, stands⟩
    exact parseNumber_eq_none fun n entry => stands (entry.ofNumber c mem)
  refine ⟨fun v => parseNumber_eq_some_iff, fun two => ?_, foreign,
    fun word => foreign (exists_of_readWord word), parseNumber_map_commaAsPoint s⟩
  refine parseNumber_eq_none fun n entry => ?_
  have one := entry.countP_le
  omega

end

/-- The number that an entered value is. -/
inductive RawValue.Means : RawValue → Float → Prop
  | number {x : Float} (finite : x.isFinite) : RawValue.Means (.number x) x
  | text {s : String} {x : Float} (reads : parseNumber s = some x) : RawValue.Means (.text s) x

/-- The first check that the parameter fails, a number being asked for before the bounds. -/
inductive Parameter.Refuses (p : Parameter) (values : Values) : Rule → Prop
  | notANumber (missing : ∀ raw ∈ values.get? p.name, ∀ x, ¬raw.Means x) :
    p.Refuses values (.notANumber p.label)
  | belowMinimum {raw : RawValue} {x low : Float} (given : values.get? p.name = some raw)
    (means : raw.Means x) (bound : p.min = some low) (below : x < low) :
    p.Refuses values (.belowMinimum p.label low)
  | aboveMaximum {raw : RawValue} {x high : Float} (given : values.get? p.name = some raw)
    (means : raw.Means x) (least : ∀ low ∈ p.min, ¬x < low) (bound : p.max = some high)
    (above : high < x) : p.Refuses values (.aboveMaximum p.label high)

section
variable {p : Parameter} {ps : List Parameter} {values values' : Values} {raw : RawValue} {x : Float}
  {rule : Rule} {v : Violation} {vs : List Violation}

theorem RawValue.number?_eq_some_iff : raw.number? = some x ↔ raw.Means x := by
  cases raw with
  | number y =>
    rw [RawValue.number?, Option.ite_none_right_eq_some]
    constructor
    · rintro ⟨finite, same⟩
      cases same
      exact .number finite
    · intro means
      cases means with
      | number finite => exact ⟨finite, rfl⟩
  | text s =>
    constructor
    · exact .text
    · intro means
      cases means with
      | text reads => exact reads

theorem Parameter.admits_iff : p.Admits values x ↔
    (∃ raw, values.get? p.name = some raw ∧ raw.Means x) ∧
      (∀ low ∈ p.min, ¬x < low) ∧ ∀ high ∈ p.max, ¬high < x := by
  simp only [← RawValue.number?_eq_some_iff, ← Option.bind_eq_some_iff]
  exact ⟨fun ⟨entered, least, most⟩ => ⟨entered, least, most⟩,
    fun ⟨entered, least, most⟩ => ⟨entered, least, most⟩⟩

theorem checkBounds_eq_error_iff {label : String} {min max : Option Float} :
    checkBounds label min max x = .error rule ↔
      (∃ low, min = some low ∧ x < low ∧ rule = .belowMinimum label low) ∨
      (∀ low ∈ min, ¬x < low) ∧
        ∃ high, max = some high ∧ high < x ∧ rule = .aboveMaximum label high := by
  unfold checkBounds
  rcases min with _ | low <;> rcases max with _ | high <;> grind

theorem checkValue_eq_error_iff :
    checkValue p.label p.min p.max (values.get? p.name) = .error rule ↔ p.Refuses values rule := by
  unfold checkValue
  constructor
  · intro refused
    split at refused
    · next x number =>
      obtain ⟨raw, given, means⟩ := Option.bind_eq_some_iff.mp number
      rw [RawValue.number?_eq_some_iff] at means
      rcases checkBounds_eq_error_iff.mp refused with
        ⟨low, bound, below, rfl⟩ | ⟨least, high, bound, above, rfl⟩
      · exact .belowMinimum given means bound below
      · exact .aboveMaximum given means least bound above
    · next none =>
      cases refused
      refine .notANumber fun raw given x means => ?_
      rw [Option.bind_eq_none_iff] at none
      cases (none raw given).symm.trans (RawValue.number?_eq_some_iff.mpr means)
  · have number {raw x} (given : values.get? p.name = some raw) (means : raw.Means x) :
        (values.get? p.name).bind RawValue.number? = some x :=
      Option.bind_eq_some_iff.mpr ⟨raw, given, RawValue.number?_eq_some_iff.mpr means⟩
    rintro (missing | ⟨given, means, bound, below⟩ | ⟨given, means, least, bound, above⟩)
    · have none : (values.get? p.name).bind RawValue.number? = none := by
        refine Option.bind_eq_none_iff.mpr fun raw given => Option.eq_none_iff_forall_ne_some.mpr ?_
        exact fun x number => missing raw given x (RawValue.number?_eq_some_iff.mp number)
      rw [none]
    · rw [number given means]
      exact checkBounds_eq_error_iff.mpr (.inl ⟨_, bound, below, rfl⟩)
    · rw [number given means]
      exact checkBounds_eq_error_iff.mpr (.inr ⟨least, _, bound, above, rfl⟩)

theorem Parameter.refusal?_eq_none_iff : p.refusal? values = none ↔ p.Usable values := by
  simp only [Parameter.Usable, ← Parameter.bind_eq_ok_iff]
  unfold Parameter.refusal?
  cases p.bind values <;> simp

instance (p : Parameter) (values : Values) : Decidable (p.Usable values) :=
  decidable_of_iff (p.refusal? values = none) Parameter.refusal?_eq_none_iff

theorem Parameter.refusal?_eq_some_iff :
    p.refusal? values = some v ↔ v.field = p.name ∧ p.Refuses values v.rule := by
  rw [← checkValue_eq_error_iff]
  unfold Parameter.refusal? Parameter.bind
  cases checkValue p.label p.min p.max (values.get? p.name) with
  | ok x => simp
  | error rule =>
    obtain ⟨field, rule'⟩ := v
    simp [eq_comm]

/-- Each offending parameter has one violation, in the order of the declarations. -/
theorem refusals_eq_iff : ps.filterMap (·.refusal? values) = vs ↔
    List.Forall₂ (fun p v => v.field = p.name ∧ p.Refuses values v.rule)
      (ps.filter (¬·.Usable values)) vs := by
  induction ps generalizing vs with
  | nil => simp [eq_comm]
  | cons p ps ih =>
    cases first : p.refusal? values with
    | none =>
      have usable := Parameter.refusal?_eq_none_iff.mp first
      rw [List.filterMap_cons_none first, List.filter_cons_of_neg (by simpa using usable)]
      exact ih
    | some v =>
      have offends : ¬p.Usable values := fun usable =>
        nomatch first.symm.trans (Parameter.refusal?_eq_none_iff.mpr usable)
      rw [List.filterMap_cons_some first, List.filter_cons_of_pos (by simpa using offends)]
      constructor
      · rintro rfl
        exact .cons (Parameter.refusal?_eq_some_iff.mp first) (ih.mp rfl)
      · rintro (_ | ⟨reported, rest⟩)
        cases first.symm.trans (Parameter.refusal?_eq_some_iff.mpr reported)
        rw [ih.mpr rest]

theorem bindAll_eq_error_iff : bindAll ps values = .error vs ↔ vs ≠ [] ∧
    List.Forall₂ (fun p v => v.field = p.name ∧ p.Refuses values v.rule)
      (ps.filter (¬·.Usable values)) vs := by
  rw [← refusals_eq_iff]
  by_cases none : ps.filterMap (·.refusal? values) = []
  · rw [bindAll_of_refusals_eq_nil none, none]
    constructor
    · intro h
      cases h
    · rintro ⟨some, rfl⟩
      exact absurd rfl some
  · rw [bindAll_of_refusals_ne_nil none]
    constructor
    · intro h
      cases h
      exact ⟨none, rfl⟩
    · rintro ⟨_, rfl⟩
      rfl

theorem bindAll_congr (same : ∀ p ∈ ps, values'.get? p.name = values.get? p.name) :
    bindAll ps values' = bindAll ps values := by
  have bound : ps.map (·.bind values') = ps.map (·.bind values) := by
    refine List.map_congr_left fun p mem => ?_
    unfold Parameter.bind
    rw [same p mem]
  unfold bindAll
  rw [bound]

/-- The values are bound if every parameter is given a number within its bounds, and then to those
numbers. Otherwise each parameter that is not has one violation, which names its first failing check.
Both come in the order of the declarations, and nothing else that is entered matters. -/
theorem bindAll_reports (params : List Parameter) (values : Values) :
    (∀ (p : Parameter) x, p.Admits values x ↔ (∃ raw, values.get? p.name = some raw ∧ raw.Means x) ∧
      (∀ low ∈ p.min, ¬x < low) ∧ ∀ high ∈ p.max, ¬high < x) ∧
    ((∃ xs, bindAll params values = .ok xs) ↔ ∀ p ∈ params, p.Usable values) ∧
    (∀ xs, bindAll params values = .ok xs ↔ List.Forall₂ (fun p x => p.Admits values x) params xs) ∧
    (∀ vs, bindAll params values = .error vs ↔ vs ≠ [] ∧
      List.Forall₂ (fun p v => v.field = p.name ∧ p.Refuses values v.rule)
        (params.filter (¬·.Usable values)) vs) ∧
    ∀ values' : Values, (∀ p ∈ params, values'.get? p.name = values.get? p.name) →
      bindAll params values' = bindAll params values :=
  ⟨fun _ _ => Parameter.admits_iff, exists_bindAll_iff, fun _ => bindAll_eq_ok_iff,
    fun _ => bindAll_eq_error_iff, fun _ => bindAll_congr⟩

end
end BuildingCode.Formula

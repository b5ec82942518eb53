import BuildingCode.Proofs.Expression.Scanning
import BuildingCode.Proofs.Number.Nearest
import BuildingCode.Proofs.Number.Reading
import Mathlib.Data.Nat.Find

/-! Where a number begins, the longest literal is read, or nothing is. Its value is that of the digits without
their separators, so it does not matter how they are grouped. -/
namespace BuildingCode.Expression
open Text Number

def ungrouped (cs : List Char) : List Char := cs.filter (· != '_')

section
variable {xs ys ds ms es whole fraction : List Char} {exponent : Option Int} {n n' : Numeral} {d : Char}

theorem ungrouped_append (xs ys : List Char) : ungrouped (xs ++ ys) = ungrouped xs ++ ungrouped ys :=
  List.filter_append ..

theorem ungrouped_cons (counts : d ≠ '_') (cs : List Char) :
    ungrouped (d :: cs) = d :: ungrouped cs :=
  List.filter_cons_of_pos (by simpa using counts)

theorem ne_separator_of_isDigit (digit : isDigit d = true) : d ≠ '_' := by
  rintro rfl
  cases digit

theorem IsRun.ungrouped (run : IsRun ds) : ungrouped ds = digitsIn ds := by
  have mark : isDigit '_' = false := rfl
  induction run with
  | digit h => simp [Expression.ungrouped, digitsIn, h, ne_separator_of_isDigit h]
  | next h _ ih =>
    rw [ungrouped_cons (ne_separator_of_isDigit h), ih]
    simp [digitsIn, h]
  | separated h _ ih =>
    rw [ungrouped_cons (ne_separator_of_isDigit h)]
    refine (congrArg _ ih).trans ?_
    simp [digitsIn, h, mark]

theorem IsRun.isDigits (run : IsRun ds) : IsDigits (digitsIn ds) :=
  ⟨run.digitsIn_ne_nil, fun _ mem => (List.mem_filter.mp mem).2⟩

theorem WritesMantissa.writesPlaces (h : WritesMantissa whole fraction ms) :
    WritesPlaces '.' whole fraction (ungrouped ms) := by
  have point : '.' ≠ '_' := by decide
  cases h with
  | whole run =>
    rw [run.ungrouped]
    exact .whole run.isDigits
  | pointed run =>
    rw [ungrouped_append, run.ungrouped]
    exact .pointed run.isDigits
  | both run run' =>
    rw [ungrouped_append, ungrouped_cons point, run.ungrouped, run'.ungrouped]
    exact .both run.isDigits run'.isDigits
  | fraction run =>
    rw [ungrouped_cons point, run.ungrouped]
    exact .fraction run.isDigits

theorem WritesExponent.writesPower (h : WritesExponent exponent es) :
    WritesPower exponent (ungrouped es) := by
  have letter {c : Char} (mark : c = 'e' ∨ c = 'E') : c ≠ '_' := by
    rcases mark with rfl | rfl <;> decide
  cases h with
  | none => exact .none
  | unsigned mark run =>
    rw [ungrouped_cons (letter mark), run.ungrouped]
    exact .raised mark .none run.isDigits
  | plus mark run =>
    rw [ungrouped_cons (letter mark), ungrouped_cons (by decide), run.ungrouped]
    exact .raised mark .plus run.isDigits
  | minus mark run =>
    rw [ungrouped_cons (letter mark), ungrouped_cons (by decide), run.ungrouped]
    exact .raised mark .minus run.isDigits

theorem WritesLiteral.writesNumeral (h : WritesLiteral n xs) : WritesNumeral '.' n (ungrouped xs) := by
  obtain ⟨mantissa, exponent⟩ := h
  rw [ungrouped_append]
  exact .intro .none mantissa.writesPlaces exponent.writesPower

theorem WritesLiteral.ofText (h : WritesLiteral n xs) :
    ofText (String.ofList (ungrouped xs)) = some n.toFloat := by
  have read := readNumeral_eq_some_iff.mpr h.writesNumeral
  simp only [Number.ofText, String.toList_ofList, read]

theorem WritesLiteral.unique (h : WritesLiteral n xs) (h' : WritesLiteral n' xs) : n = n' := by
  have read := readNumeral_eq_some_iff.mpr h.writesNumeral
  exact Option.some.inj (read.symm.trans (readNumeral_eq_some_iff.mpr h'.writesNumeral))

end

/-- Two digits, with a separator between them in one of the two lists. -/
inductive Regroups : List Char → List Char → Prop
  | join {d e} : isDigit d = true → isDigit e = true → Regroups [d, '_', e] [d, e]
  | split {d e} : isDigit d = true → isDigit e = true → Regroups [d, e] [d, '_', e]

section
variable {p p' as bs ds ms es front back whole fraction : List Char} {exponent : Option Int}
  {n n' : Numeral} {c : Char}

theorem Regroups.symm (h : Regroups p p') : Regroups p' p := by
  cases h with
  | join d e => exact .split d e
  | split d e => exact .join d e

theorem Regroups.ne_nil (h : Regroups p p') : p ≠ [] := by
  cases h <;> exact List.cons_ne_nil _ _

theorem Regroups.not_mem (h : Regroups p p') (counts : c ≠ '_') (other : isDigit c = false) : c ∉ p := by
  cases h with
  | join d e | split d e =>
    intro mem
    simp only [List.mem_cons, List.not_mem_nil, or_false] at mem
    rcases mem with rfl | rfl | rfl <;> simp_all

theorem aside_of_append_eq (filled : p ≠ []) (absent : c ∉ p)
    (h : as ++ (p ++ bs) = front ++ c :: back) :
    (∃ more, front = as ++ (p ++ more) ∧ bs = more ++ c :: back) ∨
    ∃ more, as = front ++ c :: more ∧ back = more ++ (p ++ bs) := by
  rcases List.append_eq_append_iff.mp h with ⟨more, rfl, inside⟩ | ⟨more, rfl, inside⟩
  · left
    rcases List.append_eq_append_iff.mp inside with ⟨behind, rfl, rfl⟩ | ⟨behind, rfl, behind_eq⟩
    · exact ⟨behind, rfl, rfl⟩
    · cases behind with
      | nil => exact ⟨[], by simp, behind_eq.symm⟩
      | cons d behind =>
        obtain ⟨rfl, _⟩ := List.cons.inj behind_eq
        exact absurd (by simp) absent
  · cases more with
    | nil =>
      obtain ⟨d, ds, rfl⟩ := List.exists_cons_of_ne_nil filled
      obtain ⟨rfl, _⟩ := List.cons.inj inside
      exact absurd List.mem_cons_self absent
    | cons d more =>
      obtain ⟨rfl, rfl⟩ := List.cons.inj inside
      exact .inr ⟨more, rfl, rfl⟩

theorem Regroups.behind (pieces : Regroups p p') (counts : c ≠ '_') (other : isDigit c = false)
    (h : as ++ (p ++ bs) = c :: back) : ∃ more, as = c :: more ∧ back = more ++ (p ++ bs) := by
  have h : as ++ (p ++ bs) = [] ++ c :: back := h
  rcases aside_of_append_eq pieces.ne_nil (pieces.not_mem counts other) h with ⟨more, none, _⟩ | found
  · simp [pieces.ne_nil] at none
  · exact found

theorem isRun_cons_iff : IsRun (c :: ds) ↔
    isDigit c = true ∧ (ds = [] ∨ IsRun ds ∨ ∃ more, ds = '_' :: more ∧ IsRun more) := by
  constructor
  · intro h
    cases h with
    | digit digit => exact ⟨digit, .inl rfl⟩
    | next digit run => exact ⟨digit, .inr (.inl run)⟩
    | separated digit run => exact ⟨digit, .inr (.inr ⟨_, rfl, run⟩)⟩
  · rintro ⟨digit, rfl | run | ⟨more, rfl, run⟩⟩
    · exact .digit digit
    · exact .next digit run
    · exact .separated digit run

theorem isRun_separated_iff {d e : Char} (digit : isDigit d = true) (digit' : isDigit e = true)
    (bs : List Char) : ∀ as, IsRun (as ++ d :: '_' :: e :: bs) ↔ IsRun (as ++ d :: e :: bs)
  | [] => by
    have noRun : ¬IsRun ('_' :: e :: bs) := fun run => nomatch (isRun_cons_iff.mp run).1
    simp [isRun_cons_iff (c := d), noRun, ne_separator_of_isDigit digit']
  | [c] => by
    have run := isRun_separated_iff digit digit' bs []
    simp only [List.nil_append] at run
    simp [isRun_cons_iff (c := c), ne_separator_of_isDigit digit, run]
  | c :: c' :: as => by
    have run := isRun_separated_iff digit digit' bs (c' :: as)
    have run' := isRun_separated_iff digit digit' bs as
    simp only [List.cons_append] at run ⊢
    simp [isRun_cons_iff (c := c), run, run']

theorem IsRun.regroup (run : IsRun (as ++ (p ++ bs))) (pieces : Regroups p p') :
    IsRun (as ++ (p' ++ bs)) := by
  cases pieces with
  | join d e => exact (isRun_separated_iff d e bs as).mp run
  | split d e => exact (isRun_separated_iff d e bs as).mpr run

theorem Regroups.digitsIn (pieces : Regroups p p') (as bs : List Char) :
    digitsIn (as ++ (p ++ bs)) = digitsIn (as ++ (p' ++ bs)) := by
  have mark : isDigit '_' = false := rfl
  cases pieces with
  | join d e | split d e => simp [Expression.digitsIn, d, e, mark]

theorem WritesMantissa.regroup (h : WritesMantissa whole fraction (as ++ (p ++ bs)))
    (pieces : Regroups p p') : WritesMantissa whole fraction (as ++ (p' ++ bs)) := by
  have absent : '.' ∉ p := pieces.not_mem (by decide) rfl
  generalize written : as ++ (p ++ bs) = ms at h
  cases h with
  | whole run =>
    subst written
    rw [pieces.digitsIn]
    exact .whole (run.regroup pieces)
  | pointed run =>
    rcases aside_of_append_eq pieces.ne_nil absent written with ⟨more, rfl, rfl⟩ | ⟨more, _, none⟩
    · rw [pieces.digitsIn]
      simpa using WritesMantissa.pointed (run.regroup pieces)
    · simp [pieces.ne_nil] at none
  | both run run' =>
    rcases aside_of_append_eq pieces.ne_nil absent written with ⟨more, rfl, rfl⟩ | ⟨more, rfl, rfl⟩
    · rw [pieces.digitsIn]
      simpa using WritesMantissa.both (run.regroup pieces) run'
    · rw [pieces.digitsIn]
      simpa using WritesMantissa.both run (run'.regroup pieces)
  | fraction run =>
    obtain ⟨more, rfl, rfl⟩ := pieces.behind (by decide) rfl written
    rw [pieces.digitsIn]
    exact .fraction (run.regroup pieces)

theorem exponentValue_regroup (pieces : Regroups p p') (negative : Bool) (as bs : List Char) :
    exponentValue negative (as ++ (p ++ bs)) = exponentValue negative (as ++ (p' ++ bs)) := by
  rw [exponentValue, exponentValue, pieces.digitsIn]

theorem WritesExponent.regroup (h : WritesExponent exponent (as ++ (p ++ bs)))
    (pieces : Regroups p p') : WritesExponent exponent (as ++ (p' ++ bs)) := by
  have letter {c : Char} (mark : c = 'e' ∨ c = 'E') : c ≠ '_' ∧ isDigit c = false := by
    rcases mark with rfl | rfl <;> decide
  generalize written : as ++ (p ++ bs) = es at h
  cases h with
  | none => simp [pieces.ne_nil] at written
  | unsigned mark run =>
    obtain ⟨more, rfl, rfl⟩ := pieces.behind (letter mark).1 (letter mark).2 written
    rw [exponentValue_regroup pieces]
    exact .unsigned mark (run.regroup pieces)
  | plus mark run =>
    obtain ⟨more, rfl, signed⟩ := pieces.behind (letter mark).1 (letter mark).2 written
    obtain ⟨more, rfl, rfl⟩ := pieces.behind (by decide) rfl signed.symm
    rw [exponentValue_regroup pieces]
    exact .plus mark (run.regroup pieces)
  | minus mark run =>
    obtain ⟨more, rfl, signed⟩ := pieces.behind (letter mark).1 (letter mark).2 written
    obtain ⟨more, rfl, rfl⟩ := pieces.behind (by decide) rfl signed.symm
    rw [exponentValue_regroup pieces]
    exact .minus mark (run.regroup pieces)

theorem WritesExponent.begins (h : WritesExponent exponent es) :
    es = [] ∨ ∃ c more, es = c :: more ∧ (c = 'e' ∨ c = 'E') := by
  cases h with
  | none => exact .inl rfl
  | unsigned mark _ | plus mark _ | minus mark _ => exact .inr ⟨_, _, rfl, mark⟩

/-- How a literal groups its digits does not matter. -/
theorem WritesLiteral.regroup (h : WritesLiteral n (as ++ (p ++ bs))) (pieces : Regroups p p') :
    WritesLiteral n (as ++ (p' ++ bs)) := by
  generalize written : as ++ (p ++ bs) = xs at h
  cases h with
  | @intro _ _ _ ms es mantissa exponent =>
    rcases exponent.begins with rfl | ⟨c, more, rfl, mark⟩
    · rw [List.append_nil] at written
      subst written
      simpa using WritesLiteral.intro (mantissa.regroup pieces) exponent
    · have absent : c ∉ p := by
        rcases mark with rfl | rfl <;> exact pieces.not_mem (by decide) rfl
      rcases aside_of_append_eq pieces.ne_nil absent written with
        ⟨behind, rfl, rfl⟩ | ⟨front, rfl, rfl⟩
      · simpa using WritesLiteral.intro (mantissa.regroup pieces) exponent
      · have exponent : WritesExponent _ (c :: front ++ (p ++ bs)) := exponent
        simpa using WritesLiteral.intro mantissa (exponent.regroup pieces)

end

/-- Of the literals with which the text begins this one is the longest. -/
structure LongestLiteral (n : Numeral) (xs ys : List Char) : Prop where
  written : WritesLiteral n xs
  longest : ∀ n' zs, WritesLiteral n' zs → zs <+: xs ++ ys → zs.length ≤ xs.length

section
variable {n n' : Numeral} {cs xs ys xs' ys' as bs p p' front rest : List Char} {ls : List Lexeme}

theorem exists_longest (begins : BeginsLiteral cs) :
    ∃ n xs ys, cs = xs ++ ys ∧ LongestLiteral n xs ys := by
  classical
  obtain ⟨_, _, ms, rest, rfl, mantissa, _⟩ := exists_mantissa begins
  let long (k : Nat) : Prop := ∃ n, WritesLiteral n ((ms ++ rest).take k)
  have some : long ms.length := by
    have alone := WritesLiteral.intro mantissa .none
    rw [List.append_nil] at alone
    exact ⟨_, by rwa [List.take_left]⟩
  have inside : ms.length ≤ (ms ++ rest).length := by simp
  obtain ⟨n, written⟩ : long (Nat.findGreatest long _) := Nat.findGreatest_spec inside some
  refine ⟨n, _, _, (List.take_append_drop _ _).symm, written, fun n' zs written' begun => ?_⟩
  rw [List.take_append_drop] at begun
  have most := Nat.le_findGreatest (P := long) begun.length_le
    ⟨n', by rwa [List.prefix_iff_eq_take.mp begun] at written'⟩
  rw [List.length_take, Nat.min_eq_left (Nat.findGreatest_le _)]
  exact most

theorem LongestLiteral.unique (h : LongestLiteral n xs ys) (h' : LongestLiteral n' xs' ys')
    (same : xs ++ ys = xs' ++ ys') : n' = n ∧ xs' = xs := by
  have le := h'.longest n xs h.written (same ▸ List.prefix_append ..)
  have ge := h.longest n' xs' h'.written (same ▸ List.prefix_append ..)
  obtain ⟨rfl, _⟩ := List.append_inj same (le.antisymm ge)
  exact ⟨h'.written.unique h.written, rfl⟩

theorem LongestLiteral.scanLiteral_of_continues (h : LongestLiteral n xs ys)
    (continues : continuesLiteral ys = true) : ∃ width, scanLiteral (xs ++ ys) = .error width := by
  cases read : scanLiteral (xs ++ ys) with
  | error width => exact ⟨width, rfl⟩
  | ok found =>
    obtain ⟨v, width⟩ := found
    obtain ⟨n', xs', ys', split, literal, apart, _⟩ := exists_of_scanLiteral (h.written.begins ys) read
    rcases List.append_eq_append_iff.mp split with ⟨more, rfl, rfl⟩ | ⟨more, rfl, rfl⟩
    · have within := h.longest n' _ literal (by rw [split]; exact List.prefix_append ..)
      obtain rfl : more = [] := by
        rw [List.length_append] at within
        exact List.eq_nil_of_length_eq_zero (by omega)
      cases continues.symm.trans apart
    · cases more with
      | nil => cases continues.symm.trans apart
      | cons d more =>
        rw [List.cons_append, continuesLiteral_cons, literal.continues h.written] at apart
        cases apart

theorem LongestLiteral.regroup (h : LongestLiteral n (as ++ (p ++ bs)) ys) (pieces : Regroups p p') :
    LongestLiteral n (as ++ (p' ++ bs)) ys := by
  refine ⟨h.written.regroup pieces, fun n' zs written begun => ?_⟩
  by_contra longer
  obtain ⟨more, rfl⟩ := List.prefix_of_prefix_length_le (List.prefix_append ..) begun (by omega)
  have written' : WritesLiteral n' (as ++ (p' ++ (bs ++ more))) := by simpa using written
  have within := h.longest n' _ (written'.regroup pieces.symm) (by simpa using begun)
  simp only [List.length_append] at within longer
  omega

theorem longestLiteral_separated_iff {d e : Char} (digit : isDigit d = true)
    (digit' : isDigit e = true) : LongestLiteral n (as ++ d :: '_' :: e :: bs) ys ↔
      LongestLiteral n (as ++ d :: e :: bs) ys :=
  ⟨fun h => h.regroup (.join digit digit'), fun h => h.regroup (.split digit digit')⟩

/-- Where a number begins, it is read if nothing goes on with the longest literal, whose value must be
finite, and the text is rejected there otherwise. -/
theorem lexemes_of_longest {text : String} (scanned : Scans 0 front (xs ++ ys) ls)
    (split : text.toList = front ++ (xs ++ ys)) (h : LongestLiteral n xs ys) :
    if continuesLiteral ys = false ∧ n.toFloat.isFinite = true then
      lexemes text = (scanFrom (front.length + xs.length) 0 ys).map
        (ls ++ ⟨.number n.toFloat, front.length, xs.length⟩ :: ·)
    else ∃ shown, lexemes text = .error (.invalidNumber shown front.length) := by
  obtain ⟨c, cs, rfl⟩ := List.exists_cons_of_ne_nil (Token.SpelledBy.number h.written).ne_nil
  have begins : BeginsLiteral (c :: (cs ++ ys)) := h.written.begins ys
  have read : lexemes text =
      (scanFrom front.length 0 (c :: cs ++ ys)).map (ls ++ ·) := by
    rw [lexemes, split, scanned.scanFrom, Nat.zero_add]
  have refused {width : Nat} (refused : scanLiteral (c :: (cs ++ ys)) = .error width) :
      ∃ shown, lexemes text = .error (.invalidNumber shown front.length) := by
    have stuck : scanToken front.length c (cs ++ ys) = _ := scanToken_of_literal begins
    rw [refused] at stuck
    have plain := h.written.isSpace c List.mem_cons_self
    rw [read, List.cons_append, scanFrom_stuck plain stuck]
    exact ⟨_, rfl⟩
  split_ifs with taken
  · rw [read, (Takes.number h.written taken.2 taken.1).scanFrom]
    cases scanFrom (front.length + (c :: cs).length) 0 ys <;> rfl
  · by_cases continues : continuesLiteral ys = true
    · exact refused (h.scanLiteral_of_continues continues).choose_spec
    · have apart : continuesLiteral ys = false := by simpa using continues
      have infinite : ¬n.toFloat.isFinite = true := fun finite => taken ⟨apart, finite⟩
      exact refused ((scanLiteral_append h.written apart).trans (if_neg infinite))

end

/-- Wherever a number begins there is one longest literal. It is read exactly if nothing goes on with it
and its value is finite, and the scan then continues behind it. The value is the float nearest to the number
that is left without the separators, and how they group the digits changes nothing. -/
theorem lexemes_number_exact {text : String} {front rest : List Char} {ls : List Lexeme}
    (split : text.toList = front ++ rest) (scanned : Scans 0 front rest ls)
    (begins : BeginsLiteral rest) :
    (∃ n xs ys, rest = xs ++ ys ∧ LongestLiteral n xs ys ∧
      ∀ n' xs' ys', rest = xs' ++ ys' → LongestLiteral n' xs' ys' → n' = n ∧ xs' = xs) ∧
    (∀ n xs ys, rest = xs ++ ys → LongestLiteral n xs ys →
      (if continuesLiteral ys = false ∧ n.toFloat.isFinite = true then
        lexemes text = (scanFrom (front.length + xs.length) 0 ys).map
          (ls ++ ⟨.number n.toFloat, front.length, xs.length⟩ :: ·)
      else ∃ shown, lexemes text = .error (.invalidNumber shown front.length)) ∧
      WritesNumeral '.' n (ungrouped xs) ∧
      ofText (String.ofList (ungrouped xs)) = some n.toFloat ∧
      ∀ v, IsNearest n v ↔ n.toFloat.isFinite = true ∧ v = n.toFloat) ∧
    ∀ n as d e bs ys, isDigit d = true → isDigit e = true →
      (LongestLiteral n (as ++ d :: '_' :: e :: bs) ys ↔
        LongestLiteral n (as ++ d :: e :: bs) ys) := by
  refine ⟨?_, fun n xs ys parts h => ?_,
    fun _ _ _ _ _ _ digit digit' => longestLiteral_separated_iff digit digit'⟩
  · obtain ⟨n, xs, ys, parts, h⟩ := exists_longest begins
    exact ⟨n, xs, ys, parts, h, fun _ _ _ parts' h' => h.unique h' (parts.symm.trans parts')⟩
  · subst parts
    exact ⟨lexemes_of_longest scanned split h, h.written.writesNumeral, h.written.ofText,
      fun _ => isNearest_iff⟩

theorem lexemes_number_exact_grouped :
    ∃ (v : Float) (ls : List Lexeme), "a*1_0e2".toList = ['a', '*'] ++ "1_0e2".toList ∧
      Scans 0 ['a', '*'] "1_0e2".toList ls ∧ BeginsLiteral "1_0e2".toList ∧
      lexemes "a*1_0e2" = .ok (ls ++ [⟨.number v, 2, 5⟩]) ∧ ofText "10e2" = some v ∧
      IsNearest ⟨false, ['1', '0'], [], some 2⟩ v := by
  have split : "a*1_0e2".toList = ['a', '*'] ++ "1_0e2".toList := rfl
  have begins : BeginsLiteral "1_0e2".toList := .inl rfl
  have scanned : Scans 0 ['a', '*'] "1_0e2".toList [⟨.name "a", 0, 1⟩, ⟨.star, 1, 1⟩] := by
    have star : Takes .star ['*'] ([] ++ "1_0e2".toList) := by
      refine .operator (by decide) fun d first => ?_
      cases first
      decide
    have name : Takes (.name "a") ['a'] (['*'] ++ "1_0e2".toList) := by
      refine .name rfl (by simp) fun d first => ?_
      cases first
      rfl
    exact .token name (.token star .nil)
  have written : WritesLiteral ⟨false, ['1', '0'], [], some 2⟩ "1_0e2".toList := by
    have whole : IsRun ['1', '_', '0'] := .separated rfl (.digit rfl)
    have raised : IsRun ['2'] := .digit rfl
    exact .intro (.whole whole) (.unsigned (.inl rfl) raised)
  have longest : LongestLiteral ⟨false, ['1', '0'], [], some 2⟩ "1_0e2".toList [] :=
    ⟨written, fun _ _ _ begun => begun.length_le⟩
  obtain ⟨read, _, value, nearest⟩ :=
    (lexemes_number_exact split scanned begins).2.1 _ _ [] rfl longest
  have finite : (Numeral.toFloat ⟨false, ['1', '0'], [], some 2⟩).isFinite = true := by decide
  rw [if_pos ⟨rfl, finite⟩] at read
  exact ⟨_, _, split, scanned, begins, read, value, (nearest _).mpr ⟨finite, rfl⟩⟩

end BuildingCode.Expression

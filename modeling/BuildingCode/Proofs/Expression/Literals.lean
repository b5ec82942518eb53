import BuildingCode.Expression.Literal
import Mathlib.Data.List.Basic

/-! Number literals as they are written. A literal is read whole wherever it stands, as long as no
word, point or separator follows that would go on with it, and nothing else is ever read as one. -/
namespace BuildingCode.Expression
open Text Number

inductive IsRun : List Char → Prop
  | digit {d} : isDigit d = true → IsRun [d]
  | next {d ds} : isDigit d = true → IsRun ds → IsRun (d :: ds)
  | separated {d ds} : isDigit d = true → IsRun ds → IsRun (d :: '_' :: ds)

def digitsIn (cs : List Char) : List Char := cs.filter isDigit

def EndsRun (ys : List Char) : Prop :=
  startsWithDigit ys = false ∧ ∀ ds, ys = '_' :: ds → startsWithDigit ds = false

section
variable {xs ys : List Char} {d : Char}

@[simp] theorem startsWithDigit_cons : startsWithDigit (d :: xs) = isDigit d := rfl

theorem IsRun.begins (run : IsRun xs) : ∃ d ds, xs = d :: ds ∧ isDigit d = true := by
  cases run with
  | digit h | next h _ | separated h _ => exact ⟨_, _, rfl, h⟩

theorem IsRun.startsWithDigit_append (run : IsRun xs) (ys : List Char) :
    startsWithDigit (xs ++ ys) = true := by
  obtain ⟨d, ds, rfl, digit⟩ := run.begins
  exact digit

theorem IsRun.getLast? (run : IsRun xs) : ∃ d, xs.getLast? = some d ∧ isDigit d = true := by
  induction run with
  | digit h => exact ⟨_, rfl, h⟩
  | next _ _ ih =>
    obtain ⟨d, last, digit⟩ := ih
    exact ⟨d, by rw [List.getLast?_cons, last]; rfl, digit⟩
  | separated _ _ ih =>
    obtain ⟨d, last, digit⟩ := ih
    exact ⟨d, by rw [List.getLast?_cons, List.getLast?_cons, last]; rfl, digit⟩

theorem isWordChar_of_isDigit (digit : isDigit d = true) : isWordChar d = true := by
  simp [isWordChar, digit]

theorem IsRun.isWordChar (run : IsRun xs) : ∀ c ∈ xs, isWordChar c = true := by
  induction run with
  | digit h => simpa using isWordChar_of_isDigit h
  | next h _ ih => exact List.forall_mem_cons.mpr ⟨isWordChar_of_isDigit h, ih⟩
  | separated h _ ih =>
    exact List.forall_mem_cons.mpr ⟨isWordChar_of_isDigit h, List.forall_mem_cons.mpr ⟨rfl, ih⟩⟩

theorem digitRun_of_ends (ends : EndsRun ys) (after : Bool) : digitRun after ys = ([], 0) := by
  cases ys with
  | nil => rfl
  | cons c cs =>
    have noDigit : isDigit c = false := ends.1
    have noSeparator : (c == '_' && after && startsWithDigit cs) = false := by
      by_cases mark : c = '_'
      · simp [ends.2 cs (by rw [mark])]
      · simp [mark]
    simp [digitRun, noDigit, noSeparator]

theorem digitRun_append (run : IsRun xs) (ends : EndsRun ys) (after : Bool) :
    digitRun after (xs ++ ys) = (digitsIn xs, xs.length) := by
  induction run generalizing after with
  | digit h => simp [digitRun, h, digitRun_of_ends ends, digitsIn]
  | next h _ ih => simp [digitRun, h, ih, digitsIn]
  | separated h run ih =>
    have mark : isDigit '_' = false := rfl
    simp [digitRun, h, ih, mark, run.startsWithDigit_append, digitsIn]

theorem exists_run : ∀ cs : List Char, startsWithDigit cs = true →
    ∃ xs ys, cs = xs ++ ys ∧ IsRun xs ∧ EndsRun ys
  | [], absent => by cases absent
  | d :: cs, digit => by
    by_cases next : startsWithDigit cs = true
    · obtain ⟨xs, ys, rfl, run, ends⟩ := exists_run cs next
      exact ⟨d :: xs, ys, rfl, .next digit run, ends⟩
    · by_cases separated : ∃ ds, cs = '_' :: ds ∧ startsWithDigit ds = true
      · obtain ⟨ds, rfl, behind⟩ := separated
        obtain ⟨xs, ys, rfl, run, ends⟩ := exists_run ds behind
        exact ⟨d :: '_' :: xs, ys, rfl, .separated digit run, ends⟩
      · refine ⟨[d], cs, rfl, .digit digit, by simpa using next, fun ds mark => ?_⟩
        by_contra behind
        exact separated ⟨ds, mark, by simpa using behind⟩

end

/-- The part of a literal before its exponent: digits in front of a point, behind it, or both. -/
inductive WritesMantissa : (whole fraction : List Char) → List Char → Prop
  | whole {ds} : IsRun ds → WritesMantissa (digitsIn ds) [] ds
  | pointed {ds} : IsRun ds → WritesMantissa (digitsIn ds) [] (ds ++ ['.'])
  | both {ds fs} : IsRun ds → IsRun fs →
      WritesMantissa (digitsIn ds) (digitsIn fs) (ds ++ '.' :: fs)
  | fraction {fs} : IsRun fs → WritesMantissa [] (digitsIn fs) ('.' :: fs)

def exponentValue (negative : Bool) (ds : List Char) : Int :=
  let value : Int := digitsValue (digitsIn ds)
  if negative then -value else value

/-- The exponent of a literal, which may be missing. -/
inductive WritesExponent : Option Int → List Char → Prop
  | none : WritesExponent none []
  | unsigned {c ds} : c = 'e' ∨ c = 'E' → IsRun ds →
      WritesExponent (some (exponentValue false ds)) (c :: ds)
  | plus {c ds} : c = 'e' ∨ c = 'E' → IsRun ds →
      WritesExponent (some (exponentValue false ds)) (c :: '+' :: ds)
  | minus {c ds} : c = 'e' ∨ c = 'E' → IsRun ds →
      WritesExponent (some (exponentValue true ds)) (c :: '-' :: ds)

/-- The characters are a literal of the numeral. -/
inductive WritesLiteral : Numeral → List Char → Prop
  | intro {whole fraction exponent ms es} : WritesMantissa whole fraction ms →
      WritesExponent exponent es → WritesLiteral ⟨false, whole, fraction, exponent⟩ (ms ++ es)

def BeginsLiteral (cs : List Char) : Prop :=
  startsWithDigit cs = true ∨ ∃ ds, cs = '.' :: ds ∧ startsWithDigit ds = true

section
variable {whole fraction ms es xs ys rest : List Char} {exponent : Option Int} {n n' : Numeral}
  {d : Char}

theorem WritesMantissa.begins (h : WritesMantissa whole fraction ms) (es : List Char) :
    BeginsLiteral (ms ++ es) := by
  cases h with
  | whole run => exact .inl (run.startsWithDigit_append es)
  | pointed run | both run _ =>
    refine .inl ?_
    rw [List.append_assoc]
    exact run.startsWithDigit_append _
  | fraction run => exact .inr ⟨_, rfl, run.startsWithDigit_append es⟩

theorem WritesLiteral.begins (h : WritesLiteral n xs) (ys : List Char) :
    BeginsLiteral (xs ++ ys) := by
  obtain ⟨mantissa, _⟩ := h
  rw [List.append_assoc]
  exact mantissa.begins _

theorem BeginsLiteral.cons (h : BeginsLiteral (d :: xs)) : isDigit d = true ∨ d = '.' := by
  rcases h with digit | ⟨ds, point, _⟩
  · exact .inl digit
  · exact .inr (List.cons.inj point).1

theorem continuesLiteral_cons : continuesLiteral (d :: xs) = (isWordChar d || d == '.') := rfl

theorem endsRun_of_not_continues (apart : continuesLiteral ys = false) : EndsRun ys := by
  cases ys with
  | nil => exact ⟨rfl, fun _ none => nomatch none⟩
  | cons c cs =>
    rw [continuesLiteral_cons, Bool.or_eq_false_iff] at apart
    refine ⟨?_, fun ds mark => ?_⟩
    · by_contra digit
      rw [isWordChar_of_isDigit (by simpa using digit)] at apart
      cases apart.1
    · obtain ⟨rfl, _⟩ := List.cons.inj mark
      cases apart.1

theorem endsRun_mark {c : Char} (mark : c = 'e' ∨ c = 'E' ∨ c = '.') (cs : List Char) :
    EndsRun (c :: cs) := by
  rcases mark with rfl | rfl | rfl <;> exact ⟨rfl, fun _ same => nomatch same⟩

theorem WritesExponent.endsMantissa (h : WritesExponent exponent es)
    (apart : continuesLiteral ys = false) : EndsRun (es ++ ys) ∧ ∀ cs, es ++ ys ≠ '.' :: cs := by
  cases h with
  | none =>
    refine ⟨endsRun_of_not_continues apart, fun cs point => ?_⟩
    rw [List.nil_append] at point
    rw [point] at apart
    cases apart
  | unsigned mark _ | plus mark _ | minus mark _ =>
    refine ⟨endsRun_mark (mark.imp_right .inl) _, fun cs point => ?_⟩
    obtain ⟨rfl, _⟩ := List.cons.inj point
    simp at mark

def scanMantissa (cs : List Char) : List Char × List Char × Nat :=
  let (whole, wholeWidth) := digitRun false cs
  let (fraction, fractionWidth) := literalFraction (cs.drop wholeWidth)
  (whole, fraction, wholeWidth + fractionWidth)

theorem scanMantissa_run (run : IsRun xs) (ends : EndsRun rest) :
    scanMantissa (xs ++ rest) =
      (digitsIn xs, (literalFraction rest).1, xs.length + (literalFraction rest).2) := by
  simp [scanMantissa, digitRun_append run ends]

theorem literalFraction_run (run : IsRun xs) (ends : EndsRun rest) :
    literalFraction ('.' :: (xs ++ rest)) = (digitsIn xs, xs.length + 1) := by
  simp [literalFraction, digitRun_append run ends]

theorem literalFraction_of_ends (ends : EndsRun rest) :
    literalFraction ('.' :: rest) = ([], 1) := by
  simp [literalFraction, digitRun_of_ends ends]

theorem literalFraction_of_ne (apart : ∀ cs, rest ≠ '.' :: cs) :
    literalFraction rest = ([], 0) := by
  unfold literalFraction
  split
  · next cs => exact absurd rfl (apart cs)
  · rfl

theorem digitRun_of_not_digit (apart : startsWithDigit rest = false) :
    digitRun false rest = ([], 0) := by
  cases rest with
  | nil => rfl
  | cons c cs =>
    have noDigit : isDigit c = false := apart
    simp [digitRun, noDigit]

theorem scanMantissa_append (h : WritesMantissa whole fraction ms) (ends : EndsRun rest)
    (apart : ∀ cs, rest ≠ '.' :: cs) :
    scanMantissa (ms ++ rest) = (whole, fraction, ms.length) := by
  have point (cs : List Char) : EndsRun ('.' :: cs) := endsRun_mark (by simp) cs
  cases h with
  | whole run => simp [scanMantissa_run run ends, literalFraction_of_ne apart]
  | pointed run =>
    rw [List.append_assoc, List.singleton_append, scanMantissa_run run (point _),
      literalFraction_of_ends ends, List.length_append, List.length_singleton]
  | both run run' =>
    rw [List.append_assoc, List.cons_append, scanMantissa_run run (point _),
      literalFraction_run run' ends, List.length_append, List.length_cons]
  | @fraction fs run =>
    simp [scanMantissa, digitRun_of_ends (point (fs ++ rest)), literalFraction_run run ends]

theorem exists_mantissa {cs : List Char} (begins : BeginsLiteral cs) :
    ∃ whole fraction ms rest, cs = ms ++ rest ∧ WritesMantissa whole fraction ms ∧
      scanMantissa cs = (whole, fraction, ms.length) := by
  rcases begins with digit | ⟨ds, rfl, digit⟩
  · obtain ⟨xs, rest, rfl, run, ends⟩ := exists_run cs digit
    by_cases point : ∃ behind, rest = '.' :: behind
    · obtain ⟨behind, rfl⟩ := point
      by_cases digit' : startsWithDigit behind = true
      · obtain ⟨fs, rest, rfl, run', ends'⟩ := exists_run behind digit'
        refine ⟨_, _, xs ++ '.' :: fs, rest, by simp, .both run run', ?_⟩
        simp [scanMantissa_run run ends, literalFraction_run run' ends']
      · refine ⟨_, _, xs ++ ['.'], behind, by simp, .pointed run, ?_⟩
        have absent := digitRun_of_not_digit (Bool.eq_false_iff.mpr digit')
        simp [scanMantissa_run run ends, literalFraction, absent]
    · refine ⟨_, _, xs, rest, rfl, .whole run, ?_⟩
      simp [scanMantissa_run run ends, literalFraction_of_ne (not_exists.mp point)]
  · obtain ⟨fs, rest, rfl, run, ends⟩ := exists_run ds digit
    refine ⟨_, _, '.' :: fs, rest, rfl, .fraction run, ?_⟩
    have absent := digitRun_of_ends (endsRun_mark (c := '.') (by simp) (fs ++ rest)) false
    simp [scanMantissa, absent, literalFraction_run run ends]

def exponentBehind (negative : Bool) (marks : Nat) (cs : List Char) : Option (Option Int) × Nat :=
  let (ds, width) := digitRun false cs
  let value : Int := digitsValue ds
  if ds.isEmpty then (none, marks)
  else (some (some (if negative then -value else value)), marks + width)

section
variable {c : Char} (mark : c = 'e' ∨ c = 'E') {cs : List Char}
include mark

theorem literalExponent_minus : literalExponent (c :: '-' :: cs) = exponentBehind true 2 cs := by
  rcases mark with rfl | rfl <;> rfl

theorem literalExponent_plus : literalExponent (c :: '+' :: cs) = exponentBehind false 2 cs := by
  rcases mark with rfl | rfl <;> rfl

theorem literalExponent_unsigned (minus : ∀ ds, cs ≠ '-' :: ds) (plus : ∀ ds, cs ≠ '+' :: ds) :
    literalExponent (c :: cs) = exponentBehind false 1 cs := by
  have marked : (c == 'e' || c == 'E') = true := by simpa using mark
  rw [literalExponent, if_pos marked]
  · rfl
  · exact minus
  · exact plus

end

theorem IsRun.digitsIn_ne_nil (run : IsRun xs) : digitsIn xs ≠ [] := by
  obtain ⟨d, ds, rfl, digit⟩ := run.begins
  simp [digitsIn, digit]

theorem exponentBehind_append (run : IsRun xs) (ends : EndsRun ys) (negative : Bool) (marks : Nat) :
    exponentBehind negative marks (xs ++ ys) =
      (some (some (exponentValue negative xs)), marks + xs.length) := by
  simp [exponentBehind, exponentValue, digitRun_append run ends, run.digitsIn_ne_nil]

theorem exists_of_exponentBehind {negative : Bool} {marks width : Nat} {cs : List Char}
    (h : exponentBehind negative marks cs = (some exponent, width)) :
    ∃ ds ys, cs = ds ++ ys ∧ IsRun ds ∧ width = marks + ds.length ∧
      exponent = some (exponentValue negative ds) := by
  by_cases digit : startsWithDigit cs = true
  · obtain ⟨ds, ys, rfl, run, ends⟩ := exists_run cs digit
    rw [exponentBehind_append run ends] at h
    cases h
    exact ⟨ds, ys, rfl, run, rfl, rfl⟩
  · rw [exponentBehind, digitRun_of_not_digit (Bool.eq_false_iff.mpr digit)] at h
    cases h

theorem literalExponent_append (h : WritesExponent exponent es)
    (apart : continuesLiteral ys = false) :
    literalExponent (es ++ ys) = (some exponent, es.length) := by
  have ends := endsRun_of_not_continues apart
  cases h with
  | none =>
    cases ys with
    | nil => rfl
    | cons c cs =>
      have unmarked : ¬(c == 'e' || c == 'E') = true := by
        intro marked
        rw [Bool.or_eq_true, beq_iff_eq, beq_iff_eq] at marked
        rcases marked with rfl | rfl <;> cases apart
      exact if_neg unmarked
  | unsigned mark run =>
    obtain ⟨d, ds, rfl, digit⟩ := run.begins
    have unlike (s : Char) (other : isDigit s = false) (more : List Char) :
        d :: ds ++ ys ≠ s :: more := by
      intro same
      rw [(List.cons.inj same).1, other] at digit
      cases digit
    rw [List.cons_append, literalExponent_unsigned mark (unlike '-' rfl) (unlike '+' rfl),
      exponentBehind_append run ends, List.length_cons, Nat.add_comm 1]
    rfl
  | plus mark run =>
    rw [List.cons_append, List.cons_append, literalExponent_plus mark,
      exponentBehind_append run ends, List.length_cons, List.length_cons, Nat.add_comm 2]
  | minus mark run =>
    rw [List.cons_append, List.cons_append, literalExponent_minus mark,
      exponentBehind_append run ends, List.length_cons, List.length_cons, Nat.add_comm 2]

theorem exists_of_literalExponent {cs : List Char} {width : Nat}
    (h : literalExponent cs = (some exponent, width)) :
    ∃ es ys, cs = es ++ ys ∧ WritesExponent exponent es ∧ width = es.length := by
  cases cs with
  | nil =>
    cases h
    exact ⟨[], [], rfl, .none, rfl⟩
  | cons c cs =>
    by_cases mark : c = 'e' ∨ c = 'E'
    · by_cases minus : ∃ ds, cs = '-' :: ds
      · obtain ⟨ds, rfl⟩ := minus
        rw [literalExponent_minus mark] at h
        obtain ⟨ds, ys, rfl, run, rfl, rfl⟩ := exists_of_exponentBehind h
        exact ⟨c :: '-' :: ds, ys, rfl, .minus mark run, by simp [Nat.add_comm 2]⟩
      · by_cases plus : ∃ ds, cs = '+' :: ds
        · obtain ⟨ds, rfl⟩ := plus
          rw [literalExponent_plus mark] at h
          obtain ⟨ds, ys, rfl, run, rfl, rfl⟩ := exists_of_exponentBehind h
          exact ⟨c :: '+' :: ds, ys, rfl, .plus mark run, by simp [Nat.add_comm 2]⟩
        · rw [literalExponent_unsigned mark (not_exists.mp minus) (not_exists.mp plus)] at h
          obtain ⟨ds, ys, rfl, run, rfl, rfl⟩ := exists_of_exponentBehind h
          exact ⟨c :: ds, ys, rfl, .unsigned mark run, by simp [Nat.add_comm 1]⟩
    · have unmarked : ¬(c == 'e' || c == 'E') = true := by simpa using mark
      have absent : literalExponent (c :: cs) = (some none, 0) := if_neg unmarked
      rw [absent] at h
      cases h
      exact ⟨[], c :: cs, rfl, .none, rfl⟩

theorem scanLiteral_eq (cs : List Char) : scanLiteral cs =
    let (whole, fraction, mantissaWidth) := scanMantissa cs
    match literalExponent (cs.drop mantissaWidth) with
    | (none, width) => .error (mantissaWidth + width)
    | (some exponent, width) =>
      let width := mantissaWidth + width
      let value := Numeral.toFloat ⟨false, whole, fraction, exponent⟩
      if continuesLiteral (cs.drop width) then .error (width + 1)
      else if value.isFinite then .ok (value, width)
      else .error width := rfl

/-- A literal is read whole in front of anything that does not go on with it, and refused if its
value is beyond the floats. -/
theorem scanLiteral_append (h : WritesLiteral n xs) (apart : continuesLiteral ys = false) :
    scanLiteral (xs ++ ys) =
      if n.toFloat.isFinite then .ok (n.toFloat, xs.length) else .error xs.length := by
  obtain ⟨mantissa, exponent⟩ := h
  obtain ⟨ends, point⟩ := exponent.endsMantissa apart
  have front := scanMantissa_append mantissa ends point
  have back := literalExponent_append exponent apart
  rw [List.append_assoc, scanLiteral_eq, front]
  simp [back, apart]

/-- What is read as a literal is one, has its value, and nothing behind goes on with it. -/
theorem exists_of_scanLiteral {cs : List Char} (begins : BeginsLiteral cs) {v : Float} {width : Nat}
    (h : scanLiteral cs = .ok (v, width)) : ∃ n xs ys, cs = xs ++ ys ∧ WritesLiteral n xs ∧
      continuesLiteral ys = false ∧ n.toFloat.isFinite ∧ v = n.toFloat ∧ width = xs.length := by
  obtain ⟨whole, fraction, ms, rest, rfl, mantissa, front⟩ := exists_mantissa begins
  simp only [scanLiteral_eq, front, List.drop_left] at h
  cases back : literalExponent rest with
  | mk exponent width' =>
    rw [back] at h
    cases exponent with
    | none => cases h
    | some exponent =>
      obtain ⟨es, ys, rfl, written, rfl⟩ := exists_of_literalExponent back
      dsimp only at h
      rw [← List.append_assoc, ← List.length_append, List.drop_left] at h
      by_cases goesOn : continuesLiteral ys = true
      · simp only [goesOn, if_true] at h
        cases h
      · rw [if_neg goesOn] at h
        split at h
        · next finite =>
          cases h
          exact ⟨_, ms ++ es, ys, (List.append_assoc ..).symm, .intro mantissa written,
            Bool.eq_false_iff.mpr goesOn, finite, rfl, rfl⟩
        · cases h

theorem WritesMantissa.continues (h : WritesMantissa whole fraction ms) :
    ∀ c ∈ ms, (isWordChar c || c == '.') = true := by
  have digits {ds : List Char} (run : IsRun ds) : ∀ c ∈ ds, (isWordChar c || c == '.') = true :=
    fun c mem => by rw [run.isWordChar c mem, Bool.true_or]
  cases h with
  | whole run => exact digits run
  | pointed run => exact List.forall_mem_append.mpr ⟨digits run, by simp⟩
  | both run run' =>
    exact List.forall_mem_append.mpr ⟨digits run, List.forall_mem_cons.mpr ⟨by simp, digits run'⟩⟩
  | fraction run => exact List.forall_mem_cons.mpr ⟨by simp, digits run⟩

theorem WritesExponent.continues_or_sign (h : WritesExponent exponent (xs ++ d :: ys)) :
    (isWordChar d || d == '.') = true ∨ xs = ['e'] ∨ xs = ['E'] := by
  have letter {c : Char} (mark : c = 'e' ∨ c = 'E') : isWordChar c = true := by
    rcases mark with rfl | rfl <;> rfl
  generalize written : xs ++ d :: ys = es at h
  have mem : d ∈ es := by simp [← written]
  cases h with
  | none => simp at written
  | unsigned mark run =>
    left
    rcases List.mem_cons.mp mem with rfl | inside
    · simp [letter mark]
    · simp [run.isWordChar d inside]
  | plus mark run | minus mark run =>
    cases xs with
    | nil =>
      obtain ⟨rfl, _⟩ := List.cons.inj written
      simp [letter mark]
    | cons c xs =>
      obtain ⟨rfl, behind⟩ := List.cons.inj written
      cases xs with
      | nil => rcases mark with rfl | rfl <;> simp
      | cons s xs =>
        obtain ⟨_, rfl⟩ := List.cons.inj behind
        have inside : d ∈ xs ++ d :: ys := by simp
        simp [run.isWordChar d inside]

/-- The last character is one that a literal may end with. -/
def ClosesLiteral (cs : List Char) : Prop :=
  ∃ c, cs.getLast? = some c ∧ (isDigit c = true ∨ c = '.')

theorem IsRun.closes (run : IsRun xs) : ClosesLiteral xs := by
  obtain ⟨c, last, digit⟩ := run.getLast?
  exact ⟨c, last, .inl digit⟩

theorem ClosesLiteral.append (closes : ClosesLiteral ys) (xs : List Char) :
    ClosesLiteral (xs ++ ys) := by
  obtain ⟨c, last, closing⟩ := closes
  exact ⟨c, by rw [List.getLast?_append, last]; rfl, closing⟩

theorem WritesLiteral.closes (h : WritesLiteral n xs) : ClosesLiteral xs := by
  obtain ⟨mantissa, exponent⟩ := h
  cases exponent with
  | none =>
    rw [List.append_nil]
    cases mantissa with
    | whole run => exact run.closes
    | pointed run => exact .append ⟨'.', rfl, .inr rfl⟩ _
    | both run run' => exact (run'.closes.append ['.']).append _
    | fraction run => exact run.closes.append ['.']
  | unsigned _ run => exact (run.closes.append [_]).append _
  | plus _ run | minus _ run => exact (run.closes.append [_, _]).append _

/-- Behind a literal only what continues it can make a longer one. -/
theorem WritesLiteral.continues (h : WritesLiteral n xs) (h' : WritesLiteral n' (xs ++ d :: ys)) :
    (isWordChar d || d == '.') = true := by
  generalize written : xs ++ d :: ys = zs at h'
  obtain ⟨mantissa, exponent⟩ := h'
  rcases List.append_eq_append_iff.mp written with ⟨more, rfl, inside⟩ | ⟨more, rfl, rfl⟩
  · cases more with
    | nil =>
      rw [List.nil_append] at inside
      subst inside
      have first : WritesExponent _ ([] ++ d :: ys) := exponent
      exact first.continues_or_sign.resolve_right (by simp)
    | cons c more =>
      obtain ⟨rfl, _⟩ := List.cons.inj inside
      exact mantissa.continues d (by simp)
  · refine exponent.continues_or_sign.resolve_right fun mark => ?_
    -- an exponent's mark is no end of a literal
    obtain ⟨c, last, closing⟩ := h.closes
    rcases mark with rfl | rfl <;> simp at last <;> subst last <;> revert closing <;> decide

end

end BuildingCode.Expression

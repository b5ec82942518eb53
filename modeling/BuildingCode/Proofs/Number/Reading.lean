import BuildingCode.Number.Reading
import BuildingCode.Proofs.Text.Digits
import Mathlib.Data.List.TakeWhile

/-! How numbers are written in text, and that the reader takes exactly that. What stands for the decimal
point is a parameter, since people write a comma there as well. -/
namespace BuildingCode.Number
open Text

structure IsDigits (ds : List Char) : Prop where
  filled : ds ≠ []
  digits : ∀ c ∈ ds, isDigit c = true

/-- A sign that may be missing; true means minus. -/
inductive WritesSign : Bool → List Char → Prop
  | none : WritesSign false []
  | plus : WritesSign false ['+']
  | minus : WritesSign true ['-']

/-- Digits with at most one separator, which has digits in front of it or behind it. -/
inductive WritesPlaces (separator : Char) : (whole fraction : List Char) → List Char → Prop
  | whole {ds} : IsDigits ds → WritesPlaces separator ds [] ds
  | pointed {ds} : IsDigits ds → WritesPlaces separator ds [] (ds ++ [separator])
  | both {ds fs} : IsDigits ds → IsDigits fs →
      WritesPlaces separator ds fs (ds ++ separator :: fs)
  | fraction {fs} : IsDigits fs → WritesPlaces separator [] fs (separator :: fs)

def signedPower (negative : Bool) (ds : List Char) : Int :=
  if negative then -(digitsValue ds : Int) else digitsValue ds

/-- A power of ten that may be missing. -/
inductive WritesPower : Option Int → List Char → Prop
  | none : WritesPower none []
  | raised {c negative sign ds} : c = 'e' ∨ c = 'E' → WritesSign negative sign → IsDigits ds →
      WritesPower (some (signedPower negative ds)) (c :: (sign ++ ds))

/-- The characters write the numeral, with the separator for its point. -/
inductive WritesNumeral (separator : Char) : Numeral → List Char → Prop
  | intro {negative sign whole fraction places exponent power} : WritesSign negative sign →
      WritesPlaces separator whole fraction places → WritesPower exponent power →
      WritesNumeral separator ⟨negative, whole, fraction, exponent⟩ (sign ++ (places ++ power))

section
variable {negative : Bool} {sign ds places power cs rest whole fraction : List Char}
  {exponent : Option Int} {separator : Char} {n : Numeral}

theorem IsDigits.begins (h : IsDigits ds) : ∃ d more, ds = d :: more ∧ isDigit d = true := by
  obtain ⟨d, more, rfl⟩ := List.exists_cons_of_ne_nil h.filled
  exact ⟨d, more, rfl, h.digits d List.mem_cons_self⟩

def Unsigned (cs : List Char) : Prop := ∀ c ∈ cs.head?, c ≠ '+' ∧ c ≠ '-'

theorem unsigned_cons {d : Char} (plus : d ≠ '+') (minus : d ≠ '-') : Unsigned (d :: cs) := by
  intro c first
  cases first
  exact ⟨plus, minus⟩

theorem unsigned_of_isDigit {d : Char} (digit : isDigit d = true) : Unsigned (d :: cs) := by
  refine unsigned_cons ?_ ?_ <;> rintro rfl <;> cases digit

theorem IsDigits.unsigned (h : IsDigits ds) (rest : List Char) : Unsigned (ds ++ rest) := by
  obtain ⟨d, more, rfl, digit⟩ := h.begins
  exact unsigned_of_isDigit digit

theorem WritesPlaces.unsigned (h : WritesPlaces '.' whole fraction places) (rest : List Char) :
    Unsigned (places ++ rest) := by
  cases h with
  | whole digits => exact digits.unsigned rest
  | pointed digits | both digits _ =>
    rw [List.append_assoc]
    exact digits.unsigned _
  | fraction _ => exact unsigned_cons (by decide) (by decide)

theorem splitSign_of_unsigned (h : Unsigned cs) : splitSign cs = (false, cs) := by
  unfold splitSign
  split
  · exact absurd rfl (h _ rfl).2
  · exact absurd rfl (h _ rfl).1
  · rfl

theorem WritesSign.splitSign (h : WritesSign negative sign) (first : Unsigned cs) :
    splitSign (sign ++ cs) = (negative, cs) := by
  cases h with
  | none => exact splitSign_of_unsigned first
  | plus | minus => rfl

theorem exists_of_splitSign (h : splitSign cs = (negative, rest)) :
    ∃ sign, WritesSign negative sign ∧ cs = sign ++ rest := by
  unfold Number.splitSign at h
  split at h <;> cases h
  · exact ⟨['-'], .minus, rfl⟩
  · exact ⟨['+'], .plus, rfl⟩
  · exact ⟨[], .none, rfl⟩

theorem readExponent_append (signed : WritesSign negative sign) (digits : IsDigits ds) :
    readExponent (sign ++ ds) = some (signedPower negative ds) := by
  have first : Unsigned ds := by simpa using digits.unsigned []
  have all : ds.all isDigit = true := List.all_eq_true.mpr digits.digits
  simp [readExponent, signed.splitSign first, digits.filled, all, signedPower]

theorem exists_of_readExponent {e : Int} (h : readExponent cs = some e) :
    ∃ negative sign ds, WritesSign negative sign ∧ IsDigits ds ∧ cs = sign ++ ds ∧
      e = signedPower negative ds := by
  cases split : splitSign cs with
  | mk negative ds =>
    obtain ⟨sign, signed, rfl⟩ := exists_of_splitSign split
    simp only [readExponent, split] at h
    split at h
    · cases h
    · next fits =>
      cases h
      simp only [Bool.or_eq_true, not_or, List.isEmpty_iff, Bool.not_eq_true', Bool.not_eq_false,
        List.all_eq_true] at fits
      exact ⟨negative, sign, ds, signed, ⟨fits.1, fits.2⟩, rfl, rfl⟩

def readPlaces (cs : List Char) : List Char × List Char × List Char :=
  let (fraction, rest) := match cs.dropWhile isDigit with
    | '.' :: r => (r.takeWhile isDigit, r.dropWhile isDigit)
    | r => ([], r)
  (cs.takeWhile isDigit, fraction, rest)

/-- The numeral of which all but the exponent is read, if the rest of the text is one or empty. -/
def readPower (negative : Bool) (whole fraction : List Char) : List Char → Option Numeral
  | [] => some ⟨negative, whole, fraction, none⟩
  | c :: r =>
    if c == 'e' || c == 'E' then
      (readExponent r).map fun e => ⟨negative, whole, fraction, some e⟩
    else none

theorem readNumeral_eq (cs : List Char) : readNumeral cs =
    let (negative, ds) := splitSign cs
    let (whole, fraction, rest) := readPlaces ds
    if whole.isEmpty && fraction.isEmpty then none
    else readPower negative whole fraction rest := rfl

def EndsPlaces (rest : List Char) : Prop := ∀ c ∈ rest.head?, isDigit c = false ∧ c ≠ '.'

theorem WritesPower.ends (h : WritesPower exponent power) : EndsPlaces power := by
  cases h with
  | none => exact fun c first => nomatch first
  | raised mark _ _ =>
    intro c first
    cases first
    rcases mark with rfl | rfl <;> exact ⟨rfl, by decide⟩

theorem readPlaces_of_ends (digits : IsDigits ds) (ends : EndsPlaces rest) :
    readPlaces (ds ++ rest) = (ds, [], rest) := by
  obtain ⟨taken, left⟩ := split_digits digits.digits fun c first => (ends c first).1
  unfold readPlaces
  rw [taken, left]
  cases rest with
  | nil => rfl
  | cons c rest =>
    have point : c ≠ '.' := (ends c rfl).2
    split
    · next r split =>
      split at split
      · next same => exact absurd (List.cons.inj same).1 point
      · cases split
        rfl

theorem readPlaces_pointed (digits : ∀ c ∈ ds, isDigit c = true) {fs : List Char}
    (fraction : ∀ c ∈ fs, isDigit c = true) (ends : EndsPlaces rest) :
    readPlaces (ds ++ '.' :: (fs ++ rest)) = (ds, fs, rest) := by
  have point : ∀ c ∈ ('.' :: (fs ++ rest)).head?, isDigit c = false := by
    intro c first
    cases first
    rfl
  obtain ⟨taken, left⟩ := split_digits digits point
  obtain ⟨taken', left'⟩ := split_digits fraction fun c first => (ends c first).1
  simp only [readPlaces, taken, left, taken', left']

theorem WritesPlaces.readPlaces (h : WritesPlaces '.' whole fraction places)
    (ends : EndsPlaces rest) : readPlaces (places ++ rest) = (whole, fraction, rest) := by
  cases h with
  | whole digits => exact readPlaces_of_ends digits ends
  | pointed digits =>
    rw [List.append_assoc, List.singleton_append, ← List.nil_append rest]
    exact readPlaces_pointed digits.digits (by simp) ends
  | both digits digits' =>
    rw [List.append_assoc, List.cons_append]
    exact readPlaces_pointed digits.digits digits'.digits ends
  | fraction digits =>
    rw [← List.nil_append ('.' :: fraction), List.append_assoc]
    exact readPlaces_pointed (by simp) digits.digits ends

theorem isDigits_takeWhile (filled : cs.takeWhile isDigit ≠ []) : IsDigits (cs.takeWhile isDigit) :=
  ⟨filled, fun _ mem => List.mem_takeWhile_imp mem⟩

theorem WritesPlaces.filled (h : WritesPlaces separator whole fraction places) :
    ¬(whole.isEmpty && fraction.isEmpty) = true := by
  cases h with
  | whole digits | pointed digits | both digits _ | fraction digits => simp [digits.filled]

theorem exists_of_readPlaces (h : readPlaces cs = (whole, fraction, rest))
    (filled : ¬(whole.isEmpty && fraction.isEmpty) = true) :
    ∃ places, WritesPlaces '.' whole fraction places ∧ cs = places ++ rest := by
  have split := cs.takeWhile_append_dropWhile (p := isDigit)
  simp only [Bool.and_eq_true, List.isEmpty_iff, not_and_or] at filled
  unfold readPlaces at h
  split at h
  next parts here =>
  cases h
  split at here
  · next r left =>
    cases here
    have split' := r.takeWhile_append_dropWhile (p := isDigit)
    by_cases behind : r.takeWhile isDigit = []
    · have front := filled.resolve_right (not_not.mpr behind)
      rw [behind, List.nil_append] at split'
      rw [behind]
      refine ⟨_, .pointed (isDigits_takeWhile front), ?_⟩
      rw [List.append_assoc, List.singleton_append, split', ← left, split]
    · by_cases front : cs.takeWhile isDigit = []
      · rw [front, List.nil_append] at split
        rw [front]
        refine ⟨_, .fraction (isDigits_takeWhile behind), ?_⟩
        rw [List.cons_append, split', ← left, split]
      · refine ⟨_, .both (isDigits_takeWhile front) (isDigits_takeWhile behind), ?_⟩
        rw [List.append_assoc, List.cons_append, split', ← left, split]
  · cases here
    exact ⟨_, .whole (isDigits_takeWhile (filled.resolve_right (by simp))), split.symm⟩

theorem readPower_eq_some_iff : readPower negative whole fraction rest = some n ↔
    ∃ exponent, WritesPower exponent rest ∧ n = ⟨negative, whole, fraction, exponent⟩ := by
  constructor
  · intro h
    cases rest with
    | nil =>
      cases h
      exact ⟨none, .none, rfl⟩
    | cons c rest =>
      by_cases mark : (c == 'e' || c == 'E') = true
      · rw [readPower, if_pos mark] at h
        obtain ⟨e, read, rfl⟩ := Option.map_eq_some_iff.mp h
        obtain ⟨_, sign, ds, signed, digits, rfl, rfl⟩ := exists_of_readExponent read
        exact ⟨_, .raised (by simpa using mark) signed digits, rfl⟩
      · rw [readPower, if_neg mark] at h
        cases h
  · rintro ⟨exponent, written, rfl⟩
    cases written with
    | none => rfl
    | @raised c _ _ _ mark signed digits =>
      have marked : (c == 'e' || c == 'E') = true := by simpa using mark
      rw [readPower, if_pos marked, readExponent_append signed digits]
      rfl

/-- The reader takes what is a number with a point, and nothing else. -/
theorem readNumeral_eq_some_iff : readNumeral cs = some n ↔ WritesNumeral '.' n cs := by
  rw [readNumeral_eq]
  constructor
  · intro h
    cases signed : splitSign cs with
    | mk negative ds =>
      obtain ⟨sign, written, rfl⟩ := exists_of_splitSign signed
      cases read : readPlaces ds with
      | mk whole parts =>
        obtain ⟨fraction, rest⟩ := parts
        simp only [signed, read] at h
        split at h
        · cases h
        · next filled =>
          obtain ⟨places, digits, rfl⟩ := exists_of_readPlaces read filled
          obtain ⟨exponent, power, rfl⟩ := readPower_eq_some_iff.mp h
          exact .intro written digits power
  · rintro ⟨written, digits, raised⟩
    simp only [written.splitSign (digits.unsigned _), digits.readPlaces raised.ends,
      if_neg digits.filled]
    exact readPower_eq_some_iff.mpr ⟨_, raised, rfl⟩

end

def IsSeparator (c : Char) : Prop := c = '.' ∨ c = ','

instance : DecidablePred IsSeparator := fun c => inferInstanceAs (Decidable (c = '.' ∨ c = ','))

section
variable {negative : Bool} {cs ds sign places power whole fraction : List Char}
  {exponent : Option Int} {separator c : Char} {n : Numeral}

def Undivided (cs : List Char) : Prop := ∀ c ∈ cs, ¬IsSeparator c

theorem undivided_append {xs ys : List Char} : Undivided (xs ++ ys) ↔ Undivided xs ∧ Undivided ys :=
  List.forall_mem_append

theorem IsDigits.undivided (h : IsDigits ds) : Undivided ds := by
  rintro c mem (rfl | rfl) <;> cases h.digits _ mem

theorem WritesSign.undivided (h : WritesSign negative sign) : Undivided sign := by
  cases h <;> simp [Undivided, IsSeparator]

theorem WritesPower.undivided (h : WritesPower exponent power) : Undivided power := by
  cases h with
  | none => simp [Undivided]
  | raised mark signed digits =>
    refine List.forall_mem_cons.mpr ⟨?_, undivided_append.mpr ⟨signed.undivided, digits.undivided⟩⟩
    rcases mark with rfl | rfl <;> simp [IsSeparator]

theorem WritesNumeral.parts (h : WritesNumeral separator n cs) :
    (Undivided cs ∧ ∀ other, WritesNumeral other n cs) ∨
    ∃ front back, cs = front ++ separator :: back ∧ Undivided front ∧ Undivided back ∧
      ∀ other, WritesNumeral other n (front ++ other :: back) := by
  cases h with
  | @intro negative sign whole fraction places exponent power signed digits raised =>
    have front := signed.undivided
    have back := raised.undivided
    cases digits with
    | whole digits =>
      exact .inl ⟨undivided_append.mpr ⟨front, undivided_append.mpr ⟨digits.undivided, back⟩⟩,
        fun other => .intro signed (.whole digits) raised⟩
    | pointed digits =>
      refine .inr ⟨sign ++ whole, power, by simp,
        undivided_append.mpr ⟨front, digits.undivided⟩, back, fun other => ?_⟩
      have places : WritesPlaces other whole [] _ := .pointed digits
      simpa using WritesNumeral.intro signed places raised
    | both digits digits' =>
      refine .inr ⟨sign ++ whole, fraction ++ power, by simp,
        undivided_append.mpr ⟨front, digits.undivided⟩,
        undivided_append.mpr ⟨digits'.undivided, back⟩, fun other => ?_⟩
      have places : WritesPlaces other whole fraction _ := .both digits digits'
      simpa using WritesNumeral.intro signed places raised
    | fraction digits =>
      refine .inr ⟨sign, fraction ++ power, rfl, front,
        undivided_append.mpr ⟨digits.undivided, back⟩, fun other => ?_⟩
      have places : WritesPlaces other [] fraction _ := .fraction digits
      exact .intro signed places raised

def OfNumber (c : Char) : Prop :=
  isDigit c = true ∨ c ∈ ['+', '-', 'e', 'E'] ∨ IsSeparator c

theorem WritesNumeral.ofNumber (h : WritesNumeral separator n cs) (mark : IsSeparator separator) :
    ∀ c ∈ cs, OfNumber c := by
  have ofDigits {ds : List Char} (h : IsDigits ds) : ∀ c ∈ ds, OfNumber c :=
    fun c mem => .inl (h.digits c mem)
  have ofSign {negative : Bool} {sign : List Char} (h : WritesSign negative sign) :
      ∀ c ∈ sign, OfNumber c := by
    cases h <;> simp [OfNumber]
  have ofMark : OfNumber separator := .inr (.inr mark)
  obtain ⟨signed, digits, raised⟩ := h
  refine List.forall_mem_append.mpr ⟨ofSign signed, List.forall_mem_append.mpr ⟨?_, ?_⟩⟩
  · cases digits with
    | whole digits => exact ofDigits digits
    | pointed digits =>
      exact List.forall_mem_append.mpr ⟨ofDigits digits, List.forall_mem_singleton.mpr ofMark⟩
    | both digits digits' =>
      exact List.forall_mem_append.mpr ⟨ofDigits digits,
        List.forall_mem_cons.mpr ⟨ofMark, ofDigits digits'⟩⟩
    | fraction digits => exact List.forall_mem_cons.mpr ⟨ofMark, ofDigits digits⟩
  · cases raised with
    | none => simp
    | raised mark signed digits =>
      refine List.forall_mem_cons.mpr
        ⟨?_, List.forall_mem_append.mpr ⟨ofSign signed, ofDigits digits⟩⟩
      rcases mark with rfl | rfl <;> simp [OfNumber]

end

theorem isFinite_of_readWord {cs : List Char} {v : Float} (h : readWord cs = some v) :
    v.isFinite = false := by
  unfold readWord at h
  split at h
  next negative word _ =>
  split at h
  · cases negative <;> cases h <;> decide
  · cases negative <;> cases h <;> decide
  · cases h
    decide
  · cases h

theorem finite_ofText_iff {s : String} {v : Float} : (ofText s).filter Float.isFinite = some v ↔
    ∃ n, WritesNumeral '.' n s.toList ∧ n.toFloat.isFinite = true ∧ v = n.toFloat := by
  unfold ofText
  cases read : readNumeral s.toList with
  | some n =>
    have written := readNumeral_eq_some_iff.mp read
    rw [Option.filter_eq_some_iff]
    constructor
    · rintro ⟨same, finite⟩
      cases same
      exact ⟨n, written, finite, rfl⟩
    · rintro ⟨n', written', finite, rfl⟩
      cases read.symm.trans (readNumeral_eq_some_iff.mpr written')
      exact ⟨rfl, finite⟩
  | none =>
    constructor
    · intro h
      obtain ⟨word, finite⟩ := Option.filter_eq_some_iff.mp h
      cases (isFinite_of_readWord word).symm.trans finite
    · rintro ⟨n, written, _⟩
      cases read.symm.trans (readNumeral_eq_some_iff.mpr written)

end BuildingCode.Number

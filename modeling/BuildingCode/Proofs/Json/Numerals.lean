import BuildingCode.Proofs.Json.Reading
import BuildingCode.Proofs.Number.Layout

/-! Numerals in documents. One that is laid out regularly is scanned as it was written, so floats and
whole numbers leave nothing in a document that could not be read. -/
namespace BuildingCode.Json
open Number Text

def NoDigit (rest : List Char) : Prop := ∀ c ∈ rest.head?, isDigit c = false

section
variable {rest : List Char}

theorem noDigit_cons {c : Char} (other : isDigit c = false) : NoDigit (c :: rest) := by
  intro d next
  cases next
  exact other

theorem Ends.noDigit (ends : Ends rest) : NoDigit rest := by
  intro c next
  rcases ends c next with rfl | rfl | rfl <;> rfl

theorem scanDigits_append {ds : List Char} (filled : ds ≠ []) (digits : ∀ c ∈ ds, isDigit c = true)
    (stop : NoDigit rest) : scanDigits (ds ++ rest) = some (ds, rest) := by
  obtain ⟨taken, left⟩ := split_digits digits stop
  unfold scanDigits
  rw [taken, left]
  simp [filled]

def pointed (fraction : List Char) : List Char :=
  if fraction.isEmpty then [] else '.' :: fraction

def raised (exponent : Option Int) : List Char := exponent.elim [] exponentText

theorem noDigit_raised (exponent : Option Int) (ends : Ends rest) :
    NoDigit (raised exponent ++ rest) := by
  cases exponent with
  | none => exact ends.noDigit
  | some e => exact noDigit_cons rfl

theorem head_raised_ne (exponent : Option Int) (ends : Ends rest) :
    ∀ cs, raised exponent ++ rest ≠ '.' :: cs := by
  intro cs same
  cases exponent with
  | none =>
    change rest = '.' :: cs at same
    rw [same] at ends
    rcases ends '.' rfl with other | other | other <;> cases other
  | some e => cases same

theorem splitSign_sign (e : Int) (cs : List Char) :
    splitSign ((if e < 0 then '-' else '+') :: cs) = (decide (e < 0), cs) := by
  by_cases negative : e < 0
  · rw [if_pos negative, decide_eq_true negative]
    rfl
  · rw [if_neg negative, decide_eq_false negative]
    rfl

theorem scanExponent_raised (exponent : Option Int) (ends : Ends rest) :
    scanExponent (raised exponent ++ rest) = some (exponent, (raised exponent).length) := by
  cases exponent with
  | none =>
    change scanExponent rest = some (none, 0)
    cases rest with
    | nil => rfl
    | cons c cs => rcases ends c rfl with rfl | rfl | rfl <;> rfl
  | some e =>
    have digits := scanDigits_append (digitsOf_ne_nil e.natAbs)
      (fun _ => isDigit_of_mem_digitsOf) ends.noDigit
    have value : (if decide (e < 0) = true then -(e.natAbs : Int) else (e.natAbs : Int)) = e := by
      simp only [decide_eq_true_eq]
      split <;> omega
    change scanExponent ('e' :: (if e < 0 then '-' else '+') :: (digitsOf e.natAbs ++ rest)) = _
    simp only [scanExponent, splitSign_sign, digits, digitsValue_digitsOf, value, beq_self_eq_true,
      Bool.true_or, if_true, List.length_cons, List.length_append, raised, exponentText,
      Option.elim_some]
    congr 2
    omega

theorem scanFraction_pointed {fraction : List Char} (digits : ∀ c ∈ fraction, isDigit c = true)
    (stop : NoDigit rest) (point : ∀ cs, rest ≠ '.' :: cs) :
    scanFraction (pointed fraction ++ rest) = some (fraction, rest) := by
  cases fraction with
  | nil =>
    change scanFraction rest = some ([], rest)
    unfold scanFraction
    split
    · next cs => exact absurd rfl (point cs)
    · rfl
  | cons c cs => exact scanDigits_append (by simp) digits stop

end

section
variable {n : Numeral} {rest : List Char}

theorem scanWhole_append (regular : n.Regular) (stop : NoDigit rest) :
    scanWhole (n.whole ++ rest) = some (n.whole, rest) := by
  obtain ⟨c, cs, first⟩ := List.exists_cons_of_ne_nil regular.filled
  by_cases zero : c = '0'
  · have alone : n.whole = ['0'] := regular.leading (by rw [first, zero]; rfl)
    have ended : (rest.head?.map isDigit).getD false = false := by
      cases rest with
      | nil => rfl
      | cons d ds => exact stop d rfl
    rw [alone]
    change (if (rest.head?.map isDigit).getD false then none else some (['0'], rest)) = _
    rw [ended]
    rfl
  · have scanned := scanDigits_append regular.filled regular.whole stop
    rw [first] at scanned ⊢
    unfold scanWhole
    split
    · next same =>
      cases same
      exact absurd rfl zero
    · exact scanned

theorem chars_eq (n : Numeral) : n.chars =
    (if n.negative then ['-'] else []) ++ (n.whole ++ (pointed n.fraction ++ raised n.exponent)) := by
  simp only [Numeral.chars, pointed, raised, List.append_assoc]

theorem scanUnsigned_append (regular : n.Regular) (ends : Ends rest) :
    scanUnsigned n.negative ((n.whole ++ (pointed n.fraction ++ raised n.exponent)) ++ rest) =
      some (n, (n.whole ++ (pointed n.fraction ++ raised n.exponent)).length) := by
  have after : NoDigit (pointed n.fraction ++ (raised n.exponent ++ rest)) := by
    unfold pointed
    split
    · exact noDigit_raised _ ends
    · exact noDigit_cons rfl
  have width : (if n.fraction.isEmpty then 0 else n.fraction.length + 1) =
      (pointed n.fraction).length := by
    unfold pointed
    split <;> rfl
  have whole := scanWhole_append regular after
  have fraction := scanFraction_pointed regular.fraction (noDigit_raised n.exponent ends)
    (head_raised_ne n.exponent ends)
  have exponent := scanExponent_raised n.exponent ends
  rw [List.append_assoc, List.append_assoc]
  simp only [scanUnsigned, whole, fraction, exponent, width, Option.bind_eq_bind, Option.bind_some,
    List.length_append, Nat.add_assoc]
  rfl

theorem scanToken_of_isDigit {c : Char} {cs : List Char} (digit : isDigit c = true) :
    scanToken c cs = (scanUnsigned false (c :: cs)).map fun (n, width) => (.number n, width - 1) := by
  unfold scanToken
  split <;> first | cases digit | rw [if_pos digit]

theorem isGap_of_isDigit {c : Char} (digit : isDigit c = true) : isGap c = false := by
  by_contra gap
  have gap : isGap c = true := by simpa using gap
  simp only [isGap, Bool.or_eq_true, beq_iff_eq] at gap
  rcases gap with ((rfl | rfl) | rfl) | rfl <;> cases digit

theorem isScanned_of_regular (regular : n.Regular) : IsScanned n := by
  intro rest ends
  have scanned := scanUnsigned_append regular ends
  rw [chars_eq]
  generalize written : n.whole ++ (pointed n.fraction ++ raised n.exponent) = cs at scanned ⊢
  cases sign : n.negative with
  | true =>
    rw [sign] at scanned
    have token : scanToken '-' (cs ++ rest) = some (.number n, cs.length) := by
      change (scanUnsigned true (cs ++ rest)).map _ = _
      rw [scanned]
      rfl
    change scan 0 ('-' :: (cs ++ rest)) = _
    rw [scan, if_neg (by decide), token]
    dsimp only
    rw [scan_passing]
  | false =>
    rw [sign] at scanned
    obtain ⟨c, ds, first⟩ := List.exists_cons_of_ne_nil regular.filled
    obtain ⟨tail, rfl⟩ : ∃ tail, cs = c :: tail := ⟨_, by rw [← written, first]; rfl⟩
    have digit : isDigit c = true := regular.whole c (by rw [first]; exact List.mem_cons_self)
    have token : scanToken c (tail ++ rest) = some (.number n, tail.length) := by
      rw [scanToken_of_isDigit digit, ← List.cons_append, scanned]
      rfl
    change scan 0 (c :: (tail ++ rest)) = _
    rw [scan, if_neg (by rw [isGap_of_isDigit digit]; decide), token]
    dsimp only
    rw [scan_passing]

end

@[simp] theorem legible_ofFloat (x : Float) : (ofFloat x).Legible := by
  unfold ofFloat
  split
  · exact isScanned_of_regular (Layout.regular_numeral _ _)
  · trivial

@[simp] theorem legible_ofNat (n : Nat) : (ofNat n).Legible :=
  isScanned_of_regular (Numeral.regular_ofNat n)

@[simp] theorem asWord_ofNat (n : UInt32) : asWord (ofNat n.toNat) = some n := by
  have small : n.toNat < UInt32.size := n.toNat_lt_size
  simp [asWord, ofNat, asNat, Numeral.ofNat, small]

end BuildingCode.Json

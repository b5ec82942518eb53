import BuildingCode.Text.Space
import Mathlib.Data.List.Basic
import Mathlib.Data.List.Induction

/-! A whole number and its digits. Printed digits read back as the number, and digits without a leading
zero are the ones that the number is printed with. -/
namespace BuildingCode.Text

theorem isDigit_iff {c : Char} : isDigit c = true ↔ '0'.toNat ≤ c.toNat ∧ c.toNat ≤ '9'.toNat := by
  simp [isDigit, Char.le_def, UInt32.le_iff_toNat_le]

@[simp] theorem digitsValue_digitsOf (n : Nat) : digitsValue (digitsOf n) = n :=
  Nat.ofDigitChars_ten_toDigits

theorem digitsOf_ne_nil (n : Nat) : digitsOf n ≠ [] := Nat.toDigits_ne_nil

theorem isDigit_of_mem_digitsOf {n : Nat} {c : Char} (mem : c ∈ digitsOf n) : isDigit c = true :=
  Nat.isDigit_of_mem_toDigits (by decide) (by decide) mem

theorem digitsOf_of_lt {n : Nat} (small : n < 10) : digitsOf n = [n.digitChar] :=
  Nat.toDigits_of_lt_base small

theorem digitsOf_append {n d : Nat} (positive : 0 < n) (small : d < 10) :
    digitsOf (10 * n + d) = digitsOf n ++ [d.digitChar] := by
  unfold digitsOf
  rw [← Nat.toDigits_append_toDigits (by decide) positive small, Nat.toDigits_of_lt_base small]

theorem digitValue_lt {c : Char} (digit : isDigit c = true) : digitValue c < 10 := by
  obtain ⟨low, high⟩ := isDigit_iff.mp digit
  have bound : '9'.toNat = '0'.toNat + 9 := rfl
  unfold digitValue
  omega

theorem digitChar_digitValue {c : Char} (digit : isDigit c = true) : (digitValue c).digitChar = c := by
  have low := (isDigit_iff.mp digit).1
  apply Char.toNat_inj.mp
  rw [Nat.toNat_digitChar_of_lt_ten (digitValue_lt digit)]
  exact Nat.add_sub_cancel' low

theorem digitsValue_concat (cs : List Char) (c : Char) :
    digitsValue (cs ++ [c]) = 10 * digitsValue cs + digitValue c := by
  unfold digitsValue
  rw [List.foldl_append]
  rfl

theorem digitValue_pos {c : Char} (digit : isDigit c = true) (leading : c ≠ '0') :
    0 < digitValue c := by
  have low := (isDigit_iff.mp digit).1
  have apart : c.toNat ≠ '0'.toNat := fun same => leading (Char.toNat_inj.mp same)
  unfold digitValue
  omega

theorem digitsOf_digitsValue_of_leading {c : Char} {cs : List Char} (leading : c ≠ '0')
    (digits : ∀ d ∈ c :: cs, isDigit d = true) :
    0 < digitsValue (c :: cs) ∧ digitsOf (digitsValue (c :: cs)) = c :: cs := by
  induction cs using List.reverseRecOn with
  | nil =>
    have digit := digits c List.mem_cons_self
    have value : digitsValue [c] = digitValue c := by simp [digitsValue]
    rw [value, digitsOf_of_lt (digitValue_lt digit), digitChar_digitValue digit]
    exact ⟨digitValue_pos digit leading, rfl⟩
  | append_singleton cs d ih =>
    have digit := digits d (by simp)
    obtain ⟨positive, front⟩ := ih fun e mem => digits e (List.mem_append_left [d] mem)
    rw [← List.cons_append, digitsValue_concat,
      digitsOf_append positive (digitValue_lt digit), front, digitChar_digitValue digit]
    exact ⟨by omega, rfl⟩

theorem head?_digitsOf_ne {n : Nat} (positive : 0 < n) : (digitsOf n).head? ≠ some '0' := by
  induction n using Nat.strongRecOn with
  | ind n ih =>
    by_cases small : n < 10
    · rw [digitsOf_of_lt small]
      intro zero
      have same := congrArg Char.toNat (Option.some.inj zero)
      rw [Nat.toNat_digitChar_of_lt_ten small] at same
      change 48 + n = 48 at same
      omega
    · have split : n = 10 * (n / 10) + n % 10 := by omega
      rw [split, digitsOf_append (by omega) (Nat.mod_lt n (by decide)),
        List.head?_append_of_ne_nil _ (digitsOf_ne_nil _)]
      exact ih (n / 10) (by omega) (by omega)

theorem split_digits {ds rest : List Char} (digits : ∀ c ∈ ds, isDigit c = true)
    (stop : ∀ c ∈ rest.head?, isDigit c = false) :
    (ds ++ rest).takeWhile isDigit = ds ∧ (ds ++ rest).dropWhile isDigit = rest := by
  rw [List.takeWhile_append_of_pos digits, List.dropWhile_append_of_pos digits]
  cases rest with
  | nil => simp
  | cons c rest => simp [stop c rfl]

end BuildingCode.Text

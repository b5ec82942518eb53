import BuildingCode.Number.Layout
import BuildingCode.Proofs.Text.Digits

/-! Numerals as they are laid out. The shortest digits of a number other than zero do not begin with a
zero, and wherever a layout puts the point, it leaves digits on its left and no needless zero in front
of them. -/
namespace BuildingCode.Number
open Text

section
variable {b : Binary} {d : Decimal} {tie : Tie} {k : Int}

theorem digits_pos_of_readsBack (positive : 0 < b.mantissa) (back : b.readsBack d = true) :
    0 < d.digits := by
  by_contra zero
  obtain ⟨digits, e⟩ := d
  obtain rfl : digits = 0 := Nat.eq_zero_of_not_pos zero
  have narrow : b.gapBelow ≤ 2 := by
    unfold Binary.gapBelow
    split <;> omega
  have below : compareScaled 0 e (4 * b.mantissa - b.gapBelow) (b.exponent - 2) = .lt := by
    unfold compareScaled
    rw [Nat.zero_mul, Nat.zero_mul, Nat.compare_eq_lt]
    exact Nat.mul_pos (Nat.mul_pos (by omega) (Nat.pow_pos (by decide))) (Nat.pow_pos (by decide))
  unfold Binary.readsBack at back
  rw [below] at back
  simp at back

theorem readsBack_of_chooseAt (chosen : b.chooseAt tie k = some d) : b.readsBack d = true := by
  unfold Binary.chooseAt at chosen
  dsimp only at chosen
  cases low : b.readsBack ⟨b.floorAt k, k⟩ <;> cases high : b.readsBack ⟨b.floorAt k + 1, k⟩ <;>
    rw [low, high] at chosen
  · cases chosen
  · cases chosen
    exact high
  · cases chosen
    exact low
  · -- Both read back, so the tie may be broken either way.
    dsimp only at chosen
    split at chosen
    · cases chosen
      exact low
    · cases chosen
      exact high
    · cases chosen
      exact high
    · cases chosen
      split
      · exact low
      · exact high

theorem Decimal.digits_pos_stripZeros {steps : Nat} (positive : 0 < d.digits) :
    0 < (d.stripZeros steps).digits := by
  induction steps generalizing d with
  | zero => exact positive
  | succ steps ih =>
    rw [stripZeros]
    split
    · next tens =>
      rw [Bool.and_eq_true, beq_iff_eq] at tens
      exact ih (Nat.div_pos (Nat.le_of_dvd positive (Nat.dvd_of_mod_eq_zero tens.1)) (by decide))
    · exact positive

theorem Binary.digits_pos_shortest (positive : 0 < b.mantissa) : 0 < (b.shortest tie).digits := by
  unfold shortest
  rw [if_neg (by omega)]
  apply Decimal.digits_pos_stripZeros
  cases found : (List.range 17).findSome? fun (n : Nat) => b.chooseAt tie (b.scale - 1 - n) with
  | none => exact Nat.mul_pos (Nat.mul_pos positive (Nat.pow_pos (by decide))) (Nat.pow_pos (by decide))
  | some d =>
    obtain ⟨n, _, chosen⟩ := List.exists_of_findSome?_eq_some found
    exact digits_pos_of_readsBack positive (readsBack_of_chooseAt chosen)

/-- Zero is laid out from the digit zero. -/
theorem Binary.shortest_cases (b : Binary) (tie : Tie) :
    b.shortest tie = ⟨0, 0⟩ ∨ 0 < (b.shortest tie).digits := by
  rcases Nat.eq_zero_or_pos b.mantissa with zero | positive
  · left
    unfold shortest
    rw [if_pos zero]
  · exact .inr (digits_pos_shortest positive)

end

/-- Digits on both sides of the point, none of them missing on its left and no zero in front. -/
structure Numeral.Regular (n : Numeral) : Prop where
  filled : n.whole ≠ []
  whole : ∀ c ∈ n.whole, isDigit c = true
  leading : n.whole.head? = some '0' → n.whole = ['0']
  fraction : ∀ c ∈ n.fraction, isDigit c = true

theorem isDigit_of_mem_zeros {n : Nat} {c : Char} (mem : c ∈ zeros n) : isDigit c = true := by
  obtain rfl := (List.mem_replicate.mp mem).2
  rfl

theorem head?_digitsOf_zero {n : Nat} (h : (digitsOf n).head? = some '0') : digitsOf n = ['0'] := by
  rcases Nat.eq_zero_or_pos n with rfl | positive
  · rfl
  · exact absurd h (head?_digitsOf_ne positive)

theorem Numeral.regular_ofNat (n : Nat) : (ofNat n).Regular where
  filled := digitsOf_ne_nil n
  whole _ := isDigit_of_mem_digitsOf
  leading := head?_digitsOf_zero
  fraction := by simp [ofNat]

theorem regular_take_drop {n k : Nat} (kept : 0 < k) (negative : Bool) (exponent : Option Int) :
    Numeral.Regular ⟨negative, (digitsOf n).take k, (digitsOf n).drop k, exponent⟩ where
  filled := by
    rw [ne_eq, List.take_eq_nil_iff, not_or]
    exact ⟨Nat.ne_of_gt kept, digitsOf_ne_nil n⟩
  whole c mem := isDigit_of_mem_digitsOf (List.mem_of_mem_take mem)
  leading zero := by
    rw [List.head?_take, if_neg (Nat.ne_of_gt kept)] at zero
    rw [head?_digitsOf_zero zero]
    exact List.take_of_length_le kept
  fraction c mem := isDigit_of_mem_digitsOf (List.mem_of_mem_drop mem)

theorem regular_withoutExponent {n : Nat} {e : Int} (negative pointZero : Bool)
    (scaled : n = 0 → e = 0) : (withoutExponent negative pointZero (digitsOf n) e).Regular := by
  have digits : ∀ c ∈ digitsOf n, isDigit c = true := fun _ => isDigit_of_mem_digitsOf
  unfold withoutExponent
  dsimp only
  -- The point stands behind all digits, between them, or in front of them.
  split
  · refine ⟨List.append_ne_nil_of_left_ne_nil (digitsOf_ne_nil n) _, ?_, ?_, ?_⟩
    · rw [List.forall_mem_append]
      exact ⟨digits, fun _ => isDigit_of_mem_zeros⟩
    · intro zero
      rw [List.head?_append_of_ne_nil _ (digitsOf_ne_nil n)] at zero
      have none : n = 0 := by
        by_contra some
        exact head?_digitsOf_ne (Nat.pos_of_ne_zero some) zero
      rw [none, scaled none]
      rfl
    · cases pointZero with
      | false => exact List.forall_mem_nil _
      | true => exact List.forall_mem_singleton.mpr rfl
  · split
    · exact regular_take_drop (by omega) negative none
    · refine ⟨List.cons_ne_nil _ _, List.forall_mem_singleton.mpr rfl, fun _ => rfl, ?_⟩
      rw [List.forall_mem_append]
      exact ⟨fun _ => isDigit_of_mem_zeros, digits⟩

theorem regular_withExponent {n : Nat} {e : Int} (negative : Bool) :
    (withExponent negative (digitsOf n) e).Regular :=
  regular_take_drop (by decide) negative _

theorem Layout.regular_numeral (l : Layout) (x : Float) : (l.numeral x).Regular := by
  unfold numeral
  refine iteInduction (fun _ => regular_withoutExponent _ _ fun zero => ?_)
    fun _ => regular_withExponent _
  rcases (Binary.ofFloat x).shortest_cases l.tie with same | positive
  · rw [same]
  · omega

end BuildingCode.Number

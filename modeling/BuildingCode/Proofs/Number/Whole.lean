import BuildingCode.Number.Whole
import BuildingCode.Proofs.Number.Arithmetic
import Mathlib.Algebra.Order.Floor.Semiring
import Mathlib.Data.Rat.Floor

/-! Rounding to the nearest whole number is exact: the magnitude becomes the whole number below the
magnitude and a half, halves going up, and the sign is kept. -/
namespace BuildingCode.Number
open Float.Model Float.Model.UnpackedFloat

theorem ofBits_eq_packed {k shift bits : ℕ} {minus : Bool} (full : 2 ^ 52 ≤ k) (fits : k < 2 ^ 53)
    (near : shift ≤ 52)
    (fields : bits = (if minus then 2 ^ 63 else 0) + (1075 - shift) * 2 ^ 52 + (k - 2 ^ 52)) :
    Float.ofBits (UInt64.ofNat bits) = packed (unpacked (signOf minus) k (-shift)) := by
  have size : bits < 2 ^ 64 := by
    rw [fields]
    split <;> omega
  have mantissa : 2 ^ 52 + (k - 2 ^ 52) = k := by omega
  have exponent : ((1075 - shift : ℕ) - 1075 : ℤ) = -shift := by omega
  change packed (UnpackedFloat.unpack .binary64 _) = _
  rw [unpack_of_bits (by omega) (by omega) ((UInt64.toNat_ofNat_of_lt' size).trans fields),
    if_neg (by omega), if_neg (by omega), mantissa, exponent]

theorem exists_toFloat_whole {n : ℕ} (short : n ≤ 2 ^ 52) (minus : Bool) :
    ∃ k e, Canonical k e ∧ e ≤ 971 ∧ (k * 2 ^ e : ℚ) = n ∧
      Binary.toFloat ⟨minus, n, 0⟩ false = packed (unpacked (signOf minus) k e) := by
  by_cases none : n = 0
  · subst none
    refine ⟨0, -1074, ⟨by norm_num, le_rfl, .inr rfl⟩, by norm_num, by norm_num, ?_⟩
    cases minus <;> decide
  · have length : n.log2 ≤ 52 := Nat.lt_succ_iff.mp ((Nat.log2_lt none).mpr (by omega))
    obtain ⟨shift, sum⟩ : ∃ shift, n.log2 + shift = 52 := ⟨52 - n.log2, by omega⟩
    have full : 2 ^ 52 ≤ n * 2 ^ shift := by
      rw [← sum, pow_add]
      exact Nat.mul_le_mul_right _ (Nat.log2_self_le none)
    have fits : n * 2 ^ shift < 2 ^ 53 := by
      calc n * 2 ^ shift < 2 ^ (n.log2 + 1) * 2 ^ shift :=
            Nat.mul_lt_mul_of_pos_right Nat.lt_log2_self (pow_pos two_pos shift)
        _ = 2 ^ 53 := by rw [← pow_add, Nat.add_right_comm, sum]
    refine ⟨n * 2 ^ shift, -shift, ⟨fits, by omega, .inl full⟩, by omega, ?_, ?_⟩
    · rw [zpow_neg, zpow_natCast]
      push_cast
      exact mul_inv_cancel_right₀ (pow_ne_zero shift two_ne_zero) _
    · have exponent : max ((0 : ℤ) + n.log2 - 52) (-1074) = -shift := by omega
      have biased : (-shift + 1075 : ℤ).toNat = 1075 - shift := by omega
      have amount : (0 - -shift : ℤ).toNat = shift := by omega
      have low : (-shift : ℤ) ≤ 0 := by omega
      unfold Binary.toFloat
      simp only [Nat.pow_eq, if_neg none, exponent, biased, amount, if_pos low, if_neg (not_lt.mpr full)]
      refine ofBits_eq_packed full fits (by omega) ?_
      rw [min_eq_left (by omega), Nat.add_assoc]

theorem floor_div_add_half (m : ℕ) {d : ℕ} (pos : 0 < d) :
    ⌊(m / d : ℚ) + 1 / 2⌋₊ = if d ≤ 2 * (m % d) then m / d + 1 else m / d := by
  have scale : (0 : ℚ) < d := by exact_mod_cast pos
  have below : (m % d : ℕ) / (d : ℚ) < 1 :=
    (div_lt_one₀ scale).mpr (by exact_mod_cast Nat.mod_lt m pos)
  have half : 1 / 2 ≤ (m % d : ℕ) / (d : ℚ) ↔ d ≤ 2 * (m % d) := by
    rw [div_le_div_iff₀ two_pos scale, one_mul, mul_comm]
    exact_mod_cast Iff.rfl
  have least : 0 ≤ (m % d : ℕ) / (d : ℚ) := by positivity
  rw [Nat.floor_eq_iff (by positivity), div_eq_whole_add pos]
  split_ifs with up <;> rw [← half] at up
  · push_cast
    constructor <;> linarith
  · constructor <;> linarith

section
variable {x : Float}

theorem magnitude_nearestWhole (finite : x.isFinite = true) : (nearestWhole x).isFinite = true ∧
    (Binary.ofFloat (nearestWhole x)).negative = (Binary.ofFloat x).negative ∧
    magnitude (nearestWhole x) = ⌊magnitude x + 1 / 2⌋₊ := by
  unfold nearestWhole wholeBy
  dsimp only
  rw [finite]
  by_cases whole : 0 ≤ (Binary.ofFloat x).exponent
  · rw [decide_eq_true whole, Bool.or_true, if_pos rfl]
    obtain ⟨shift, same⟩ := Int.eq_ofNat_of_zero_le whole
    have value : magnitude x = ((Binary.ofFloat x).mantissa * 2 ^ shift : ℕ) := by
      rw [magnitude, same]
      norm_cast
    have floor := floor_div_add_half ((Binary.ofFloat x).mantissa * 2 ^ shift) one_pos
    rw [Nat.cast_one, div_one, Nat.mod_one, if_neg (by norm_num), Nat.div_one] at floor
    exact ⟨finite, rfl, by rw [value, floor]⟩
  · obtain ⟨shift, amount⟩ : ∃ shift, shift = (-(Binary.ofFloat x).exponent).toNat := ⟨_, rfl⟩
    have exponent : (Binary.ofFloat x).exponent = -shift := by omega
    have some : 2 ^ 1 ≤ 2 ^ shift := Nat.pow_le_pow_right two_pos (by omega)
    have value : magnitude x = (Binary.ofFloat x).mantissa / (2 ^ shift : ℕ) := by
      rw [magnitude, exponent, zpow_neg, zpow_natCast, ← div_eq_mul_inv]
      norm_cast
    have short := (canonical_ofFloat x).short
    have floor := floor_div_add_half (Binary.ofFloat x).mantissa (Nat.pow_pos two_pos : 0 < 2 ^ shift)
    rw [decide_eq_false whole, Bool.not_true, Bool.or_false, if_neg Bool.false_ne_true, ← amount, value]
    simp only [decide_eq_true_eq, Nat.pow_eq]
    rw [← floor]
    have most : ⌊((Binary.ofFloat x).mantissa / (2 ^ shift : ℕ) : ℚ) + 1 / 2⌋₊ ≤ 2 ^ 52 := by
      have quotient : (Binary.ofFloat x).mantissa / 2 ^ shift < 2 ^ 52 :=
        Nat.div_lt_of_lt_mul (by omega)
      rw [floor]
      split <;> omega
    obtain ⟨k, e, canonical, fits, same, put⟩ := exists_toFloat_whole most (Binary.ofFloat x).negative
    rw [put, magnitude_packed canonical fits, isFinite_pack canonical, ofFloat_pack canonical fits, same]
    exact ⟨fits, by cases (Binary.ofFloat x).negative <;> rfl, rfl⟩

end
end BuildingCode.Number

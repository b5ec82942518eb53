import BuildingCode.Number.Numeral
import BuildingCode.Proofs.Number.Arithmetic
import BuildingCode.Proofs.Text.Digits

/-! The value of a numeral is the float nearest to what is written. Numbers far out of range are told by how
many digits they have, and no power of ten is computed for them. -/
namespace BuildingCode.Number
open Float.Model Float.Model.UnpackedFloat

theorem lt_pow_length_digitsOf (n : Nat) : n < 10 ^ (Text.digitsOf n).length :=
  (Nat.length_toDigits_le_iff (by decide) Nat.length_toDigits_pos).mp (le_refl _)

theorem pow_length_digitsOf_le {n : Nat} (filled : n ≠ 0) :
    10 ^ ((Text.digitsOf n).length - 1) ≤ n := by
  by_cases one : (Text.digitsOf n).length - 1 = 0
  · rw [one, pow_zero]
    omega
  · have short : (Text.digitsOf n).length ≤ (Text.digitsOf n).length - 1 ↔
        n < 10 ^ ((Text.digitsOf n).length - 1) :=
      Nat.length_toDigits_le_iff (by decide) (Nat.pos_of_ne_zero one)
    exact not_lt.mp fun less => absurd (short.mpr less) (by omega)

def Decimal.value (d : Decimal) : ℚ := d.digits * 10 ^ d.exponent

section
variable {d : Decimal} {m : ℕ} {e : ℤ} {q : ℚ}

theorem Decimal.value_nonneg (d : Decimal) : 0 ≤ d.value :=
  mul_nonneg (Nat.cast_nonneg _) (zpow_nonneg (by norm_num) _)

theorem Decimal.value_bounds (filled : d.digits ≠ 0) :
    10 ^ (d.exponent + (Text.digitsOf d.digits).length - 1) ≤ d.value ∧
      d.value < 10 ^ (d.exponent + (Text.digitsOf d.digits).length) := by
  have unit : (0 : ℚ) < 10 ^ d.exponent := zpow_pos (by norm_num) _
  have some := List.length_pos_of_ne_nil (Text.digitsOf_ne_nil d.digits)
  constructor
  · have least := pow_length_digitsOf_le filled
    calc (10 : ℚ) ^ (d.exponent + (Text.digitsOf d.digits).length - 1)
        = 10 ^ ((Text.digitsOf d.digits).length - 1) * 10 ^ d.exponent := by
          rw [← zpow_natCast, ← zpow_add₀ (by norm_num)]
          congr 1
          omega
      _ ≤ d.value := by
        unfold Decimal.value
        gcongr
        exact_mod_cast least
  · have most := lt_pow_length_digitsOf d.digits
    calc d.value < 10 ^ (Text.digitsOf d.digits).length * 10 ^ d.exponent := by
          unfold Decimal.value
          gcongr
          exact_mod_cast most
      _ = 10 ^ (d.exponent + (Text.digitsOf d.digits).length) := by
        rw [← zpow_natCast, ← zpow_add₀ (by norm_num), add_comm]

theorem approximates_infinity (large : overflow ≤ q) : Approximates (1.0 / 0.0) false q := by
  have infinite : (1.0 / 0.0 : Float).isFinite ≠ true := by decide
  exact ⟨iff_of_false infinite (not_lt.mpr large), fun finite => absurd finite infinite,
    fun finite => absurd finite infinite⟩

theorem approximates_zero (least : 0 ≤ q) (small : q < 2 ^ (-1075 : ℤ)) : Approximates 0.0 false q := by
  have unit : (0 : ℚ) < 2 ^ (-1074 : ℤ) := zpow_pos two_pos _
  have half : (2 : ℚ) ^ (-1075 : ℤ) = 1 / 2 * 2 ^ (-1074 : ℤ) := by
    rw [show (-1075 : ℤ) = -1 + -1074 from rfl, zpow_add₀ two_ne_zero]
    norm_num
  have below : q / 2 ^ (-1074 : ℤ) < 1 / 2 := by
    rw [div_lt_iff₀ unit, ← half]
    exact small
  have above : 0 ≤ q / 2 ^ (-1074 : ℤ) := div_nonneg least unit.le
  have near : RoundsTo (q / 2 ^ (-1074 : ℤ)) 0 := by
    refine roundsTo_of_lt ?_
    rwa [Nat.cast_zero, sub_zero, abs_of_nonneg above]
  have rounds := near.rounds le_rfl (by linarith) (.inr rfl)
  rw [div_mul_cancel₀ _ unit.ne'] at rounds
  exact rounds.approximates .positive

theorem pow_two_le_pow_ten : (2 : ℚ) ^ (1075 : ℤ) ≤ 10 ^ (400 : ℤ) := by
  calc (2 : ℚ) ^ (1075 : ℤ) ≤ 2 ^ (3 * 400 : ℤ) := zpow_le_zpow_right₀ one_le_two (by omega)
    _ = (2 ^ (3 : ℤ)) ^ (400 : ℤ) := zpow_mul 2 3 400
    _ ≤ 10 ^ (400 : ℤ) := zpow_le_zpow_left₀ (by omega) (by norm_num) (by norm_num)

theorem Decimal.large_of_isHuge (filled : d.digits ≠ 0) (huge : d.isHuge = true) :
    overflow ≤ d.value := by
  have digits : 400 < d.exponent + (Text.digitsOf d.digits).length := of_decide_eq_true huge
  calc overflow ≤ 2 ^ (1024 : ℤ) := overflow_le
    _ ≤ 2 ^ (1075 : ℤ) := zpow_le_zpow_right₀ one_le_two (by omega)
    _ ≤ 10 ^ (400 : ℤ) := pow_two_le_pow_ten
    _ ≤ 10 ^ (d.exponent + (Text.digitsOf d.digits).length - 1) :=
      zpow_le_zpow_right₀ (by norm_num) (by omega)
    _ ≤ d.value := (Decimal.value_bounds filled).1

theorem Decimal.small_of_isTiny (filled : d.digits ≠ 0) (tiny : d.isTiny = true) :
    d.value < 2 ^ (-1075 : ℤ) := by
  have digits : d.exponent + (Text.digitsOf d.digits).length < -400 := of_decide_eq_true tiny
  calc d.value < 10 ^ (d.exponent + (Text.digitsOf d.digits).length) := (Decimal.value_bounds filled).2
    _ ≤ 10 ^ (-400 : ℤ) := zpow_le_zpow_right₀ (by norm_num) digits.le
    _ = (10 ^ (400 : ℤ))⁻¹ := zpow_neg _ _
    _ ≤ (2 ^ (1075 : ℤ))⁻¹ := inv_anti₀ (zpow_pos two_pos _) pow_two_le_pow_ten
    _ = 2 ^ (-1075 : ℤ) := (zpow_neg _ _).symm

theorem mul_pow_ten (m i : ℕ) : (m * 10 ^ (i : ℤ) : ℚ) = m * (10 ^ i : ℕ) := by
  rw [zpow_natCast, Nat.cast_pow]
  rfl

theorem div_pow_ten (m i : ℕ) : (m * 10 ^ (-i : ℤ) : ℚ) = m / (10 ^ i : ℕ) := by
  rw [zpow_neg, zpow_natCast, ← div_eq_mul_inv, Nat.cast_pow]
  rfl

theorem exists_mul_pow_ten (filled : m ≠ 0) (i : ℕ) :
    ∃ k f, Rounds (m * 10 ^ (i : ℤ)) k f ∧
      UnpackedFloat.mul .binary64 (unpacked .positive (m <<< 53) (-53))
        (unpacked .positive (10 ^ i) 0) = unpacked .positive k f := by
  have shifted : 2 ^ 52 ≤ m <<< 53 := by
    rw [Nat.shiftLeft_eq]
    omega
  have least : 2 ^ 52 ≤ m <<< 53 * 10 ^ i :=
    shifted.trans (Nat.le_mul_of_pos_right _ (Nat.pow_pos (by decide)))
  have nonzero : m <<< 53 * 10 ^ i ≠ 0 := by omega
  have value : ((m <<< 53 : ℕ) * 2 ^ (-53 : ℤ) : ℚ) = m := by
    rw [Nat.shiftLeft_eq]
    push_cast
    norm_num [mul_assoc]
  rw [mul_pow_ten, ← mul_one ((10 ^ i : ℕ) : ℚ), ← zpow_zero (2 : ℚ)]
  nth_rewrite 1 [← value]
  exact exists_mul nonzero (.inl ((Nat.le_log2 nonzero).mpr least)) .positive .positive

theorem exists_div_pow_ten (filled : m ≠ 0) (i : ℕ) :
    ∃ k f, Rounds (m * 10 ^ (-i : ℤ)) k f ∧
      UnpackedFloat.div .binary64 (unpacked .positive m 0) (unpacked .positive (10 ^ i) 0) =
        unpacked .positive k f := by
  have rounds := exists_div filled (pow_ne_zero i (by decide : 10 ≠ 0)) 0 0 .positive .positive
  rw [zpow_zero, mul_one, mul_one] at rounds
  rw [div_pow_ten]
  exact rounds

theorem exists_ofScientific (filled : m ≠ 0) (high : e ≤ 2 ^ 11) (low : -(2 ^ 11 + m.log2) ≤ e) :
    ∃ k f, Rounds (m * 10 ^ e) k f ∧
      UnpackedFloat.ofScientific .binary64 m e = unpacked .positive k f := by
  have power (i : ℕ) : 10 ^ i ≠ 0 := pow_ne_zero i (by decide)
  unfold UnpackedFloat.ofScientific
  rw [dif_neg filled, if_neg (not_lt.mpr high), if_neg (not_lt.mpr low)]
  by_cases whole : 0 ≤ e
  · have rounds := exists_mul_pow_ten filled e.toNat
    rw [Int.toNat_of_nonneg whole, unpacked_of_ne_zero (Nat.shiftLeft_eq_zero_iff.not.mpr (by omega)),
      unpacked_of_ne_zero (power _)] at rounds
    rw [if_pos whole]
    exact rounds
  · have rounds := exists_div_pow_ten filled (-e).toNat
    rw [Int.toNat_of_nonneg (by omega), neg_neg, unpacked_of_ne_zero filled,
      unpacked_of_ne_zero (power _)] at rounds
    rw [if_neg whole]
    exact rounds

theorem approximates_of_whole {x y : Float} (whole : IsWhole x m) (power : IsWhole y (10 ^ e.natAbs)) :
    Approximates (if decide (e < 0) then x / y else x * y) false (m * 10 ^ e) := by
  by_cases negative : e < 0
  · have value : (m * 10 ^ e : ℚ) = m / (10 ^ e.natAbs : ℕ) := by
      rw [← div_pow_ten, Int.ofNat_natAbs_of_nonpos negative.le, neg_neg]
    rw [value, decide_eq_true negative]
    exact whole.div power
  · have value : (m * 10 ^ e : ℚ) = m * (10 ^ e.natAbs : ℕ) := by
      rw [← mul_pow_ten, Int.natAbs_of_nonneg (not_lt.mp negative)]
    rw [value, decide_eq_false negative]
    exact whole.mul power

theorem approximates_ofScientific (filled : m ≠ 0) (high : e ≤ 2 ^ 11) (low : -(2 ^ 11 + m.log2) ≤ e) :
    Approximates (Float.ofScientific m (decide (e < 0)) e.natAbs) false (m * 10 ^ e) := by
  unfold Float.ofScientific
  split
  · next fast =>
    exact approximates_of_whole (isWhole_toFloat (Nat.pos_of_ne_zero filled) fast.1)
      (isWhole_power ⟨e.natAbs, by omega⟩)
  · have power : (if decide (e < 0) = true then Int.negOfNat e.natAbs else Int.ofNat e.natAbs) = e := by
      simp only [Int.negOfNat_eq, Int.ofNat_eq_natCast, decide_eq_true_eq]
      split <;> omega
    obtain ⟨k, f, rounds, eq⟩ := exists_ofScientific filled high low
    dsimp only
    rw [power]
    have model : Float.ofModel (.ofScientific m e) = packed (unpacked .positive k f) := congrArg packed eq
    rw [model]
    exact rounds.approximates .positive

/-- The value of a decimal is the float that it is rounded to, however large or small. -/
theorem Decimal.approximates_toFloat (d : Decimal) : Approximates d.toFloat false d.value := by
  unfold Decimal.toFloat
  by_cases filled : d.digits = 0
  · have zero : d.value = 0 := by rw [Decimal.value, filled, Nat.cast_zero, zero_mul]
    rw [zero]
    simp only [filled, decide_true, Bool.true_or, if_true]
    exact approximates_zero le_rfl (zpow_pos two_pos _)
  · simp only [filled, decide_false, Bool.false_or]
    split_ifs with tiny huge
    · exact approximates_zero d.value_nonneg (Decimal.small_of_isTiny filled tiny)
    · exact approximates_infinity (Decimal.large_of_isHuge filled huge)
    · have length : (Text.digitsOf d.digits).length ≤ d.digits.log2 + 1 := by
        refine (Nat.length_toDigits_le_iff (by decide) (Nat.succ_pos _)).mpr ?_
        exact Nat.lt_log2_self.trans_le (Nat.pow_le_pow_left (by decide) _)
      have low : -400 ≤ d.exponent + (Text.digitsOf d.digits).length :=
        not_lt.mp (of_decide_eq_false (Bool.eq_false_of_not_eq_true tiny))
      have high : d.exponent + (Text.digitsOf d.digits).length ≤ 400 :=
        not_lt.mp (of_decide_eq_false (Bool.eq_false_of_not_eq_true huge))
      exact approximates_ofScientific filled (by omega) (by omega)

end

def withSign (negative : Bool) (v : ℚ) : ℚ := if negative then -v else v

def Numeral.value (n : Numeral) : ℚ := withSign n.negative n.decimal.value

def Binary.value (b : Binary) : ℚ := withSign b.negative (b.mantissa * 2 ^ b.exponent)

/-- What is written is not too large, and no finite float is nearer to it. Of two that are as near it is the
one with the even mantissa. Zero has the sign that is written. -/
structure IsNearest (n : Numeral) (x : Float) : Prop where
  fits : |n.value| < overflow
  finite : x.isFinite = true
  signed : (Binary.ofFloat x).negative = n.negative
  closest : ∀ y : Float, y.isFinite = true →
    |n.value - (Binary.ofFloat x).value| ≤ |n.value - (Binary.ofFloat y).value|
  even : ∀ y : Float, y.isFinite = true →
    |n.value - (Binary.ofFloat y).value| = |n.value - (Binary.ofFloat x).value| →
    (Binary.ofFloat y).value ≠ (Binary.ofFloat x).value → (Binary.ofFloat x).mantissa % 2 = 0

section
variable {n : Numeral} {x y : Float} {b c : Bool} {q u v : ℚ}

theorem abs_withSign (b : Bool) (v : ℚ) : |withSign b v| = |v| := by
  cases b
  · rfl
  · exact abs_neg v

theorem withSign_zero (b : Bool) : withSign b 0 = 0 := by
  cases b
  · rfl
  · exact neg_zero

theorem withSign_inj (same : withSign b u = withSign b v) : u = v := by
  cases b
  · exact same
  · exact neg_injective same

theorem abs_withSign_sub (b : Bool) (u v : ℚ) : |withSign b u - withSign b v| = |u - v| := by
  cases b
  · rfl
  · change |-u - -v| = |u - v|
    rw [neg_sub_neg, abs_sub_comm]

theorem abs_withSign_sub_of_ne (other : b ≠ c) (u v : ℚ) :
    |withSign b u - withSign c v| = |u + v| := by
  cases b <;> cases c
  · exact absurd rfl other
  · change |u - -v| = |u + v|
    rw [sub_neg_eq_add]
  · change |-u - v| = |u + v|
    rw [← neg_add', abs_neg]
  · exact absurd rfl other

theorem isFinite_neg (infinite : x.isFinite = false) : (-x).isFinite = false := by
  change x.toModel.unpack.isFinite = false at infinite
  change (packed x.toModel.unpack.neg).isFinite = false
  generalize x.toModel.unpack = u at *
  cases u with
  | notANumber => decide
  | infinity s => cases s <;> decide
  | zero s | finite s m e pos => cases infinite

theorem Approximates.neg (h : Approximates x false q) : Approximates (-x) true q := by
  by_cases finite : x.isFinite = true
  · have opposite : -x =
        packed (unpacked .negative (Binary.ofFloat x).mantissa (Binary.ofFloat x).exponent) := by
      change packed x.toModel.unpack.neg = _
      rw [unpack_of_isFinite finite, h.signed finite, neg_unpacked]
      rfl
    rw [opposite]
    exact (h.rounds finite).approximates .negative
  · have infinite : ¬(-x).isFinite = true := by
      rw [isFinite_neg (by simpa using finite)]
      exact Bool.false_ne_true
    exact ⟨iff_of_false infinite (h.fits.not.mp finite), fun finite => absurd finite infinite,
      fun finite => absurd finite infinite⟩

theorem Numeral.approximates_toFloat (n : Numeral) :
    Approximates n.toFloat n.negative n.decimal.value := by
  have magnitude := n.decimal.approximates_toFloat
  unfold Numeral.toFloat
  cases n.negative
  · exact magnitude
  · exact magnitude.neg

theorem Numeral.abs_value (n : Numeral) : |n.value| = n.decimal.value :=
  (abs_withSign _ _).trans (abs_of_nonneg n.decimal.value_nonneg)

theorem Numeral.distance_of_signed (same : (Binary.ofFloat y).negative = n.negative) :
    |n.value - (Binary.ofFloat y).value| =
      |n.decimal.value - (Binary.ofFloat y).mantissa * 2 ^ (Binary.ofFloat y).exponent| := by
  unfold Numeral.value Binary.value
  rw [same, abs_withSign_sub]

theorem Numeral.distance_of_ne (other : (Binary.ofFloat y).negative ≠ n.negative) :
    |n.value - (Binary.ofFloat y).value| =
      n.decimal.value + (Binary.ofFloat y).mantissa * 2 ^ (Binary.ofFloat y).exponent := by
  unfold Numeral.value Binary.value
  rw [abs_withSign_sub_of_ne other.symm,
    abs_of_nonneg (add_nonneg n.decimal.value_nonneg (Binary.magnitude_nonneg _))]

theorem Numeral.distance_le (n : Numeral) (y : Float) :
    |n.decimal.value - (Binary.ofFloat y).mantissa * 2 ^ (Binary.ofFloat y).exponent| ≤
      |n.value - (Binary.ofFloat y).value| := by
  by_cases same : (Binary.ofFloat y).negative = n.negative
  · exact (Numeral.distance_of_signed same).ge
  · have own := n.decimal.value_nonneg
    have magnitude := (Binary.ofFloat y).magnitude_nonneg
    rw [Numeral.distance_of_ne same, abs_le]
    constructor <;> linarith

theorem Approximates.isNearest (h : Approximates x n.negative n.decimal.value)
    (finite : x.isFinite = true) : IsNearest n x := by
  have signed := h.signed finite
  have rounds := h.rounds finite
  have closest (y : Float) :=
    rounds.closest _ _ (canonical_ofFloat y).short (canonical_ofFloat y).least
  refine ⟨n.abs_value ▸ h.fits.mp finite, finite, signed, fun y _ => ?_, fun y _ tie differ => ?_⟩
  · rw [Numeral.distance_of_signed signed]
    exact (closest y).trans (n.distance_le y)
  · rw [Numeral.distance_of_signed signed] at tie
    have canonical := canonical_ofFloat y
    refine rounds.even _ _ canonical.short canonical.least
      (((n.distance_le y).trans tie.le).antisymm (closest y)) fun same => ?_
    -- Of opposite floats only zeros can be as near, and they have one value.
    by_cases sign : (Binary.ofFloat y).negative = n.negative
    · exact differ (by rw [Binary.value, Binary.value, sign, signed, same])
    · have near := rounds.closest 0 0 (by norm_num) (by norm_num)
      rw [Nat.cast_zero, zero_mul, sub_zero, abs_of_nonneg n.decimal.value_nonneg, ← tie,
        Numeral.distance_of_ne sign] at near
      have zero := le_antisymm (by linarith) (Binary.ofFloat y).magnitude_nonneg
      refine differ ?_
      rw [Binary.value, Binary.value, ← same, zero, withSign_zero, withSign_zero]

/-- The value is the nearest float, which there is unless the value is infinite, and no other is nearest. -/
theorem isNearest_iff : IsNearest n x ↔ n.toFloat.isFinite = true ∧ x = n.toFloat := by
  have approximates := n.approximates_toFloat
  constructor
  · intro h
    have finite := approximates.fits.mpr (n.abs_value ▸ h.fits)
    have signed := approximates.signed finite
    have nearest := approximates.isNearest finite
    have tie : |n.value - (Binary.ofFloat x).value| = |n.value - (Binary.ofFloat n.toFloat).value| :=
      (h.closest _ finite).antisymm (nearest.closest _ h.finite)
    have even := h.even _ finite tie.symm
    rw [Numeral.distance_of_signed h.signed, Numeral.distance_of_signed signed] at tie
    obtain ⟨mantissa, exponent⟩ :=
      (approximates.rounds finite).unique (canonical_ofFloat x) tie fun differ => by
        refine even fun same => differ ?_
        rw [Binary.value, Binary.value, h.signed, signed] at same
        exact (withSign_inj same).symm
    exact ⟨finite, ofFloat_inj (Binary.ext (h.signed.trans signed.symm) mantissa exponent)⟩
  · rintro ⟨finite, rfl⟩
    exact approximates.isNearest finite

end
end BuildingCode.Number

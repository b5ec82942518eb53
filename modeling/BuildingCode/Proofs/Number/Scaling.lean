import BuildingCode.Number.Power
import BuildingCode.Proofs.Number.Arithmetic
import Mathlib.Algebra.Order.Archimedean.Basic

/-! Powers by repeated squaring. Every product on the way is rounded, and after so many roundings as the
exponent counts the power is still close to the exact one. Hence a power of ten is a finite float as long
as the exact one is in range, and infinite from there on. -/
namespace BuildingCode.Number
open Float.Model Float.Model.UnpackedFloat

section
variable {q : ℚ} {k j : ℕ} {e g : ℤ}

theorem Rounds.le_of_le (h : Rounds q k e) (short : j < 2 ^ 53) (least : -1074 ≤ g)
    (below : q ≤ j * 2 ^ g) : (k * 2 ^ e : ℚ) ≤ j * 2 ^ g := by
  have near := (neg_le_abs _).trans (h.closest j g short least)
  rw [abs_of_nonpos (sub_nonpos.mpr below)] at near
  linarith

theorem Rounds.le_of_ge (h : Rounds q k e) (short : j < 2 ^ 53) (least : -1074 ≤ g)
    (above : j * 2 ^ g ≤ q) : (j * 2 ^ g : ℚ) ≤ k * 2 ^ e := by
  have near := (le_abs_self _).trans (h.closest j g short least)
  rw [abs_of_nonneg (sub_nonneg.mpr above)] at near
  linarith

theorem Rounds.one_le (h : Rounds q k e) (least : 1 ≤ q) : (1 : ℚ) ≤ k * 2 ^ e := by
  have kept := h.le_of_ge (j := 1) (g := 0) (by norm_num) (by norm_num)
  norm_num at kept
  exact kept least

/-- What one rounding of a number may take away from it or add to it, as a part of it. -/
def drift : ℚ := 2 ^ (-52 : ℤ)

theorem drift_pos : 0 < drift := zpow_pos two_pos _

theorem drift_lt_one : drift < 1 := zpow_lt_one_of_neg₀ one_lt_two (by norm_num)

theorem Rounds.drifts (h : Rounds q k e) (least : 1 ≤ q) :
    q * (1 - drift) ≤ k * 2 ^ e ∧ (k * 2 ^ e : ℚ) ≤ q * (1 + drift) := by
  obtain ⟨n, low, high⟩ := exists_mem_Ico_zpow (zero_lt_one.trans_le least) (one_lt_two (α := ℚ))
  have size : 0 < n + 1 := (one_lt_zpow_iff_right₀ one_lt_two).mp (least.trans_lt high)
  have unit : (0 : ℚ) < 2 ^ (n - 52) := zpow_pos two_pos _
  have unit_le : (2 : ℚ) ^ (n - 52) ≤ q * drift := by
    calc (2 : ℚ) ^ (n - 52) = 2 ^ n * drift := zpow_add₀ two_ne_zero n (-52)
      _ ≤ q * drift := mul_le_mul_of_nonneg_right low drift_pos.le
  -- The multiple of the unit below the number is a float.
  have below := Nat.floor_le (div_pos (zero_lt_one.trans_le least) unit).le
  have above := Nat.lt_floor_add_one (q / 2 ^ (n - 52))
  have short : ⌊q / 2 ^ (n - 52)⌋₊ < 2 ^ 53 := by
    have most : q / 2 ^ (n - 52) < 2 ^ 53 := by
      rw [div_lt_iff₀ unit, ← zpow_natCast, ← zpow_add₀ two_ne_zero]
      exact high.trans_le (zpow_le_zpow_right₀ one_le_two (by omega))
    exact_mod_cast below.trans_lt most
  have near := h.closest _ (n - 52) short (by omega)
  rw [le_div_iff₀ unit] at below
  rw [div_lt_iff₀ unit] at above
  rw [abs_of_nonneg (sub_nonneg.mpr below)] at near
  obtain ⟨left, right⟩ := abs_le.mp near
  constructor <;> linarith

theorem Rounds.pos (h : Rounds q k e) (least : 2 ^ (-1074 : ℤ) ≤ q) : (0 : ℚ) < k * 2 ^ e := by
  have kept := h.le_of_ge (j := 1) (g := -1074) (by norm_num) le_rfl
  rw [Nat.cast_one, one_mul] at kept
  exact (zpow_pos two_pos _).trans_le (kept least)

end

theorem packed_congr {u v : UnpackedFloat}
    (same : UnpackedFloat.pack .binary64 u = UnpackedFloat.pack .binary64 v) : packed u = packed v := by
  unfold packed Float.Model.pack
  congr 2
  rw [same]

theorem infinity_eq_packed : 1.0 / 0.0 = packed (.infinity .positive) := by decide

theorem packed_of_large {k : ℕ} {e : ℤ} (canonical : Canonical k e) (large : 971 < e) (s : Sign) :
    packed (unpacked s k e) = packed (.infinity s) := by
  have filled : k ≠ 0 := by
    have := canonical.full
    omega
  apply packed_congr
  rw [pack_finite filled canonical, if_pos large]
  rfl

structure AtLeastOne (x : Float) : Prop where
  finite : x.isFinite = true
  positive : (Binary.ofFloat x).negative = false
  least : 1 ≤ magnitude x

section
variable {x : Float}

theorem AtLeastOne.mul_infinity (h : AtLeastOne x) :
    1.0 / 0.0 * x = 1.0 / 0.0 ∧ x * (1.0 / 0.0) = 1.0 / 0.0 := by
  have unpack := unpack_of_isFinite h.finite
  have filled := magnitude_pos_iff.mp (zero_lt_one.trans_le h.least)
  rw [h.positive, unpacked_of_ne_zero filled] at unpack
  change packed (UnpackedFloat.mul .binary64 (1.0 / 0.0 : Float).toModel.unpack x.toModel.unpack) = _ ∧
    packed (UnpackedFloat.mul .binary64 x.toModel.unpack (1.0 / 0.0 : Float).toModel.unpack) = _
  rw [unpack, infinity_eq_packed]
  exact ⟨rfl, rfl⟩

theorem isFinite_packed_infinity (s : Sign) : (packed (.infinity s)).isFinite = false := by
  cases s <;> decide

theorem isFinite_mul_infinity (finite : x.isFinite = true) : (x * (1.0 / 0.0)).isFinite = false := by
  change (packed (UnpackedFloat.mul .binary64 x.toModel.unpack (.infinity .positive))).isFinite = false
  have number : x.toModel.unpack.isFinite = true := finite
  generalize x.toModel.unpack = u at *
  cases u with
  | notANumber | infinity s => cases number
  | zero s => cases s <;> decide
  | finite s m e pos =>
    have infinite : UnpackedFloat.mul .binary64 (.finite s m e pos) (.infinity .positive) =
        .infinity (s * .positive) := rfl
    rw [infinite]
    exact isFinite_packed_infinity _

theorem zero_div_zero (finite : x.isFinite = true) (none : magnitude x = 0) : x / 0.0 = 0.0 / 0.0 := by
  have unpack := unpack_of_isFinite finite
  have empty : (Binary.ofFloat x).mantissa = 0 := by
    by_contra some
    exact (magnitude_pos_iff.mpr some).ne' none
  rw [empty] at unpack
  have number (s : Sign) : packed (UnpackedFloat.div .binary64 (.zero s) (.zero .positive)) = 0.0 / 0.0 := by
    cases s <;> decide
  change packed (UnpackedFloat.div .binary64 x.toModel.unpack (.zero .positive)) = _
  rw [unpack]
  exact number _

end

/-- What a number has become by so many roundings, none of which was given less than one. It is infinite
only if that many roundings may make the number too large. -/
inductive Near (q : ℚ) (n : ℕ) (x : Float) : Prop where
  | infinite (same : x = 1.0 / 0.0) (large : overflow ≤ q * (1 + drift) ^ n)
  | finite (kept : AtLeastOne x) (low : q * (1 - drift) ^ n ≤ magnitude x)
    (high : magnitude x ≤ q * (1 + drift) ^ n)

section
variable {q r b : ℚ} {m n k : ℕ} {x y base : Float}

theorem Near.one_le (h : Near q n x) : 1 ≤ q * (1 + drift) ^ n := by
  cases h with
  | infinite _ large => exact one_lt_overflow.le.trans large
  | finite kept _ high => exact kept.least.trans high

theorem Near.pos (h : Near q n x) : 0 < q := by
  have scale : 0 < (1 + drift) ^ n := pow_pos (by linarith [drift_pos]) n
  exact (mul_pos_iff_of_pos_right scale).mp (zero_lt_one.trans_le h.one_le)

theorem AtLeastOne.near_mul (hx : AtLeastOne x) (hy : AtLeastOne y) :
    Near (magnitude x * magnitude y) 1 (x * y) := by
  obtain ⟨k, e, rounds, product⟩ := exists_product hx.finite hy.finite
  rw [hx.positive, hy.positive] at product
  change x * y = packed (unpacked .positive k e) at product
  have one := one_le_mul_of_one_le_of_one_le hx.least hy.least
  by_cases fits : e ≤ 971
  · have value := magnitude_packed rounds.canonical fits .positive
    obtain ⟨low, high⟩ := rounds.drifts one
    rw [product]
    refine .finite ⟨(isFinite_pack rounds.canonical .positive).mpr fits, ?_, ?_⟩ ?_ ?_
    · rw [ofFloat_pack rounds.canonical fits]
      rfl
    · rw [value]
      exact rounds.one_le one
    · rwa [value, pow_one]
    · rwa [value, pow_one]
  · have large := not_lt.mp (rounds.fits.not.mp fits)
    refine .infinite ?_ (large.trans (le_mul_of_one_le_right (by linarith) ?_))
    · rw [product, packed_of_large rounds.canonical (not_le.mp fits), infinity_eq_packed]
    · rw [pow_one]
      linarith [drift_pos]

theorem Near.after (h : Near r 1 x) (low : q * (1 - drift) ^ n ≤ r) (high : r ≤ q * (1 + drift) ^ n) :
    Near q (n + 1) x := by
  have down : 0 ≤ 1 - drift := by linarith [drift_lt_one]
  have up : 0 ≤ 1 + drift := by linarith [drift_pos]
  have high := mul_le_mul_of_nonneg_right high up
  have low := mul_le_mul_of_nonneg_right low down
  rw [mul_assoc, ← pow_succ] at low high
  cases h with
  | infinite same large =>
    rw [pow_one] at large
    exact .infinite same (large.trans high)
  | finite kept lower upper =>
    rw [pow_one] at lower upper
    exact .finite kept (low.trans lower) (upper.trans high)

theorem Near.mul (hx : Near q m x) (hy : Near r n y) : Near (q * r) (m + n + 1) (x * y) := by
  have scaled (d : ℚ) : q * r * d ^ (m + n) = q * d ^ m * (r * d ^ n) := by ring
  have nonneg : 0 ≤ r * (1 - drift) ^ n :=
    mul_nonneg hy.pos.le (pow_nonneg (by linarith [drift_lt_one]) n)
  have up : 1 ≤ 1 + drift := by linarith [drift_pos]
  have grown : q * (1 + drift) ^ m * (r * (1 + drift) ^ n) ≤ q * r * (1 + drift) ^ (m + n + 1) := by
    rw [← scaled, pow_succ, ← mul_assoc]
    refine le_mul_of_one_le_right ?_ up
    rw [scaled]
    exact mul_nonneg (by linarith [hx.one_le]) (by linarith [hy.one_le])
  cases hx with
  | infinite same large =>
    have product : q * (1 + drift) ^ m ≤ q * (1 + drift) ^ m * (r * (1 + drift) ^ n) :=
      le_mul_of_one_le_right (by linarith [one_lt_overflow]) hy.one_le
    have large := (large.trans product).trans grown
    cases hy with
    | infinite same' _ =>
      refine .infinite ?_ large
      rw [same, same']
      decide
    | finite kept _ _ =>
      refine .infinite ?_ large
      rw [same, kept.mul_infinity.1]
  | finite kept lower upper =>
    cases hy with
    | infinite same large =>
      have product : r * (1 + drift) ^ n ≤ q * (1 + drift) ^ m * (r * (1 + drift) ^ n) :=
        le_mul_of_one_le_left (by linarith [one_lt_overflow]) (kept.least.trans upper)
      refine .infinite ?_ ((large.trans product).trans grown)
      rw [same, kept.mul_infinity.2]
    | finite kept' lower' upper' =>
      refine (kept.near_mul kept').after ?_ ?_
      · rw [scaled]
        exact mul_le_mul lower lower' nonneg (magnitude_nonneg x)
      · rw [scaled]
        exact mul_le_mul upper upper' (magnitude_nonneg y) (by linarith [kept.least])

/-- The base stands for its own power and has been rounded for it; the digits of the exponent that are left
say how many more roundings there are. -/
theorem Near.squareMultiply {digits : ℕ} (hx : Near q m x) (hb : Near b k base)
    (enough : n < 2 ^ digits) :
    Near (q * b ^ n) (m + n * (k + 1)) (squareMultiply digits x base n) := by
  induction digits generalizing q m x b k base n with
  | zero =>
    obtain rfl : n = 0 := by omega
    rw [pow_zero, mul_one, Nat.zero_mul]
    exact hx
  | succ digits ih =>
    unfold BuildingCode.Number.squareMultiply
    dsimp only
    -- The digit takes the base or not, and the rest goes on with the square.
    have half : n / 2 < 2 ^ digits := by omega
    have split := Nat.div_add_mod n 2
    have taken : Near (q * b ^ (n % 2)) (m + n % 2 * (k + 1)) (if n % 2 == 1 then x * base else x) := by
      rcases Nat.mod_two_eq_zero_or_one n with even | odd
      · rw [even, pow_zero, mul_one, Nat.zero_mul]
        exact hx
      · rw [odd, pow_one, Nat.one_mul]
        exact hx.mul hb
    split
    · next last =>
      have none : n / 2 = 0 := beq_iff_eq.mp last
      rw [none, Nat.mul_zero, Nat.zero_add] at split
      rw [split] at taken ⊢
      exact taken
    · have power : q * b ^ (n % 2) * (b * b) ^ (n / 2) = q * b ^ n := by
        rw [← pow_two, ← pow_mul, mul_assoc, ← pow_add, Nat.add_comm, split]
      have roundings : m + n % 2 * (k + 1) + n / 2 * (k + k + 1 + 1) = m + n * (k + 1) := by
        conv_rhs => rw [← split]
        ring
      rw [← power, ← roundings]
      exact ih taken (hb.mul hb) half

end

section
variable {n : ℕ}

theorem magnitude_zero : magnitude 0.0 = 0 ∧ magnitude (-0.0) = 0 := by
  have fields : Binary.ofFloat 0.0 = ⟨false, 0, -1074⟩ := by decide
  have fields' : Binary.ofFloat (-0.0) = ⟨true, 0, -1074⟩ := by decide
  constructor
  · rw [magnitude, fields, Nat.cast_zero, zero_mul]
  · rw [magnitude, fields', Nat.cast_zero, zero_mul]

theorem ofFloat_one : Binary.ofFloat 1.0 = ⟨false, 2 ^ 52, -52⟩ := by decide

theorem magnitude_one : magnitude 1.0 = 1 := by
  rw [magnitude, ofFloat_one]
  norm_num

theorem near_one : Near 1 0 1.0 := by
  refine .finite ⟨by decide, by rw [ofFloat_one], ?_⟩ ?_ ?_ <;> norm_num [magnitude_one]

theorem near_ten : Near 10 0 10.0 := by
  have fields : Binary.ofFloat 10.0 = ⟨false, 10 * 2 ^ 49, -49⟩ := by decide
  have value : magnitude 10.0 = 10 := by
    rw [magnitude, fields]
    norm_num
  refine .finite ⟨by decide, by rw [fields], ?_⟩ ?_ ?_ <;> norm_num [value]

def tenTo (n : ℕ) : Float := squareMultiply 64 1.0 10.0 n

theorem near_tenTo (small : n < 2 ^ 64) : Near (10 ^ n) n (tenTo n) := by
  have near := near_one.squareMultiply near_ten small
  rwa [one_mul, Nat.zero_add, Nat.mul_one] at near

theorem tens_between : 2 ^ 93 ≤ (10 * (1 - drift)) ^ 28 ∧ (10 * (1 + drift)) ^ 28 ≤ 101 / 100 * 2 ^ 93 := by
  unfold drift
  norm_num

theorem most_tens_lt_overflow : (10 * (1 + drift)) ^ 308 < overflow := by
  have scale : (0 : ℚ) < 2 ^ (971 : ℤ) := zpow_pos two_pos _
  calc (10 * (1 + drift)) ^ 308 = ((10 * (1 + drift)) ^ 28) ^ 11 := pow_mul _ 28 11
    _ ≤ (101 / 100 * 2 ^ 93) ^ 11 := by
      have pos := drift_pos
      gcongr
      exact tens_between.2
    _ = (101 / 100) ^ 11 * 2 ^ 52 * 2 ^ (971 : ℤ) := by
      rw [mul_pow, ← pow_mul, mul_assoc, ← zpow_natCast 2 52, ← zpow_add₀ two_ne_zero, ← zpow_natCast]
      rfl
    _ < overflow := mul_lt_mul_of_pos_right (by norm_num) scale

theorem overflow_le_tens : overflow ≤ (10 * (1 - drift)) ^ 309 := by
  calc overflow ≤ 2 ^ (1024 : ℤ) := overflow_le
    _ = (2 ^ 93) ^ 11 * 2 := by
      rw [← pow_mul, ← pow_succ, ← zpow_natCast]
      rfl
    _ ≤ ((10 * (1 - drift)) ^ 28) ^ 11 * (10 * (1 - drift)) := by
      have twice : 2 ≤ 10 * (1 - drift) := by
        unfold drift
        norm_num
      have pos := zero_le_two.trans twice
      exact mul_le_mul (pow_le_pow_left₀ (by norm_num) tens_between.1 11) twice zero_le_two
        (pow_nonneg (pow_nonneg pos 28) 11)
    _ = (10 * (1 - drift)) ^ 309 := by rw [← pow_mul, ← pow_succ]

theorem tenTo_of_le (small : n ≤ 308) : AtLeastOne (tenTo n) := by
  cases near_tenTo (by omega : n < 2 ^ 64) with
  | infinite _ large =>
    rw [← mul_pow] at large
    have most := pow_le_pow_right₀ (by linarith [drift_pos] : (1 : ℚ) ≤ 10 * (1 + drift)) small
    exact absurd (large.trans most) (not_le.mpr most_tens_lt_overflow)
  | finite kept => exact kept

theorem tenTo_of_gt (large : 308 < n) (small : n < 2 ^ 64) : tenTo n = 1.0 / 0.0 := by
  cases near_tenTo small with
  | infinite same => exact same
  | finite kept low =>
    rw [← mul_pow] at low
    have base : (1 : ℚ) ≤ 10 * (1 - drift) := by
      unfold drift
      norm_num
    have least := pow_le_pow_right₀ base large
    exact absurd ((overflow_le_tens.trans least).trans low) (not_le.mpr (magnitude_lt_overflow kept.finite))

theorem AtLeastOne.reciprocal_bounds {x : Float} (h : AtLeastOne x) :
    (1.0 / x).isFinite = true ∧ 0 < magnitude (1.0 / x) ∧ magnitude (1.0 / x) ≤ 1 := by
  have one : (1.0 : Float).isFinite = true := by decide
  have filled := magnitude_pos_iff.mp (zero_lt_one.trans_le h.least)
  obtain ⟨k, e, rounds, quotient⟩ := exists_quotient one h.finite filled
  rw [magnitude_one] at rounds
  have most : 1 / magnitude x ≤ 1 := by
    rw [div_le_one₀ (zero_lt_one.trans_le h.least)]
    exact h.least
  have tiny : 2 ^ (-1074 : ℤ) ≤ 1 / magnitude x := by
    have below : magnitude x ≤ 2 ^ (1074 : ℤ) := by
      calc magnitude x ≤ overflow := (magnitude_lt_overflow h.finite).le
        _ ≤ 2 ^ (1024 : ℤ) := overflow_le
        _ ≤ 2 ^ (1074 : ℤ) := zpow_le_zpow_right₀ one_le_two (by norm_num)
    rw [zpow_neg, ← one_div]
    exact one_div_le_one_div_of_le (zero_lt_one.trans_le h.least) below
  have fits : e ≤ 971 := rounds.fits.mpr (most.trans_lt one_lt_overflow)
  rw [quotient, isFinite_pack rounds.canonical, magnitude_packed rounds.canonical fits]
  have upper := rounds.le_of_le (j := 1) (g := 0) (by norm_num) (by norm_num)
  rw [Nat.cast_one, zpow_zero, one_mul] at upper
  exact ⟨fits, rounds.pos tiny, upper most⟩

end
end BuildingCode.Number

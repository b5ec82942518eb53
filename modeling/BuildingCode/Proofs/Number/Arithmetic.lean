import BuildingCode.Proofs.Number.Bits

/-! Products and quotients of finite floats are the exact ones, rounded once. Of whole numbers they are so
whether the arithmetic unit is given their floats or the numbers themselves. -/
namespace BuildingCode.Number
open Float.Model Float.Model.UnpackedFloat

section
variable {m j : ℕ} {e g : ℤ} {s t : Sign}

theorem pow_log2_le_shiftLeft (filled : m ≠ 0) (n : ℕ) : 2 ^ (m.log2 + n) ≤ m <<< n := by
  rw [Nat.shiftLeft_eq, pow_add]
  exact Nat.mul_le_mul_right _ (Nat.log2_self_le filled)

/-- The mantissa is lengthened first, to fill all places there are at its size. -/
theorem exists_round (filled : m ≠ 0) (e : ℤ) (s : Sign) :
    ∃ k f, Rounds (m * 2 ^ e) k f ∧ UnpackedFloat.round .binary64 s m e = unpacked s k f := by
  let shift := (e - max (m.log2 + e - 52) (-1074)).toNat
  have long : 52 ≤ (m <<< shift).log2 ∨ e - shift ≤ -1074 := by
    by_cases low : e - shift ≤ -1074
    · exact .inr low
    · have least : 2 ^ 52 ≤ m <<< shift :=
        (Nat.pow_le_pow_right two_pos (by omega)).trans (pow_log2_le_shiftLeft filled shift)
      exact .inl ((Nat.le_log2 (by omega)).mpr least)
  obtain ⟨k, f, rounds, eq⟩ := exists_roundWithAccuracy (locates_exact (m <<< shift)) long s
  have value : (m * 2 ^ e : ℚ) = (m <<< shift : ℕ) * 2 ^ (e - shift : ℤ) := by
    rw [Nat.shiftLeft_eq, zpow_sub₀ two_ne_zero, zpow_natCast]
    push_cast
    rw [mul_assoc, mul_div_cancel₀ _ (pow_ne_zero shift two_ne_zero)]
  have aim : Format.binary64.targetExponent (totalExponent m e) = max (m.log2 + e - 52) (-1074) := by
    rw [targetExponent_eq, totalExponent]
    omega
  refine ⟨k, f, value ▸ rounds, ?_⟩
  unfold UnpackedFloat.round decreaseExponent
  rw [aim]
  exact eq

theorem exists_mul (filled : m * j ≠ 0) (long : 52 ≤ (m * j).log2 ∨ e + g ≤ -1074) (s t : Sign) :
    ∃ k f, Rounds (m * 2 ^ e * (j * 2 ^ g)) k f ∧
      UnpackedFloat.mul .binary64 (unpacked s m e) (unpacked t j g) = unpacked (s * t) k f := by
  obtain ⟨filled, filled'⟩ := Nat.mul_ne_zero_iff.mp filled
  obtain ⟨k, f, rounds, eq⟩ := exists_roundWithAccuracy (locates_exact (m * j)) long (s * t)
  have value : (m * 2 ^ e * (j * 2 ^ g) : ℚ) = (m * j : ℕ) * 2 ^ (e + g) := by
    rw [zpow_add₀ two_ne_zero]
    push_cast
    ring
  refine ⟨k, f, value ▸ rounds, ?_⟩
  rw [unpacked_of_ne_zero filled, unpacked_of_ne_zero filled', ← eq]
  rfl

theorem rounds_zero : Rounds 0 0 (-1074) := by
  have near : RoundsTo 0 0 := roundsTo_of_lt (by simp)
  have rounds := near.rounds (e := -1074) le_rfl (by norm_num) (.inr rfl)
  rwa [zero_mul] at rounds

theorem zero_mul_unpacked (s t : Sign) (j : ℕ) (g : ℤ) :
    UnpackedFloat.mul .binary64 (.zero s) (unpacked t j g) = .zero (s * t) := by
  rcases eq_or_ne j 0 with rfl | filled
  · rfl
  · rw [unpacked_of_ne_zero filled]
    rfl

theorem unpacked_mul_zero (s t : Sign) (m : ℕ) (e : ℤ) :
    UnpackedFloat.mul .binary64 (unpacked s m e) (.zero t) = .zero (s * t) := by
  rcases eq_or_ne m 0 with rfl | filled
  · rfl
  · rw [unpacked_of_ne_zero filled]
    rfl

theorem exists_mul_of_canonical (h : Canonical m e) (h' : Canonical j g) (s t : Sign) :
    ∃ k f, Rounds (m * 2 ^ e * (j * 2 ^ g)) k f ∧
      UnpackedFloat.mul .binary64 (unpacked s m e) (unpacked t j g) = unpacked (s * t) k f := by
  by_cases filled : m * j = 0
  · refine ⟨0, -1074, ?_, ?_⟩
    · rw [mul_mul_mul_comm, ← Nat.cast_mul, filled, Nat.cast_zero, zero_mul]
      exact rounds_zero
    · rcases Nat.mul_eq_zero.mp filled with rfl | rfl
      · exact zero_mul_unpacked s t j g
      · exact unpacked_mul_zero s t m e
  · refine exists_mul filled ?_ s t
    obtain ⟨some, some'⟩ := Nat.mul_ne_zero_iff.mp filled
    rcases h.full with full | rfl
    · have most := full.trans (Nat.le_mul_of_pos_right m (Nat.pos_of_ne_zero some'))
      exact .inl ((Nat.le_log2 filled).mpr most)
    · rcases h'.full with full | rfl
      · have most := full.trans (Nat.le_mul_of_pos_left j (Nat.pos_of_ne_zero some))
        exact .inl ((Nat.le_log2 filled).mpr most)
      · exact .inr (by norm_num)

theorem div_eq_whole_add {n d : ℕ} (pos : 0 < d) : (n / d : ℚ) = (n / d : ℕ) + (n % d : ℕ) / d := by
  have scale : (d : ℚ) ≠ 0 := by exact_mod_cast pos.ne'
  have whole : (d : ℚ) * (n / d : ℕ) + (n % d : ℕ) = n := by exact_mod_cast Nat.div_add_mod n d
  rw [← whole, add_div, mul_div_cancel_left₀ _ scale]

theorem locates_fraction {n d : ℕ} (pos : 0 < d) :
    Locates (.ofMantissaAndAccuracy (n / d) (accuracyOfFraction (n % d) d)) (n / d : ℚ) := by
  have scale : (0 : ℚ) < d := by exact_mod_cast pos
  have below : (n % d : ℕ) < (d : ℚ) := by exact_mod_cast Nat.mod_lt n pos
  rw [div_eq_whole_add pos]
  generalize n % d = r at *
  unfold accuracyOfFraction
  split_ifs with none
  · simp [none, Locates, ExtendedMantissa.ofMantissaAndAccuracy]
  · have some : (0 : ℚ) < r := by exact_mod_cast Nat.pos_of_ne_zero none
    have above : 0 < (r / d : ℚ) := div_pos some scale
    have within : (r / d : ℚ) < 1 := (div_lt_one₀ scale).mpr below
    rcases lt_trichotomy (2 * r) d with less | same | more
    · rw [compare_lt_iff_lt.mpr less]
      have half : (r / d : ℚ) < 1 / 2 := by
        have less : (2 * r : ℚ) < d := by exact_mod_cast less
        rw [div_lt_iff₀ scale]
        linarith
      exact ⟨lt_add_of_pos_right _ above, (add_lt_add_iff_left _).mpr half⟩
    · rw [compare_eq_iff_eq.mpr same]
      have half : (r / d : ℚ) = 1 / 2 := by
        have same : (2 * r : ℚ) = d := by exact_mod_cast same
        rw [div_eq_iff scale.ne']
        linarith
      exact congrArg _ half
    · rw [compare_gt_iff_gt.mpr more]
      have half : 1 / 2 < (r / d : ℚ) := by
        have more : (d : ℚ) < 2 * r := by exact_mod_cast more
        rw [lt_div_iff₀ scale]
        linarith
      exact ⟨(add_lt_add_iff_left _).mpr half, (add_lt_add_iff_left _).mpr within⟩

/-- The dividend is lengthened first, so that the whole part of the quotient fills all places and the remainder
only tells of what is left out. -/
theorem exists_div (filled : m ≠ 0) (filled' : j ≠ 0) (e g : ℤ) (s t : Sign) :
    ∃ k f, Rounds (m * 2 ^ e / (j * 2 ^ g)) k f ∧
      UnpackedFloat.div .binary64 (unpacked s m e) (unpacked t j g) = unpacked (s / t) k f := by
  let target : ℤ := min (e - g) (max (m.log2 + e - (j.log2 + g) - 53) (-1074))
  let shift := (e - g - target).toNat
  have amount : (shift : ℤ) = e - g - target := Int.toNat_of_nonneg (by omega)
  have pos : 0 < j := Nat.pos_of_ne_zero filled'
  have long : 52 ≤ ((m <<< shift) / j).log2 ∨ target ≤ -1074 := by
    by_cases low : target ≤ -1074
    · exact .inr low
    · have enough : j.log2 + 1 + 52 ≤ m.log2 + shift := by omega
      have least : 2 ^ 52 * j ≤ m <<< shift := by
        calc 2 ^ 52 * j ≤ 2 ^ 52 * 2 ^ (j.log2 + 1) := Nat.mul_le_mul_left _ Nat.lt_log2_self.le
          _ = 2 ^ (j.log2 + 1 + 52) := by rw [← pow_add, Nat.add_comm]
          _ ≤ 2 ^ (m.log2 + shift) := Nat.pow_le_pow_right two_pos enough
          _ ≤ m <<< shift := pow_log2_le_shiftLeft filled shift
      have quotient := (Nat.le_div_iff_mul_le pos).mpr least
      exact .inl ((Nat.le_log2 (by omega)).mpr quotient)
  have core : divCore .binary64 m e j g =
      ((m <<< shift) / j, target, accuracyOfFraction ((m <<< shift) % j) j) := by
    have aim : min (e - g) (Format.binary64.targetExponent (totalExponent m e - totalExponent j g)) =
        target := by
      rw [targetExponent_eq, totalExponent, totalExponent]
      omega
    unfold divCore
    rw [aim]
  obtain ⟨k, f, rounds, eq⟩ :=
    exists_roundWithAccuracy (locates_fraction (n := m <<< shift) pos) long (s / t)
  have value : (m * 2 ^ e / (j * 2 ^ g) : ℚ) = ((m <<< shift : ℕ) / j : ℚ) * 2 ^ target := by
    have parts : (2 : ℚ) ^ e / 2 ^ g = 2 ^ shift * 2 ^ target := by
      rw [← zpow_sub₀ two_ne_zero, ← zpow_natCast, ← zpow_add₀ two_ne_zero, amount, sub_add_cancel]
    rw [mul_div_mul_comm, parts, Nat.shiftLeft_eq]
    push_cast
    ring
  refine ⟨k, f, value ▸ rounds, ?_⟩
  rw [unpacked_of_ne_zero filled, unpacked_of_ne_zero filled', ← eq]
  change roundWithAccuracy .binary64 (s / t) (divCore .binary64 m e j g).1
    (divCore .binary64 m e j g).2.1 (divCore .binary64 m e j g).2.2 = _
  rw [core]

theorem exists_div_of_ne_zero (filled' : j ≠ 0) (m : ℕ) (e g : ℤ) (s t : Sign) :
    ∃ k f, Rounds (m * 2 ^ e / (j * 2 ^ g)) k f ∧
      UnpackedFloat.div .binary64 (unpacked s m e) (unpacked t j g) = unpacked (s / t) k f := by
  by_cases filled : m = 0
  · refine ⟨0, -1074, ?_, ?_⟩
    · rw [filled, Nat.cast_zero, zero_mul, zero_div]
      exact rounds_zero
    · rw [filled, unpacked_of_ne_zero filled']
      rfl
  · exact exists_div filled filled' e g s t

end

/-- The float that a magnitude is rounded to, with the sign of what it is the magnitude of. It is infinite if
the magnitude is too large. -/
structure Approximates (x : Float) (minus : Bool) (q : ℚ) : Prop where
  fits : x.isFinite = true ↔ q < overflow
  signed : x.isFinite = true → (Binary.ofFloat x).negative = minus
  rounds : x.isFinite = true → Rounds q (Binary.ofFloat x).mantissa (Binary.ofFloat x).exponent

/-- The exact value without its sign. -/
def magnitude (x : Float) : ℚ := (Binary.ofFloat x).mantissa * 2 ^ (Binary.ofFloat x).exponent

/-- The float is exactly a whole number, its mantissa being filled. -/
structure IsWhole (x : Float) (n : ℕ) : Prop where
  finite : x.isFinite = true
  positive : (Binary.ofFloat x).negative = false
  long : 2 ^ 52 ≤ (Binary.ofFloat x).mantissa
  value : magnitude x = n

section
variable {q : ℚ} {k n m : ℕ} {e : ℤ} {x y : Float}

theorem Rounds.approximates (h : Rounds q k e) (s : Sign) :
    Approximates (packed (unpacked s k e)) (isMinus s) q := by
  have fits := isFinite_pack h.canonical s
  refine ⟨fits.trans h.fits, fun finite => ?_, fun finite => ?_⟩ <;>
    rw [ofFloat_pack h.canonical (fits.mp finite)]
  exact h

theorem Binary.magnitude_nonneg (a : Binary) : (0 : ℚ) ≤ a.mantissa * 2 ^ a.exponent :=
  mul_nonneg (Nat.cast_nonneg _) (zpow_nonneg two_pos.le _)

theorem magnitude_nonneg (x : Float) : 0 ≤ magnitude x := (Binary.ofFloat x).magnitude_nonneg

theorem magnitude_pos_iff : 0 < magnitude x ↔ (Binary.ofFloat x).mantissa ≠ 0 := by
  rw [magnitude, mul_pos_iff_of_pos_right (zpow_pos two_pos _), Nat.cast_pos, Nat.pos_iff_ne_zero]

theorem magnitude_lt_overflow (finite : x.isFinite = true) : magnitude x < overflow := by
  have short : ((Binary.ofFloat x).mantissa : ℚ) + 1 ≤ 2 ^ 53 := by
    exact_mod_cast (canonical_ofFloat x).short
  have scale : (2 : ℚ) ^ (Binary.ofFloat x).exponent ≤ 2 ^ (971 : ℤ) :=
    zpow_le_zpow_right₀ one_le_two (exponent_ofFloat_le finite)
  calc magnitude x ≤ (Binary.ofFloat x).mantissa * 2 ^ (971 : ℤ) :=
        mul_le_mul_of_nonneg_left scale (Nat.cast_nonneg _)
    _ < overflow := mul_lt_mul_of_pos_right (by linarith) (zpow_pos two_pos _)

theorem magnitude_packed (canonical : Canonical k e) (fits : e ≤ 971) (s : Sign) :
    magnitude (packed (unpacked s k e)) = k * 2 ^ e := by
  rw [magnitude, ofFloat_pack canonical fits]

theorem exists_product (finite : x.isFinite = true) (finite' : y.isFinite = true) :
    ∃ k f, Rounds (magnitude x * magnitude y) k f ∧ x * y =
      packed (unpacked (signOf (Binary.ofFloat x).negative * signOf (Binary.ofFloat y).negative) k f) := by
  obtain ⟨k, f, rounds, eq⟩ := exists_mul_of_canonical (canonical_ofFloat x) (canonical_ofFloat y)
    (signOf (Binary.ofFloat x).negative) (signOf (Binary.ofFloat y).negative)
  rw [← unpack_of_isFinite finite, ← unpack_of_isFinite finite'] at eq
  exact ⟨k, f, rounds, congrArg packed eq⟩

theorem exists_quotient (finite : x.isFinite = true) (finite' : y.isFinite = true)
    (filled : (Binary.ofFloat y).mantissa ≠ 0) :
    ∃ k f, Rounds (magnitude x / magnitude y) k f ∧ x / y =
      packed (unpacked (signOf (Binary.ofFloat x).negative / signOf (Binary.ofFloat y).negative) k f) := by
  obtain ⟨k, f, rounds, eq⟩ := exists_div_of_ne_zero filled (Binary.ofFloat x).mantissa
    (Binary.ofFloat x).exponent (Binary.ofFloat y).exponent
    (signOf (Binary.ofFloat x).negative) (signOf (Binary.ofFloat y).negative)
  rw [← unpack_of_isFinite finite, ← unpack_of_isFinite finite'] at eq
  exact ⟨k, f, rounds, congrArg packed eq⟩

theorem isFinite_mul_iff (finite : x.isFinite = true) (finite' : y.isFinite = true) :
    (x * y).isFinite = true ↔ magnitude x * magnitude y < overflow := by
  obtain ⟨k, f, rounds, product⟩ := exists_product finite finite'
  rw [product, isFinite_pack rounds.canonical, rounds.fits]

theorem isFinite_div_iff (finite : x.isFinite = true) (finite' : y.isFinite = true)
    (some : 0 < magnitude y) : (x / y).isFinite = true ↔ magnitude x / magnitude y < overflow := by
  obtain ⟨k, f, rounds, quotient⟩ := exists_quotient finite finite' (magnitude_pos_iff.mp some)
  rw [quotient, isFinite_pack rounds.canonical, rounds.fits]

/-- Zero is no nearer to the exact product than what it is rounded to. -/
theorem magnitude_mul_le (finite : x.isFinite = true) (finite' : y.isFinite = true)
    (fits : (x * y).isFinite = true) : magnitude (x * y) ≤ 2 * (magnitude x * magnitude y) := by
  obtain ⟨k, f, rounds, product⟩ := exists_product finite finite'
  rw [product, isFinite_pack rounds.canonical] at fits
  have near := rounds.closest 0 0 (by norm_num) (by norm_num)
  rw [Nat.cast_zero, zero_mul, sub_zero,
    abs_of_nonneg (mul_nonneg (magnitude_nonneg x) (magnitude_nonneg y))] at near
  rw [product, magnitude_packed rounds.canonical fits]
  linarith [(abs_le.mp near).1]

theorem IsWhole.mul (h : IsWhole x n) (h' : IsWhole y m) : Approximates (x * y) false (n * m) := by
  obtain ⟨k, f, rounds, product⟩ := exists_product h.finite h'.finite
  rw [h.value, h'.value] at rounds
  rw [product, h.positive, h'.positive]
  exact rounds.approximates .positive

theorem IsWhole.div (h : IsWhole x n) (h' : IsWhole y m) : Approximates (x / y) false (n / m) := by
  have filled : (Binary.ofFloat y).mantissa ≠ 0 := by have := h'.long; omega
  obtain ⟨k, f, rounds, quotient⟩ := exists_quotient h.finite h'.finite filled
  rw [h.value, h'.value] at rounds
  rw [quotient, h.positive, h'.positive]
  exact rounds.approximates .positive

theorem powers_exact : ∀ i : Fin 23, let x := Float.exactlyRepresentablePowersOfTen[i.val]
    x.isFinite = true ∧ (Binary.ofFloat x).negative = false ∧ 2 ^ 52 ≤ (Binary.ofFloat x).mantissa ∧
      -52 ≤ (Binary.ofFloat x).exponent ∧
      (Binary.ofFloat x).mantissa * 2 ^ ((Binary.ofFloat x).exponent + 52).toNat =
        10 ^ i.val * 2 ^ 52 := by
  decide

theorem isWhole_power (i : Fin 23) :
    IsWhole Float.exactlyRepresentablePowersOfTen[i.val] (10 ^ i.val) := by
  obtain ⟨finite, positive, long, least, value⟩ := powers_exact i
  refine ⟨finite, positive, long, mul_right_cancel₀ (pow_ne_zero 52 two_ne_zero) ?_⟩
  have shifted (e : ℤ) (least : -52 ≤ e) : (2 : ℚ) ^ e * 2 ^ 52 = 2 ^ (e + 52).toNat := by
    calc (2 : ℚ) ^ e * 2 ^ 52 = 2 ^ (e + 52) := (zpow_add₀ two_ne_zero e 52).symm
      _ = 2 ^ ((e + 52).toNat : ℤ) := by rw [Int.toNat_of_nonneg (by omega)]
      _ = 2 ^ (e + 52).toNat := zpow_natCast _ _
  rw [magnitude, mul_assoc, shifted _ least]
  exact_mod_cast value

theorem toFloat_eq_packed (pos : 0 < n) (short : n < 2 ^ 64) :
    n.toUInt64.toFloat = packed (UnpackedFloat.round .binary64 .positive n 0) := by
  have size : n.toUInt64.toNat = n := UInt64.toNat_ofNat_of_lt' short
  change packed (UnpackedFloat.normalize .binary64 (n.toUInt64.toNat : ℤ) 0 .positive) = _
  rw [size, UnpackedFloat.normalize, compare_gt_iff_gt.mpr (by omega)]
  rfl

theorem Rounds.eq_of_short (h : Rounds n k e) (short : n < 2 ^ 53) : (k * 2 ^ e : ℚ) = n := by
  have near := h.closest n 0 short (by omega)
  rw [zpow_zero, mul_one, sub_self, abs_zero] at near
  exact (sub_eq_zero.mp (abs_nonpos_iff.mp near)).symm

theorem Rounds.fits_of_short (h : Rounds n k e) (short : n < 2 ^ 53) : e ≤ 971 := by
  have below : (n : ℚ) < 2 ^ 53 := by exact_mod_cast short
  rw [h.fits]
  calc (n : ℚ) < 2 ^ 53 := below
    _ ≤ (2 ^ 53 - 1 / 2) * 2 ^ (1 : ℤ) := by norm_num
    _ ≤ overflow := by
      have scale : (2 : ℚ) ^ (1 : ℤ) ≤ 2 ^ (971 : ℤ) := zpow_le_zpow_right₀ one_le_two (by omega)
      exact mul_le_mul_of_nonneg_left scale (by norm_num)

theorem Canonical.full_of_one_le (h : Canonical k e) (least : (1 : ℚ) ≤ k * 2 ^ e) : 2 ^ 52 ≤ k := by
  refine h.full.resolve_right ?_
  rintro rfl
  have short : (k : ℚ) < 2 ^ 53 := by exact_mod_cast h.short
  have small : (2 : ℚ) ^ (-1074 : ℤ) ≤ 2 ^ (-53 : ℤ) := zpow_le_zpow_right₀ one_le_two (by omega)
  have below : (k * 2 ^ (-1074 : ℤ) : ℚ) < 1 := by
    calc (k * 2 ^ (-1074 : ℤ) : ℚ) ≤ k * 2 ^ (-53 : ℤ) := by gcongr
      _ < 2 ^ 53 * 2 ^ (-53 : ℤ) := by gcongr
      _ = 1 := by norm_num
  exact absurd least (not_le.mpr below)

theorem isWhole_toFloat (pos : 0 < n) (short : n < 2 ^ 53) : IsWhole n.toUInt64.toFloat n := by
  obtain ⟨k, e, rounds, eq⟩ := exists_round pos.ne' 0 .positive
  rw [zpow_zero, mul_one] at rounds
  rw [toFloat_eq_packed pos (by omega), eq]
  have canonical := rounds.canonical
  have fits := rounds.fits_of_short short
  have value := rounds.eq_of_short short
  have least : (1 : ℚ) ≤ k * 2 ^ e := by
    rw [value]
    exact_mod_cast pos
  refine ⟨(isFinite_pack canonical .positive).mpr fits, ?_, ?_,
    (magnitude_packed canonical fits .positive).trans value⟩ <;> rw [ofFloat_pack canonical fits]
  · rfl
  · exact canonical.full_of_one_le least

end
end BuildingCode.Number

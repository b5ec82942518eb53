import BuildingCode.Number.Binary
import BuildingCode.Proofs.Number.Rounding

/-! The bits of a float say its exact value. The arithmetic unit takes the same value from them, and puts
together the bits of what it has rounded. -/
namespace BuildingCode.Number
open Float.Model Float.Model.UnpackedFloat

attribute [ext] Binary

def isMinus : Sign → Bool
  | .negative => true
  | .positive => false

def signOf (negative : Bool) : Sign := if negative then .negative else .positive

section
variable {k : ℕ} {e : ℤ} {s : Sign}

theorem toNat_packComponents (s : Sign) (e : BitVec 11) (m : BitVec 52) :
    (packComponents .binary64 s e m).toNat =
      (if isMinus s then 2 ^ 63 else 0) + e.toNat * 2 ^ 52 + m.toNat := by
  unfold packComponents
  simp only [BitVec.toNat_append]
  rw [← Nat.shiftLeft_add_eq_or_of_lt m.isLt, ← Nat.shiftLeft_add_eq_or_of_lt e.isLt]
  cases s <;> simp [isMinus, Sign.toBitVec, Nat.shiftLeft_eq]
  omega

theorem toNat_unpackMantissa (b : BitVec 64) :
    (@unpackMantissa .binary64 b).toNat = b.toNat % 2 ^ 52 := by
  simp [unpackMantissa]

theorem toNat_unpackExponent (b : BitVec 64) :
    (@unpackExponent .binary64 b).toNat = b.toNat / 2 ^ 52 % 2 ^ 11 := by
  simp [unpackExponent, Nat.shiftRight_eq_div_pow]

theorem toNat_unpackSign (b : BitVec 64) : (@unpackSign .binary64 b).toNat = b.toNat / 2 ^ 63 := by
  have bound := b.isLt
  change (b.extractLsb 63 63).toNat = _
  rw [BitVec.extractLsb_toNat, Nat.shiftRight_eq_div_pow]
  omega

theorem unpacked_of_ne_zero (filled : k ≠ 0) (s : Sign) (e : ℤ) :
    unpacked s k e = .finite s k e (Nat.pos_of_ne_zero filled) :=
  dif_neg filled

theorem isFinite_unpacked (s : Sign) (k : ℕ) (e : ℤ) : (unpacked s k e).isFinite = true := by
  by_cases zero : k = 0
  · rw [zero]
    rfl
  · rw [unpacked_of_ne_zero zero]
    rfl

theorem neg_unpacked (s : Sign) (k : ℕ) (e : ℤ) : (unpacked s k e).neg = unpacked (-s) k e := by
  by_cases zero : k = 0
  · rw [zero]
    rfl
  · rw [unpacked_of_ne_zero zero, unpacked_of_ne_zero zero]
    rfl

theorem unpack_bits (b : BitVec 64) : UnpackedFloat.unpack .binary64 b =
    if @unpackExponent .binary64 b = -1#_ then
      if @unpackMantissa .binary64 b = 0#_ then .infinity (.ofBitVec (@unpackSign .binary64 b))
      else .notANumber
    else if @unpackExponent .binary64 b = 0#_ then
      unpacked (.ofBitVec (@unpackSign .binary64 b)) (@unpackMantissa .binary64 b).toNat (-1074)
    else
      unpacked (.ofBitVec (@unpackSign .binary64 b)) (2 ^ 52 + (@unpackMantissa .binary64 b).toNat)
        ((@unpackExponent .binary64 b).toNat - 1075) := by
  have bias : (Format.binary64.exponentBias + Format.binary64.mantissaBitsWithoutImplicit : ℤ) = 1075 := by
    decide
  unfold UnpackedFloat.unpack
  dsimp only
  rw [bias]
  refine if_congr Iff.rfl rfl ?_
  by_cases zero : @unpackExponent .binary64 b = 0#_
  · rw [if_pos zero, if_pos zero]
    by_cases empty : @unpackMantissa .binary64 b = 0#_
    · rw [dif_pos empty, empty]
      rfl
    · have filled : (@unpackMantissa .binary64 b).toNat ≠ 0 := fun none =>
        empty (BitVec.eq_of_toNat_eq none)
      rw [dif_neg empty, unpacked_of_ne_zero filled, zero]
      rfl
  · have length : (1#1 ++ @unpackMantissa .binary64 b).toNat =
        2 ^ 52 + (@unpackMantissa .binary64 b).toNat := by
      rw [BitVec.toNat_append, ← Nat.shiftLeft_add_eq_or_of_lt (@unpackMantissa .binary64 b).isLt]
      rfl
    have filled : (1#1 ++ @unpackMantissa .binary64 b).toNat ≠ 0 := by omega
    rw [if_neg zero, if_neg zero, ← length]
    exact (unpacked_of_ne_zero filled _ _).symm

theorem unpack_of_bits {b : BitVec 64} {minus : Bool} {biased fraction : ℕ} (biased_lt : biased < 2 ^ 11)
    (fraction_lt : fraction < 2 ^ 52)
    (bits : b.toNat = (if minus then 2 ^ 63 else 0) + biased * 2 ^ 52 + fraction) :
    UnpackedFloat.unpack .binary64 b =
      if biased = 2 ^ 11 - 1 then
        if fraction = 0 then .infinity (signOf minus) else .notANumber
      else if biased = 0 then unpacked (signOf minus) fraction (-1074)
      else unpacked (signOf minus) (2 ^ 52 + fraction) (biased - 1075) := by
  have exponent := toNat_unpackExponent b
  have mantissa := toNat_unpackMantissa b
  have sign := toNat_unpackSign b
  rw [unpack_bits]
  generalize @unpackExponent .binary64 b = e at *
  generalize @unpackMantissa .binary64 b = m at *
  generalize @unpackSign .binary64 b = s at *
  have exponent : e.toNat = biased := by
    rw [exponent, bits]
    split <;> omega
  have mantissa : m.toNat = fraction := by
    rw [mantissa, bits]
    split <;> omega
  have sign : s = if minus then 1#1 else 0#1 := by
    apply BitVec.eq_of_toNat_eq
    rw [sign, bits]
    cases minus <;> simp <;> omega
  have sign : Sign.ofBitVec s = signOf minus := by
    rw [sign]
    cases minus <;> rfl
  have top : e = -1#_ ↔ biased = 2 ^ 11 - 1 := by
    rw [← exponent, ← BitVec.toNat_inj]
    rfl
  have bottom : e = 0#_ ↔ biased = 0 := by
    rw [← exponent, ← BitVec.toNat_inj]
    rfl
  have empty : m = 0#_ ↔ fraction = 0 := by
    rw [← mantissa, ← BitVec.toNat_inj]
    rfl
  simp only [sign, top, bottom, empty, exponent, mantissa]

structure HasFields (x : Float) (minus : Bool) (biased fraction : ℕ) : Prop where
  biased_lt : biased < 2 ^ 11
  fraction_lt : fraction < 2 ^ 52
  bits : x.toBits.toNat = (if minus then 2 ^ 63 else 0) + biased * 2 ^ 52 + fraction

theorem exists_fields (x : Float) : ∃ minus biased fraction, HasFields x minus biased fraction := by
  have bound : x.toBits.toNat < 2 ^ 64 := x.toBits.toBitVec.isLt
  refine ⟨decide (2 ^ 63 ≤ x.toBits.toNat), x.toBits.toNat / 2 ^ 52 % 2 ^ 11,
    x.toBits.toNat % 2 ^ 52, by omega, by omega, ?_⟩
  simp only [decide_eq_true_eq]
  split <;> omega

namespace HasFields

variable {x : Float} {minus : Bool} {biased fraction : ℕ}

theorem ofFloat (h : HasFields x minus biased fraction) : Binary.ofFloat x =
    if biased = 0 then ⟨minus, fraction, -1074⟩ else ⟨minus, 2 ^ 52 + fraction, biased - 1075⟩ := by
  obtain ⟨biased_lt, fraction_lt, bits⟩ := h
  have sign : x.toBits.toNat / 2 ^ 63 = if minus then 1 else 0 := by
    rw [bits]
    split <;> omega
  have exponent : x.toBits.toNat / 2 ^ 52 % 2 ^ 11 = biased := by
    rw [bits]
    split <;> omega
  have mantissa : x.toBits.toNat % 2 ^ 52 = fraction := by
    rw [bits]
    split <;> omega
  unfold Binary.ofFloat
  simp only [Nat.pow_eq, sign, exponent, mantissa]
  cases minus <;> rfl

theorem unpack (h : HasFields x minus biased fraction) : x.toModel.unpack =
    if biased = 2 ^ 11 - 1 then
      if fraction = 0 then .infinity (signOf minus) else .notANumber
    else if biased = 0 then unpacked (signOf minus) fraction (-1074)
    else unpacked (signOf minus) (2 ^ 52 + fraction) (biased - 1075) :=
  unpack_of_bits h.biased_lt h.fraction_lt h.bits

theorem isFinite_iff (h : HasFields x minus biased fraction) :
    x.isFinite = true ↔ biased ≠ 2 ^ 11 - 1 := by
  change x.toModel.unpack.isFinite = true ↔ _
  rw [h.unpack]
  by_cases top : biased = 2 ^ 11 - 1
  · refine iff_of_false ?_ (not_not.mpr top)
    rw [if_pos top]
    split <;> exact Bool.false_ne_true
  · refine iff_of_true ?_ top
    rw [if_neg top]
    split <;> exact isFinite_unpacked ..

end HasFields

theorem unpack_of_isFinite {x : Float} (finite : x.isFinite = true) : x.toModel.unpack =
    unpacked (signOf (Binary.ofFloat x).negative) (Binary.ofFloat x).mantissa
      (Binary.ofFloat x).exponent := by
  obtain ⟨minus, biased, fraction, fields⟩ := exists_fields x
  rw [fields.unpack, if_neg (fields.isFinite_iff.mp finite), fields.ofFloat]
  split <;> rfl

theorem canonical_ofFloat (x : Float) :
    Canonical (Binary.ofFloat x).mantissa (Binary.ofFloat x).exponent := by
  obtain ⟨minus, biased, fraction, fields⟩ := exists_fields x
  have fraction_lt := fields.fraction_lt
  rw [fields.ofFloat]
  split
  · exact ⟨by dsimp only; omega, le_rfl, .inr rfl⟩
  · exact ⟨by dsimp only; omega, by dsimp only; omega, .inl (Nat.le_add_right _ _)⟩

theorem exponent_ofFloat_le {x : Float} (finite : x.isFinite = true) : (Binary.ofFloat x).exponent ≤ 971 := by
  obtain ⟨minus, biased, fraction, fields⟩ := exists_fields x
  have below := fields.isFinite_iff.mp finite
  have biased_lt := fields.biased_lt
  rw [fields.ofFloat]
  split <;> dsimp only <;> omega

theorem ofFloat_inj {x y : Float} (same : Binary.ofFloat x = Binary.ofFloat y) : x = y := by
  obtain ⟨minus, biased, fraction, fields⟩ := exists_fields x
  obtain ⟨minus', biased', fraction', fields'⟩ := exists_fields y
  rw [fields.ofFloat, fields'.ofFloat] at same
  have bits : minus = minus' ∧ biased = biased' ∧ fraction = fraction' := by
    have := fields.fraction_lt
    have := fields'.fraction_lt
    split at same <;> split at same <;> obtain ⟨rfl, mantissa, exponent⟩ := Binary.mk.inj same <;>
      refine ⟨rfl, ?_, ?_⟩ <;> omega
  obtain ⟨rfl, rfl, rfl⟩ := bits
  have bits : x.toModel.toBits = y.toModel.toBits := UInt64.toNat_inj.mp (fields.bits.trans fields'.bits.symm)
  obtain ⟨⟨_, _⟩⟩ := x
  obtain ⟨⟨_, _⟩⟩ := y
  cases bits
  rfl

def packed (u : UnpackedFloat) : Float := .ofModel (.pack u)

theorem log2_add_one_iff (filled : k ≠ 0) (short : k < 2 ^ 53) : k.log2 + 1 = 53 ↔ 2 ^ 52 ≤ k := by
  have most := (Nat.log2_lt filled).mpr short
  rw [← Nat.le_log2 filled]
  omega

theorem pack_finite (filled : k ≠ 0) (canonical : Canonical k e) (s : Sign) :
    UnpackedFloat.pack .binary64 (unpacked s k e) =
      if 971 < e then packComponents .binary64 s (-1#_) 0#_
      else if 2 ^ 52 ≤ k then packComponents .binary64 s (.ofNat _ (e + 1075).toNat) (.ofNat _ k)
      else packComponents .binary64 s 0#_ (.ofNat _ k) := by
  have bias : (Format.binary64.exponentBias : ℤ) + Format.binary64.mantissaBitsWithoutImplicit = 1075 := by
    decide
  have least := canonical.least
  rw [unpacked_of_ne_zero filled]
  unfold UnpackedFloat.pack
  rw [add_assoc, bias]
  have tooLarge : 2 ^ Format.binary64.exponentBits ≤ (e + 1075).toNat + 1 ↔ 971 < e := by
    change 2 ^ 11 ≤ _ ↔ _
    omega
  have full : k.log2 + 1 = Format.binary64.mantissaBits ↔ 2 ^ 52 ≤ k :=
    log2_add_one_iff filled canonical.short
  simp only [tooLarge, full]
  rfl

theorem hasFields_pack (canonical : Canonical k e) (fits : e ≤ 971) (s : Sign) :
    HasFields (packed (unpacked s k e)) (isMinus s)
      (if 2 ^ 52 ≤ k then (e + 1075).toNat else 0) (k % 2 ^ 52) := by
  have least := canonical.least
  refine ⟨by split <;> omega, by omega, ?_⟩
  change (UnpackedFloat.pack .binary64 (unpacked s k e)).toNat = _
  by_cases zero : k = 0
  · subst zero
    exact toNat_packComponents s 0#_ 0#_
  · rw [pack_finite zero canonical, if_neg (by omega)]
    split <;> rw [toNat_packComponents]
    · rw [BitVec.toNat_ofNat, BitVec.toNat_ofNat, Nat.mod_eq_of_lt (by omega)]
    · rw [BitVec.toNat_ofNat]
      rfl

theorem ofFloat_pack (canonical : Canonical k e) (fits : e ≤ 971) (s : Sign) :
    Binary.ofFloat (packed (unpacked s k e)) = ⟨isMinus s, k, e⟩ := by
  obtain ⟨short, least, full⟩ := canonical
  rw [(hasFields_pack ⟨short, least, full⟩ fits s).ofFloat]
  by_cases normal : 2 ^ 52 ≤ k
  · rw [if_pos normal, if_neg (by omega)]
    congr 1
    · omega
    · omega
  · rw [if_neg normal, if_pos rfl, full.resolve_left normal, Nat.mod_eq_of_lt (by omega)]

theorem isFinite_pack (canonical : Canonical k e) (s : Sign) :
    (packed (unpacked s k e)).isFinite = true ↔ e ≤ 971 := by
  have least := canonical.least
  by_cases fits : e ≤ 971
  · refine iff_of_true ((hasFields_pack canonical fits s).isFinite_iff.mpr ?_) fits
    split <;> omega
  · have filled : k ≠ 0 := by
      have := canonical.full
      omega
    have top : HasFields (packed (unpacked s k e)) (isMinus s) (2 ^ 11 - 1) 0 := by
      refine ⟨by omega, by omega, ?_⟩
      change (UnpackedFloat.pack .binary64 (unpacked s k e)).toNat = _
      rw [pack_finite filled canonical, if_pos (by omega)]
      exact toNat_packComponents s (-1#_) 0#_
    exact iff_of_false (fun finite => top.isFinite_iff.mp finite rfl) fits

end
end BuildingCode.Number

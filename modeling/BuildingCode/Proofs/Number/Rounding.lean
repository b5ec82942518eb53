import Mathlib.Algebra.Order.Field.Power
import Mathlib.Algebra.Order.Ring.Rat
import Mathlib.Tactic.Linarith
import Mathlib.Tactic.NormNum
import Mathlib.Tactic.Ring

/-! Rounding to the nearest float. The mantissa is shortened bit by bit, and two bits tell of all that was
left out what rounding has to know. -/
namespace BuildingCode.Number
open Float.Model Float.Model.UnpackedFloat

/-- The whole number is the nearest one. Of two that are, it is the even one. -/
structure RoundsTo (x : ℚ) (n : ℕ) : Prop where
  close : |x - n| ≤ 1 / 2
  even : |x - n| = 1 / 2 → n % 2 = 0

/-- What the mantissa and its two bits say of the number that was shortened. -/
def Locates (em : ExtendedMantissa) (x : ℚ) : Prop :=
  match em.roundBit, em.stickyBit with
  | false, false => x = em.mantissa
  | false, true => em.mantissa < x ∧ x < em.mantissa + 1 / 2
  | true, false => x = em.mantissa + 1 / 2
  | true, true => em.mantissa + 1 / 2 < x ∧ x < em.mantissa + 1

section
variable {x : ℚ} {n : ℕ} {em : ExtendedMantissa}

theorem half_le_of_ne {j : ℕ} (h : RoundsTo x n) (other : j ≠ n) : 1 / 2 ≤ |x - j| := by
  have apart : (1 : ℚ) ≤ |(n : ℚ) - j| := by
    rcases Nat.lt_or_gt_of_ne other with less | more
    · have : (j : ℚ) + 1 ≤ n := by exact_mod_cast less
      exact le_trans (by linarith) (le_abs_self _)
    · have : (n : ℚ) + 1 ≤ j := by exact_mod_cast more
      exact le_trans (by linarith) (neg_le_abs _)
  have sum : |(n : ℚ) - j| ≤ |(n : ℚ) - x| + |x - j| := abs_sub_le _ _ _
  rw [abs_sub_comm (n : ℚ) x] at sum
  linarith [h.close]

theorem RoundsTo.closest (h : RoundsTo x n) (j : ℕ) : |x - n| ≤ |x - j| := by
  by_cases same : j = n
  · rw [same]
  · exact h.close.trans (half_le_of_ne h same)

theorem RoundsTo.even_of_tie {j : ℕ} (h : RoundsTo x n) (tie : |x - j| = |x - n|) (other : j ≠ n) :
    n % 2 = 0 :=
  h.even (h.close.antisymm (tie ▸ half_le_of_ne h other))

theorem Locates.shiftRightOne (h : Locates em x) : Locates em.shiftRightOne (x / 2) := by
  obtain ⟨m, r, s⟩ := em
  obtain ⟨k, rfl | rfl⟩ := m.even_or_odd'
  · have half : 2 * k / 2 = k := by omega
    have rest : 2 * k % 2 = 0 := by omega
    cases r <;> cases s <;> simp [Locates, ExtendedMantissa.shiftRightOne, half, rest] at h ⊢ <;>
      (try constructor) <;> linarith
  · have half : (2 * k + 1) / 2 = k := by omega
    have rest : (2 * k + 1) % 2 = 1 := by omega
    cases r <;> cases s <;> simp [Locates, ExtendedMantissa.shiftRightOne, half, rest] at h ⊢ <;>
      (try constructor) <;> linarith

theorem Locates.shiftRight (h : Locates em x) (k : ℕ) : Locates (em >>> k) (x / 2 ^ k) := by
  induction k with
  | zero => rwa [pow_zero, div_one]
  | succ k ih =>
    rw [pow_succ, ← div_div]
    exact ih.shiftRightOne

theorem roundsTo_of_lt {n : ℕ} (h : |x - n| < 1 / 2) : RoundsTo x n :=
  ⟨h.le, fun tie => absurd tie h.ne⟩

theorem Locates.roundsTo (h : Locates em x) : RoundsTo x em.roundedMantissa := by
  obtain ⟨m, r, s⟩ := em
  cases r <;> cases s <;> simp only [Locates] at h
  · refine roundsTo_of_lt ?_
    simp [h, ExtendedMantissa.roundedMantissa, ExtendedMantissa.accuracy, Accuracy.roundToNearestEven]
  · refine roundsTo_of_lt ?_
    simp only [ExtendedMantissa.roundedMantissa, ExtendedMantissa.accuracy,
      Accuracy.roundToNearestEven]
    rw [abs_lt]
    constructor <;> linarith
  · have rounded : ExtendedMantissa.roundedMantissa ⟨m, true, false⟩ = m + m % 2 := rfl
    have parity : (m + m % 2) % 2 = 0 := by omega
    have half : |x - (m + m % 2 : ℕ)| = 1 / 2 := by
      rcases Nat.mod_two_eq_zero_or_one m with rest | rest <;> rw [rest, h] <;> norm_num
    rw [rounded]
    exact ⟨half.le, fun _ => parity⟩
  · refine roundsTo_of_lt ?_
    simp only [ExtendedMantissa.roundedMantissa, ExtendedMantissa.accuracy,
      Accuracy.roundToNearestEven]
    push_cast
    rw [abs_lt]
    constructor <;> linarith

end

/-- A mantissa and an exponent as a finite float has them, if there were no largest exponent. -/
structure Canonical (k : ℕ) (e : ℤ) : Prop where
  short : k < 2 ^ 53
  least : -1074 ≤ e
  full : 2 ^ 52 ≤ k ∨ e = -1074

/-- Halfway between the largest float and the power of two that would come after it. From there on numbers are
too large. -/
def overflow : ℚ := (2 ^ 53 - 1 / 2) * 2 ^ (971 : ℤ)

theorem one_lt_overflow : 1 < overflow :=
  one_lt_mul_of_lt_of_le (by norm_num) (one_le_zpow₀ one_le_two (by norm_num))

theorem overflow_le : overflow ≤ 2 ^ (1024 : ℤ) := by
  calc overflow ≤ 2 ^ (53 : ℤ) * 2 ^ (971 : ℤ) :=
        mul_le_mul_of_nonneg_right (by norm_num) (zpow_pos two_pos _).le
    _ = 2 ^ (1024 : ℤ) := (zpow_add₀ two_ne_zero _ _).symm

/-- `k * 2 ^ e` is nearest to `q`, where two are the one with the even mantissa, and it is a float exactly
if `q` is not too large. -/
structure Rounds (q : ℚ) (k : ℕ) (e : ℤ) : Prop where
  canonical : Canonical k e
  closest : ∀ (j : ℕ) (g : ℤ), j < 2 ^ 53 → -1074 ≤ g → |q - k * 2 ^ e| ≤ |q - j * 2 ^ g|
  even : ∀ (j : ℕ) (g : ℤ), j < 2 ^ 53 → -1074 ≤ g → |q - j * 2 ^ g| = |q - k * 2 ^ e| →
    (j * 2 ^ g : ℚ) ≠ k * 2 ^ e → k % 2 = 0
  fits : e ≤ 971 ↔ q < overflow

section
variable {q : ℚ} {k j : ℕ} {e f : ℤ}

theorem Canonical.exponent_le (h : Canonical k e) (h' : Canonical j f)
    (le : (k * 2 ^ e : ℚ) ≤ j * 2 ^ f) : e ≤ f := by
  by_contra finer
  have full : (2 ^ 52 : ℚ) ≤ k := by
    have least := h'.least
    exact_mod_cast h.full.resolve_right (by omega)
  have short : (j : ℚ) < 2 ^ 53 := by exact_mod_cast h'.short
  have less : (j * 2 ^ f : ℚ) < k * 2 ^ e := by
    calc (j * 2 ^ f : ℚ) < 2 ^ 53 * 2 ^ f := by gcongr
      _ = 2 ^ 52 * 2 ^ (f + 1) := by rw [zpow_add_one₀ two_ne_zero]; ring
      _ ≤ 2 ^ 52 * 2 ^ e := by
        gcongr
        · exact one_le_two
        · omega
      _ ≤ k * 2 ^ e := by gcongr
  exact absurd le (not_le.mpr less)

theorem Canonical.unique (h : Canonical k e) (h' : Canonical j f)
    (same : (k * 2 ^ e : ℚ) = j * 2 ^ f) : k = j ∧ e = f := by
  obtain rfl : e = f := le_antisymm (h.exponent_le h' same.le) (h'.exponent_le h same.ge)
  have same := mul_right_cancel₀ (zpow_ne_zero e two_ne_zero) same
  exact ⟨by exact_mod_cast same, rfl⟩

theorem Canonical.between (h : Canonical k e) (h' : Canonical j f) (even : k % 2 = 0)
    (even' : j % 2 = 0) (less : (k * 2 ^ e : ℚ) < j * 2 ^ f) :
    k + 1 < 2 ^ 53 ∧ (k * 2 ^ e : ℚ) < (k + 1 : ℕ) * 2 ^ e ∧
      ((k + 1 : ℕ) * 2 ^ e : ℚ) < j * 2 ^ f := by
  have unit : (0 : ℚ) < 2 ^ e := zpow_pos two_pos e
  obtain ⟨d, rfl⟩ : ∃ d : ℕ, f = e + d :=
    ⟨(f - e).toNat, by have := h.exponent_le h' less.le; omega⟩
  have scaled : (j * 2 ^ (e + d) : ℚ) = (j * 2 ^ d : ℕ) * 2 ^ e := by
    rw [zpow_add₀ two_ne_zero, zpow_natCast]
    push_cast
    ring
  have parity : j * 2 ^ d % 2 = 0 := by rw [Nat.mul_mod, even', Nat.zero_mul]
  rw [scaled, mul_lt_mul_iff_left₀ unit] at less
  have less : k < j * 2 ^ d := by exact_mod_cast less
  have short := h.short
  refine ⟨by omega, ?_, ?_⟩
  · rw [mul_lt_mul_iff_left₀ unit]
    exact_mod_cast Nat.lt_succ_self k
  · rw [scaled, mul_lt_mul_iff_left₀ unit]
    exact_mod_cast (by omega : k + 1 < j * 2 ^ d)

theorem abs_sub_lt_of_between {a b c : ℚ} (tie : |q - a| = |q - b|) (above : a < c) (below : c < b) :
    |q - c| < |q - a| ∧ |q - c| < |q - b| := by
  have middle : q - a = b - q := by
    rcases abs_eq_abs.mp tie with same | opposite
    · linarith
    · linarith
  have inside : |q - c| < |q - a| := by
    rw [abs_of_pos (by linarith : 0 < q - a), abs_lt]
    constructor <;> linarith
  exact ⟨inside, tie ▸ inside⟩

theorem Rounds.unique (h : Rounds q k e) (canonical : Canonical j f)
    (tie : |q - j * 2 ^ f| = |q - k * 2 ^ e|)
    (even : (j * 2 ^ f : ℚ) ≠ k * 2 ^ e → j % 2 = 0) : j = k ∧ f = e := by
  by_contra apart
  have differ : (j * 2 ^ f : ℚ) ≠ k * 2 ^ e := fun same => apart (canonical.unique h.canonical same)
  have evenSelf := h.even j f canonical.short canonical.least tie differ
  rcases lt_or_gt_of_ne differ with less | more
  · obtain ⟨short, above, below⟩ := canonical.between h.canonical (even differ) evenSelf less
    have nearer := (abs_sub_lt_of_between tie above below).2
    exact absurd (h.closest (j + 1) f short canonical.least) (not_le.mpr nearer)
  · obtain ⟨short, above, below⟩ := h.canonical.between canonical evenSelf (even differ) more
    have nearer := (abs_sub_lt_of_between tie.symm above below).1
    exact absurd (h.closest (k + 1) e short h.canonical.least) (not_le.mpr nearer)

end

section
variable {x : ℚ} {n j : ℕ} {e g : ℤ}

theorem RoundsTo.of_full (h : RoundsTo x n) {m : ℕ} (full : (m : ℚ) ≤ x) : m ≤ n := by
  have near := (abs_le.mp h.close).2
  have : (m : ℚ) < n + 1 := by linarith
  exact Nat.lt_succ_iff.mp (by exact_mod_cast this)

theorem RoundsTo.of_short (h : RoundsTo x n) {m : ℕ} (short : x < m) : n ≤ m := by
  have near := (abs_le.mp h.close).1
  have : (n : ℚ) < m + 1 := by linarith
  exact Nat.lt_succ_iff.mp (by exact_mod_cast this)

/-- On another scale there is nothing nearer. A finer one is in use only for smaller numbers. -/
theorem RoundsTo.against (h : RoundsTo x n) (full : 2 ^ 52 ≤ x ∨ e = -1074) (short : j < 2 ^ 53)
    (least : -1074 ≤ g) :
    |x - n| ≤ |x - j * 2 ^ (g - e)| ∧
      (|x - j * 2 ^ (g - e)| = |x - n| → (j * 2 ^ (g - e) : ℚ) ≠ n → n % 2 = 0) := by
  rcases le_or_gt e g with coarse | fine
  · obtain ⟨d, rfl⟩ : ∃ d : ℕ, g = e + d := ⟨(g - e).toNat, by omega⟩
    have whole : (j * 2 ^ (e + d - e) : ℚ) = (j * 2 ^ d : ℕ) := by
      rw [add_sub_cancel_left, zpow_natCast]
      push_cast
      rfl
    rw [whole]
    exact ⟨h.closest _, fun tie apart => h.even_of_tie tie fun same => apart (by rw [same])⟩
  · have full : 2 ^ 52 ≤ x := full.resolve_right (by omega)
    have below : (j * 2 ^ (g - e) : ℚ) < 2 ^ 52 := by
      have short : (j : ℚ) < 2 ^ 53 := by exact_mod_cast short
      have scale : (2 : ℚ) ^ (g - e) ≤ 2 ^ (-1 : ℤ) := zpow_le_zpow_right₀ one_le_two (by omega)
      calc (j * 2 ^ (g - e) : ℚ) ≤ j * 2 ^ (-1 : ℤ) := by gcongr
        _ < 2 ^ 52 := by rw [zpow_neg_one]; linarith
    have near : |x - n| ≤ |x - (2 ^ 52 : ℕ)| := h.closest _
    have farther : |x - (2 ^ 52 : ℕ)| < |x - j * 2 ^ (g - e)| := by
      push_cast
      rw [abs_of_nonneg (by linarith), abs_of_nonneg (by linarith)]
      linarith
    exact ⟨(near.trans_lt farther).le, fun tie => absurd tie (near.trans_lt farther).ne'⟩

def carried (n : ℕ) (e : ℤ) : ℕ × ℤ := if n = 2 ^ 53 then (2 ^ 52, e + 1) else (n, e)

theorem value_carried (n : ℕ) (e : ℤ) :
    ((carried n e).1 * 2 ^ (carried n e).2 : ℚ) = n * 2 ^ e := by
  unfold carried
  split
  · next long =>
    rw [long, zpow_add_one₀ two_ne_zero]
    push_cast
    ring
  · rfl

theorem RoundsTo.canonical (h : RoundsTo x n) (least : -1074 ≤ e) (short : x < 2 ^ 53)
    (full : 2 ^ 52 ≤ x ∨ e = -1074) : Canonical (carried n e).1 (carried n e).2 := by
  have most : n ≤ 2 ^ 53 := h.of_short (by exact_mod_cast short)
  unfold carried
  split
  · exact ⟨by norm_num, by omega, .inl le_rfl⟩
  · next short => exact ⟨by omega, least, full.imp_left fun full => h.of_full (by exact_mod_cast full)⟩

theorem even_carried (even : n % 2 = 0) : (carried n e).1 % 2 = 0 := by
  unfold carried
  split
  · norm_num
  · exact even

theorem le_carried (n : ℕ) (e : ℤ) : e ≤ (carried n e).2 ∧ (carried n e).2 ≤ e + 1 := by
  unfold carried
  split
  · exact ⟨by omega, le_rfl⟩
  · exact ⟨le_rfl, by omega⟩

theorem RoundsTo.fits_largest (h : RoundsTo x n) (short : x < 2 ^ 53) :
    (carried n 971).2 ≤ 971 ↔ x < 2 ^ 53 - 1 / 2 := by
  have near := abs_le.mp h.close
  have most : n ≤ 2 ^ 53 := h.of_short (by exact_mod_cast short)
  unfold carried
  split
  · next long =>
    refine iff_of_false (by omega) (not_lt.mpr ?_)
    rw [long] at near
    push_cast at near
    linarith
  · next other =>
    refine iff_of_true le_rfl ?_
    rcases (show n = 2 ^ 53 - 1 ∨ n + 2 ≤ 2 ^ 53 by omega) with last | before
    · have strict : |x - n| ≠ 1 / 2 := fun tie => by
        have parity := h.even tie
        omega
      have below := (abs_lt.mp (h.close.lt_of_ne strict)).2
      rw [last] at below
      norm_num at below ⊢
      linarith
    · have before : (n : ℚ) + 2 ≤ 2 ^ 53 := by exact_mod_cast before
      linarith

theorem RoundsTo.fits (h : RoundsTo x n) (short : x < 2 ^ 53) (full : 2 ^ 52 ≤ x ∨ e = -1074) :
    (carried n e).2 ≤ 971 ↔ x * 2 ^ e < overflow := by
  unfold overflow
  obtain ⟨low, high⟩ := le_carried n e
  have unit (g : ℤ) : (0 : ℚ) < 2 ^ g := zpow_pos two_pos g
  have double (g : ℤ) : (2 : ℚ) ^ (g + 1) = 2 ^ g * 2 := zpow_add_one₀ two_ne_zero g
  have room {u : ℚ} (pos : 0 < u) :
      2 ^ 53 * u < (2 ^ 53 - 1 / 2) * (u * 2) ∧ (2 ^ 53 - 1 / 2) * u ≤ 2 ^ 52 * (u * 2) := by
    constructor <;> linarith
  -- A carry moves the exponent by one, which matters only at the largest.
  rcases lt_trichotomy e 971 with less | rfl | more
  · refine iff_of_true (by omega) ?_
    calc x * 2 ^ e < 2 ^ 53 * 2 ^ e := mul_lt_mul_of_pos_right short (unit e)
      _ ≤ 2 ^ 53 * 2 ^ (970 : ℤ) := by
        gcongr
        · exact one_le_two
        · omega
      _ < (2 ^ 53 - 1 / 2) * 2 ^ (970 + 1 : ℤ) := by
        rw [double]
        exact (room (unit 970)).1
  · rw [mul_lt_mul_iff_left₀ (unit 971)]
    exact h.fits_largest short
  · refine iff_of_false (by omega) (not_lt.mpr ?_)
    have full : 2 ^ 52 ≤ x := full.resolve_right (by omega)
    calc ((2 ^ 53 - 1 / 2) * 2 ^ (971 : ℤ) : ℚ) ≤ 2 ^ 52 * 2 ^ (971 + 1 : ℤ) := by
          rw [double]
          exact (room (unit 971)).2
      _ ≤ 2 ^ 52 * 2 ^ e := by
        gcongr
        · exact one_le_two
        · omega
      _ ≤ x * 2 ^ e := mul_le_mul_of_nonneg_right full (unit e).le

theorem RoundsTo.rounds (h : RoundsTo x n) (least : -1074 ≤ e) (short : x < 2 ^ 53)
    (full : 2 ^ 52 ≤ x ∨ e = -1074) :
    Rounds (x * 2 ^ e) (carried n e).1 (carried n e).2 := by
  have unit : (0 : ℚ) < 2 ^ e := zpow_pos two_pos e
  have scaled (y : ℚ) : |x * 2 ^ e - y * 2 ^ e| = |x - y| * 2 ^ e := by
    rw [← sub_mul, abs_mul, abs_of_pos unit]
  have rescaled (j : ℕ) (g : ℤ) : (j * 2 ^ g : ℚ) = j * 2 ^ (g - e) * 2 ^ e := by
    rw [mul_assoc, ← zpow_add₀ two_ne_zero, sub_add_cancel]
  refine ⟨h.canonical least short full, fun j g short least => ?_, fun j g short least => ?_,
    h.fits short full⟩
  · rw [value_carried, rescaled j, scaled, scaled]
    exact mul_le_mul_of_nonneg_right (h.against full short least).1 unit.le
  · rw [value_carried, rescaled j, scaled, scaled]
    intro tie apart
    have tie := mul_right_cancel₀ unit.ne' tie
    exact even_carried ((h.against full short least).2 tie fun same => apart (by rw [same]))

end

def unpacked (s : Sign) (k : ℕ) (e : ℤ) : UnpackedFloat :=
  if h : k = 0 then .zero s else .finite s k e (Nat.pos_of_ne_zero h)

section
variable {x : ℚ} {m n : ℕ} {e : ℤ} {em : ExtendedMantissa} {a : Accuracy}

theorem Locates.bounds (h : Locates em x) : em.mantissa ≤ x ∧ x < em.mantissa + 1 := by
  obtain ⟨m, r, s⟩ := em
  cases r <;> cases s <;> simp only [Locates] at h <;> constructor <;> linarith

theorem mantissa_ofMantissaAndAccuracy :
    (ExtendedMantissa.ofMantissaAndAccuracy m a).mantissa = m := by
  cases a with
  | exact => rfl
  | inexact o => cases o <;> rfl

theorem locates_exact (m : ℕ) : Locates (.ofMantissaAndAccuracy m .exact) m := rfl

def dropped (m : ℕ) (e : ℤ) : ℕ := (max (m.log2 + e - 52) (-1074) - e).toNat

theorem targetExponent_eq (t : ℤ) : Format.binary64.targetExponent t = max (t - 53) (-1074) := by
  have least : Format.binary64.minExponent = -1074 := by decide
  rw [Format.targetExponent, least]
  rfl

theorem shiftToTargetExponent_eq (m : ℕ) (e : ℤ) (a : Accuracy) :
    shiftToTargetExponent .binary64 m e a =
      (ExtendedMantissa.ofMantissaAndAccuracy m a >>> dropped m e, e + dropped m e) := by
  have amount : Format.binary64.targetExponent (totalExponent m e) = max (m.log2 + e - 52) (-1074) := by
    rw [targetExponent_eq, totalExponent]
    omega
  unfold shiftToTargetExponent
  rw [amount]
  rfl

theorem shift_carried (least : -1074 ≤ e) (most : n ≤ 2 ^ 53) :
    shiftToTargetExponent .binary64 n e .exact =
      (⟨(carried n e).1, false, false⟩, (carried n e).2) := by
  rw [shiftToTargetExponent_eq]
  unfold carried
  split
  · next long =>
    have one : dropped n e = 1 := by
      rw [dropped, long, Nat.log2_two_pow]
      omega
    rw [one, long]
    rfl
  · have short : n.log2 < 53 := by
      by_cases zero : n = 0
      · simp [zero]
      · exact (Nat.log2_lt zero).mpr (by omega)
    have none : dropped n e = 0 := by
      unfold dropped
      omega
    rw [none]
    simp only [Nat.cast_zero, add_zero]
    rfl

/-- What the arithmetic unit makes of an exact number is the nearest float. -/
theorem exists_roundWithAccuracy (h : Locates (.ofMantissaAndAccuracy m a) x)
    (filled : 52 ≤ m.log2 ∨ e ≤ -1074) (s : Sign) :
    ∃ k g, Rounds (x * 2 ^ e) k g ∧ roundWithAccuracy .binary64 s m e a = unpacked s k g := by
  have amount : e + dropped m e = max (m.log2 + e - 52) (-1074) := by
    unfold dropped
    omega
  have rounds := (h.shiftRight (dropped m e)).roundsTo
  obtain ⟨low, high⟩ := h.bounds
  rw [mantissa_ofMantissaAndAccuracy] at low high
  have unit : (0 : ℚ) < 2 ^ dropped m e := pow_pos two_pos _
  have short : x / 2 ^ dropped m e < 2 ^ 53 := by
    have most : m + 1 ≤ 2 ^ (53 + dropped m e) :=
      (Nat.lt_log2_self (n := m)).trans_le (Nat.pow_le_pow_right two_pos (by omega))
    rw [div_lt_iff₀ unit, ← pow_add]
    exact high.trans_le (by exact_mod_cast most)
  have full : 2 ^ 52 ≤ x / 2 ^ dropped m e ∨ e + dropped m e = -1074 := by
    by_cases lowest : e + dropped m e = -1074
    · exact .inr lowest
    · have length : m.log2 = 52 + dropped m e := by omega
      have least : 2 ^ (52 + dropped m e) ≤ m := by
        rw [← length]
        refine Nat.log2_self_le ?_
        rintro rfl
        rw [Nat.log2_zero] at length
        omega
      rw [le_div_iff₀ unit, ← pow_add]
      exact .inl (le_trans (by exact_mod_cast least) low)
  have least : -1074 ≤ e + dropped m e := by omega
  have most := rounds.of_short (m := 2 ^ 53) (by exact_mod_cast short)
  have value : x * 2 ^ e = x / 2 ^ dropped m e * 2 ^ (e + dropped m e : ℤ) := by
    rw [zpow_add₀ two_ne_zero, zpow_natCast, mul_comm ((2 : ℚ) ^ e), ← mul_assoc,
      div_mul_cancel₀ _ unit.ne']
  refine ⟨_, _, value ▸ rounds.rounds least short full, ?_⟩
  unfold roundWithAccuracy
  rw [shiftToTargetExponent_eq]
  dsimp only
  rw [shift_carried least most]
  rfl

end
end BuildingCode.Number

import BuildingCode.Proofs.Display.Trace
import BuildingCode.Proofs.Number.Order
import BuildingCode.Proofs.Number.Scaling
import BuildingCode.Proofs.Number.Whole
import BuildingCode.Proofs.Service.Results

/-! What rounding for presentation does to a number, whatever digits are asked for. With up to 308 of them
the scale is a finite power of ten, and a finite number stays one and loses the sign of a zero. With more the
scale is infinite and the number stays as it is. From `2 ^ 31` on the digits count as negative: then the scale
is zero at first and leaves no number, and later a fraction, with which numbers are rounded to tens and more.
The document of a response has numbers for its values as long as rounding leaves finite ones. -/
namespace BuildingCode.Display
open Number

def scale (digits : UInt32) : Float := wholePower 10.0 digits.toInt32.toInt

section
variable {digits : UInt32}

theorem toInt_digits (digits : UInt32) : digits.toInt32.toInt =
    if digits.toNat < 2 ^ 31 then (digits.toNat : ℤ) else digits.toNat - 2 ^ 32 := by
  change digits.toBitVec.toInt = _
  rw [BitVec.toInt_eq_toNat_cond]
  change (if 2 * digits.toNat < 2 ^ 32 then (digits.toNat : ℤ) else digits.toNat - (2 ^ 32 : ℕ)) = _
  split <;> split <;> omega

theorem scale_of_lt (small : digits.toNat < 2 ^ 31) : scale digits = tenTo digits.toNat := by
  unfold scale wholePower
  rw [toInt_digits, if_pos small]
  rfl

theorem scale_of_ge (large : 2 ^ 31 ≤ digits.toNat) :
    scale digits = 1.0 / tenTo (2 ^ 32 - digits.toNat) := by
  have bound := digits.toNat_lt
  have power : (digits.toNat - 2 ^ 32 : ℤ).natAbs = 2 ^ 32 - digits.toNat := by omega
  unfold scale wholePower
  rw [toInt_digits, if_neg (not_lt.mpr large), power]
  dsimp only
  rw [if_pos (by omega)]
  rfl

theorem scale_bounds (near : 2 ^ 32 - 308 ≤ digits.toNat) :
    (scale digits).isFinite = true ∧ 0 < magnitude (scale digits) ∧ magnitude (scale digits) ≤ 1 := by
  have power : AtLeastOne (tenTo (2 ^ 32 - digits.toNat)) := tenTo_of_le (by omega)
  rw [scale_of_ge (by omega)]
  exact power.reciprocal_bounds

theorem isFinite_mul_scale {x : Float} (finite : x.isFinite = true) (near : 2 ^ 32 - 308 ≤ digits.toNat) :
    (x * scale digits).isFinite = true := by
  obtain ⟨number, _, most⟩ := scale_bounds near
  rw [isFinite_mul_iff finite number]
  exact (mul_le_of_le_one_right (magnitude_nonneg x) most).trans_lt (magnitude_lt_overflow finite)

end

def unsigned (x : Float) : Float := if x == 0.0 then 0.0 else x

theorem roundFor_eq (digits : UInt32) (x : Float) : roundFor digits x =
    if (x * scale digits).isFinite then unsigned (nearestWhole (x * scale digits) / scale digits)
    else x := rfl

section
variable {x : Float} {digits : UInt32}

theorem unsigned_ne (x : Float) : unsigned x ≠ -0.0 := by
  unfold unsigned
  split
  · decide
  · next other =>
    rintro rfl
    exact other (by decide)

theorem isFinite_unsigned : (unsigned x).isFinite = x.isFinite := by
  unfold unsigned
  split
  · next zero => rw [isFinite_of_beq_zero zero]; rfl
  · rfl

/-- What is scaled for rounding is brought back by the same scale, and may be too large then. -/
theorem isFinite_brought_back {k : Float} (finite : k.isFinite = true) (some : 0 < magnitude k)
    (scaled : (x * k).isFinite = true) : (nearestWhole (x * k) / k).isFinite = true ↔
      ⌊magnitude (x * k) + 1 / 2⌋₊ / magnitude k < overflow := by
  obtain ⟨whole, _, value⟩ := magnitude_nearestWhole scaled
  rw [isFinite_div_iff whole finite some, value]

theorem roundFor_of_le (finite : x.isFinite = true) (few : digits.toNat ≤ 308) :
    (roundFor digits x).isFinite = true ∧ roundFor digits x ≠ -0.0 := by
  have power := tenTo_of_le few
  rw [← scale_of_lt (by omega)] at power
  rw [roundFor_eq]
  split
  · next scaled =>
    refine ⟨?_, unsigned_ne _⟩
    obtain ⟨whole, _, value⟩ := magnitude_nearestWhole scaled
    rw [isFinite_unsigned, isFinite_brought_back power.finite (by linarith [power.least]) scaled, ← value]
    exact (div_le_self (magnitude_nonneg _) power.least).trans_lt (magnitude_lt_overflow whole)
  · next scaled =>
    refine ⟨finite, ?_⟩
    rintro rfl
    refine scaled ((isFinite_mul_iff finite power.finite).mpr ?_)
    rw [magnitude_zero.2, zero_mul]
    exact zero_lt_one.trans one_lt_overflow

theorem roundFor_of_gt (finite : x.isFinite = true) (many : 308 < digits.toNat)
    (small : digits.toNat < 2 ^ 31) : roundFor digits x = x := by
  rw [roundFor_eq, scale_of_lt small, tenTo_of_gt many (by omega), isFinite_mul_infinity finite]
  exact if_neg Bool.false_ne_true

theorem roundFor_of_negative (finite : x.isFinite = true) (large : 2 ^ 31 ≤ digits.toNat)
    (beyond : digits.toNat < 2 ^ 32 - 308) : roundFor digits x = 0.0 / 0.0 := by
  have reciprocal : 1.0 / (1.0 / 0.0) = (0.0 : Float) := by decide
  have number : (0.0 : Float).isFinite = true := by decide
  rw [roundFor_eq, scale_of_ge large, tenTo_of_gt (by omega) (by omega), reciprocal]
  have scaled : (x * 0.0).isFinite = true := by
    rw [isFinite_mul_iff finite number, magnitude_zero.1, mul_zero]
    exact zero_lt_one.trans one_lt_overflow
  have none : magnitude (x * 0.0) = 0 := by
    have most := magnitude_mul_le finite number scaled
    rw [magnitude_zero.1, mul_zero, mul_zero] at most
    exact most.antisymm (magnitude_nonneg _)
  obtain ⟨whole, _, value⟩ := magnitude_nearestWhole scaled
  have value : magnitude (nearestWhole (x * 0.0)) = 0 := by
    rw [value, none]
    norm_num
  rw [if_pos scaled, zero_div_zero whole value]
  decide

theorem roundFor_of_ge (finite : x.isFinite = true) (near : 2 ^ 32 - 308 ≤ digits.toNat) :
    ((roundFor digits x).isFinite = true ↔
      ⌊magnitude (x * scale digits) + 1 / 2⌋₊ / magnitude (scale digits) < overflow) ∧
    roundFor digits x ≠ -0.0 := by
  obtain ⟨number, some, _⟩ := scale_bounds near
  have scaled := isFinite_mul_scale finite near
  rw [roundFor_eq, if_pos scaled, isFinite_unsigned]
  exact ⟨isFinite_brought_back number some scaled, unsigned_ne _⟩

/-- The number can be brought back after it was scaled and rounded. A scale of one or more only makes it
smaller again, one that is infinite is not applied, and one that is zero takes everything away. -/
def Restorable (digits : UInt32) (x : Float) : Prop :=
  digits.toNat < 2 ^ 31 ∨ 2 ^ 32 - 308 ≤ digits.toNat ∧
    ⌊magnitude (x * scale digits) + 1 / 2⌋₊ / magnitude (scale digits) < overflow

theorem isFinite_roundFor_iff (finite : x.isFinite = true) :
    (roundFor digits x).isFinite = true ↔ Restorable digits x := by
  unfold Restorable
  rcases Nat.lt_or_ge digits.toNat (2 ^ 31) with small | large
  · refine iff_of_true ?_ (.inl small)
    rcases Nat.lt_or_ge 308 digits.toNat with many | few
    · rwa [roundFor_of_gt finite many small]
    · exact (roundFor_of_le finite few).1
  · rw [or_iff_right (not_lt.mpr large)]
    rcases Nat.lt_or_ge digits.toNat (2 ^ 32 - 308) with beyond | near
    · rw [roundFor_of_negative finite large beyond]
      exact iff_of_false (by decide) fun restored => absurd restored.1 (not_le.mpr beyond)
    · rw [(roundFor_of_ge finite near).1, and_iff_right near]

theorem roundFor_eq_negative_zero_iff (finite : x.isFinite = true) :
    roundFor digits x = -0.0 ↔ 308 < digits.toNat ∧ digits.toNat < 2 ^ 31 ∧ x = -0.0 := by
  rcases Nat.lt_or_ge 308 digits.toNat with many | few
  · rcases Nat.lt_or_ge digits.toNat (2 ^ 31) with small | large
    · rw [roundFor_of_gt finite many small, and_iff_right many, and_iff_right small]
    · refine iff_of_false ?_ fun unscaled => absurd unscaled.2.1 (not_lt.mpr large)
      rcases Nat.lt_or_ge digits.toNat (2 ^ 32 - 308) with beyond | near
      · rw [roundFor_of_negative finite large beyond]
        decide
      · exact (roundFor_of_ge finite near).2
  · exact iff_of_false (roundFor_of_le finite few).2 fun unscaled => absurd unscaled.1 (not_lt.mpr few)

theorem floor_add_half_le {q : ℚ} (least : 0 ≤ q) : (⌊q + 1 / 2⌋₊ : ℚ) ≤ 2 * q := by
  have below := Nat.floor_le (by linarith : 0 ≤ q + 1 / 2)
  rcases Nat.eq_zero_or_pos ⌊q + 1 / 2⌋₊ with none | some
  · rw [none, Nat.cast_zero]
    linarith
  · have one : (1 : ℚ) ≤ ⌊q + 1 / 2⌋₊ := by exact_mod_cast some
    linarith

/-- A number is at most doubled twice, when the product is rounded and when the whole number is taken. -/
theorem restorable_of_le (finite : x.isFinite = true) (near : 2 ^ 32 - 308 ≤ digits.toNat)
    (most : magnitude x ≤ 2 ^ (1021 : ℤ)) : Restorable digits x := by
  obtain ⟨number, some, _⟩ := scale_bounds near
  have product := magnitude_mul_le finite number (isFinite_mul_scale finite near)
  have whole := floor_add_half_le (magnitude_nonneg (x * scale digits))
  refine .inr ⟨near, ?_⟩
  calc (⌊magnitude (x * scale digits) + 1 / 2⌋₊ / magnitude (scale digits) : ℚ)
      ≤ 4 * magnitude x := by
        rw [div_le_iff₀ some]
        linarith
    _ ≤ 2 ^ (2 : ℤ) * 2 ^ (1021 : ℤ) := mul_le_mul (by norm_num) most (magnitude_nonneg x) (by norm_num)
    _ = 2 ^ (52 : ℤ) * 2 ^ (971 : ℤ) := by
      rw [← zpow_add₀ two_ne_zero, ← zpow_add₀ two_ne_zero]
      rfl
    _ < overflow := mul_lt_mul_of_pos_right (by norm_num) (zpow_pos two_pos _)

end
end BuildingCode.Display

namespace BuildingCode.Json

mutual
/-- All that stands under the name, at whatever depth. -/
def under (name : String) : Json → List Json
  | .list items => underItems name items
  | .object fields => underFields name fields
  | _ => []
def underItems (name : String) : List Json → List Json
  | [] => []
  | item :: items => item.under name ++ underItems name items
def underFields (name : String) : List (String × Json) → List Json
  | [] => []
  | (field, value) :: fields =>
    (if field = name then [value] else []) ++ value.under name ++ underFields name fields
end

theorem under_ofFloat (name : String) (x : Float) : (ofFloat x).under name = [] := by
  unfold ofFloat
  split <;> rw [under] <;> exact fun _ h => Json.noConfusion h

theorem ofFloat_eq_number_iff {x : Float} : (∃ n, ofFloat x = .number n) ↔ x.isFinite = true := by
  unfold ofFloat
  split
  · next finite => exact iff_of_true ⟨_, rfl⟩ finite
  · next infinite => exact iff_of_false (fun ⟨_, h⟩ => Json.noConfusion h) infinite

end BuildingCode.Json

namespace BuildingCode.Service
open Display Formula Json

theorem Step.under_encode (s : Step) : s.encode.under "value" = [Json.ofFloat s.value] := by
  unfold Step.encode record
  cases s.unit <;> simp [under, underFields, under_ofFloat, encodeText?]

theorem underItems_encode (steps : List Step) :
    underItems "value" (steps.map Step.encode) = steps.map fun s => Json.ofFloat s.value := by
  induction steps with
  | nil => rfl
  | cons s steps ih => rw [List.map_cons, underItems, s.under_encode, ih]; rfl

theorem Response.under_encode (r : Result) : (success r).encode.under "value" =
    (r.result :: r.steps).map fun s => Json.ofFloat s.value := by
  simp [Response.encode, Result.encode, under, underFields, Step.under_encode, underItems_encode]

end BuildingCode.Service

namespace BuildingCode.Display
open Number Formula Service Expression Outcome

theorem response_numbers_iff {limits : Limits} {d : Definition} {c : Compiled} {values : Values} {r : Result}
    (compiled : compile limits d = .ok c) (computed : evaluate c values = .ok r) (digits : UInt32) :
    (∀ j ∈ (Response.ofOutcome digits (evaluate c values)).encode.under "value", ∃ n, j = .number n) ↔
      Restorable (d.resultDigits.getD digits) r.result.value ∧
        ∀ s ∈ r.steps, Restorable digits s.value := by
  have completes := completes_of_evaluate compiled computed
  have carried := digits_of_evaluate computed
  rw [definition_of_compile compiled] at carried
  rw [computed, Response.ofOutcome, Response.under_encode, List.forall_mem_map]
  simp only [Json.ofFloat_eq_number_iff, List.forall_mem_cons]
  refine and_congr ?_ ?_
  · rw [← carried]
    exact isFinite_roundFor_iff completes.finite
  · refine (List.forall_mem_map (f := Step.rounded digits)).trans (forall₂_congr fun s member => ?_)
    exact isFinite_roundFor_iff (completes.finite_steps s member)

/-- Rounding leaves a finite number exactly if it can be brought back to its scale. All finite numbers can,
unless the digits count as negative; none can where these are too many for any scale, and where they are at
most 308, all numbers up to `2 ^ 1021`. A negative zero is left only where it was given and the scale is
infinite. The response to a computation with success is a document that has numbers for all its values exactly
if all of these can be brought back, the result with the precision that its formula declares, if any. -/
theorem rounding_presentable (digits : UInt32) :
    (∀ x : Float, x.isFinite = true →
      ((roundFor digits x).isFinite = true ↔ Restorable digits x) ∧
      (2 ^ 32 - 308 ≤ digits.toNat → magnitude x ≤ 2 ^ (1021 : ℤ) → Restorable digits x) ∧
      (roundFor digits x = -0.0 ↔ 308 < digits.toNat ∧ digits.toNat < 2 ^ 31 ∧ x = -0.0)) ∧
    ∀ (limits : Limits) (d : Definition) (c : Compiled) (values : Values) (r : Result),
      compile limits d = .ok c → evaluate c values = .ok r →
        ((∀ j ∈ (Response.ofOutcome digits (evaluate c values)).encode.under "value",
            ∃ n, j = .number n) ↔
          Restorable (d.resultDigits.getD digits) r.result.value ∧
            ∀ s ∈ r.steps, Restorable digits s.value) := by
  constructor
  · intro x finite
    exact ⟨isFinite_roundFor_iff finite, restorable_of_le finite, roundFor_eq_negative_zero_iff finite⟩
  · intro limits d c values r compiled computed
    exact response_numbers_iff compiled computed digits

theorem rounding_presentable_tens : ∃ (d : Definition) (c : Compiled) (r : Result),
    (27.0 : Float).isFinite = true ∧ roundFor 4294967295 27.0 = 30.0 ∧ Restorable 4294967295 27.0 ∧
      d.resultDigits = some 4294967295 ∧ compile {} d = .ok c ∧
      evaluate c [("a", .number 27.0)] = .ok r ∧ r.result.value = 27.0 ∧
      ∀ j ∈ (Response.ofOutcome 6 (evaluate c [("a", .number 27.0)])).encode.under "value",
        ∃ n, j = .number n := by
  let d : Definition :=
    { id := "length", title := "Length", displayExpression := "a", resultLabel := "R"
      resultDigits := some 4294967295, params := [{ name := "a", label := "Length" }]
      expression := "a" }
  have finite : (27.0 : Float).isFinite = true := by decide
  have tens : roundFor 4294967295 27.0 = 30.0 := by decide +kernel
  have restorable : Restorable 4294967295 27.0 :=
    ((rounding_presentable 4294967295).1 27.0 finite).1.mp (by rw [tens]; decide)
  have shown : (match compile {} d with
    | .ok c => (evaluate c [("a", .number 27.0)]).toOption.map (·.result.value)
    | .error _ => none) = some 27.0 := by decide +kernel
  cases compiled : compile {} d with
  | error fault =>
    rw [compiled] at shown
    cases shown
  | ok c =>
    rw [compiled] at shown
    obtain ⟨r, computed, value⟩ := Option.map_eq_some_iff.mp shown
    have computed : evaluate c [("a", .number 27.0)] = .ok r := by
      cases outcome : evaluate c [("a", .number 27.0)] <;> simp_all [Except.toOption]
    refine ⟨d, c, r, finite, tens, restorable, rfl, compiled, computed, value, ?_⟩
    refine ((rounding_presentable 6).2 {} d c _ r compiled computed).mpr ⟨?_, fun s _ => .inl (by decide)⟩
    rw [value]
    exact restorable

/-- An infinite scale leaves a negative zero, a scale of zero no number, and a fraction may leave an infinity.
A document has no number for the last two. -/
theorem rounding_unpresentable :
    (-0.0 : Float).isFinite = true ∧ roundFor 400 (-0.0) = -0.0 ∧
      (1.0 : Float).isFinite = true ∧ (roundFor 2147483648 1.0).isFinite = false ∧
      (1.7e308 : Float).isFinite = true ∧ (roundFor 4294966988 1.7e308).isFinite = false ∧
      ∃ (d : Definition) (c : Compiled), d.resultDigits = some 2147483648 ∧ compile {} d = .ok c ∧
        (Response.ofOutcome 6 (evaluate c [])).encode.render =
        "\x7b\"ok\":true,\"result\":\x7b\"result\":\x7b\"label\":\"R\",\"value\":null\x7d,\"steps\":[]\x7d\x7d" := by
  refine ⟨by decide, by decide +kernel, by decide, by decide +kernel, by decide +kernel, by decide +kernel, ?_⟩
  let d : Definition :=
    { id := "one", title := "One", displayExpression := "1", resultLabel := "R"
      resultDigits := some 2147483648, params := [], expression := "1" }
  have shown : (compile {} d).toOption.map
      (fun c => (Response.ofOutcome 6 (evaluate c [])).encode.render) = some
      "\x7b\"ok\":true,\"result\":\x7b\"result\":\x7b\"label\":\"R\",\"value\":null\x7d,\"steps\":[]\x7d\x7d" := by
    decide +kernel
  cases compiled : compile {} d with
  | error fault =>
    rw [compiled] at shown
    cases shown
  | ok c =>
    rw [compiled] at shown
    exact ⟨d, c, rfl, compiled, Option.some.inj shown⟩

end BuildingCode.Display

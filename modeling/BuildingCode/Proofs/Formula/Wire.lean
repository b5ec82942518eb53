import BuildingCode.Formula.Wire
import BuildingCode.Proofs.Json.Records

/-! Formulas in documents come back from there, whatever options are absent and whatever texts they
hold, exactly if their numbers read back. -/
namespace BuildingCode.Formula
open Json

section
variable {s : Option String} {x : Option Float} {n : Option UInt32}

@[simp] theorem decodeText?_encodeText? : decodeText? (encodeText? s) = some s := by
  cases s <;> rfl

@[simp] theorem nullable_encodeDigits? : nullable asWord (encodeDigits? n) = some n := by
  cases n with
  | none => rfl
  | some n =>
    change (asWord (Json.ofNat n.toNat)).map some = _
    rw [asWord_ofNat]
    rfl

theorem nullable_encodeFloat?_iff :
    nullable asFloat (encodeFloat? x) = some x ↔ ∀ y ∈ x.toList, ReadsBack y := by
  cases x with
  | none => simp [encodeFloat?, nullable]
  | some y =>
    simp only [Option.toList_some, List.forall_mem_singleton, ReadsBack]
    change nullable asFloat (some (Json.ofFloat y)) = some (some y) ↔ _
    unfold Json.ofFloat
    split <;> simp [nullable, asFloat]

@[simp] theorem legible_encodeText? : LegibleSlot (encodeText? s) := by
  cases s <;> simp [encodeText?, LegibleSlot]

@[simp] theorem legible_encodeFloat? : LegibleSlot (encodeFloat? x) := by
  cases x <;> simp [encodeFloat?, LegibleSlot]

@[simp] theorem legible_encodeDigits? : LegibleSlot (encodeDigits? n) := by
  cases n <;> simp [encodeDigits?, LegibleSlot]

end

namespace Parameter

def numbers (p : Parameter) : List Float := p.min.toList ++ p.max.toList

theorem decode_encode_iff (p : Parameter) :
    decode p.encode = some p ↔ ∀ x ∈ p.numbers, ReadsBack x := by
  rw [numbers, List.forall_mem_append, ← nullable_encodeFloat?_iff, ← nullable_encodeFloat?_iff]
  unfold decode encode
  rw [slots_record rfl]
  obtain ⟨name, label, unit, min, max, placeholder⟩ := p
  simp [Option.bind_eq_some_iff]

theorem legible_encode (p : Parameter) : p.encode.Legible := by
  refine legible_record ?_
  simp

end Parameter

namespace Intermediate

@[simp] theorem decode_encode (i : Intermediate) : decode i.encode = some i := by
  unfold decode encode
  rw [slots_record rfl]
  simp

theorem legible_encode (i : Intermediate) : i.encode.Legible := by
  refine legible_record ?_
  simp

end Intermediate

section
variable {ps : List Parameter} {is : List Intermediate}

def parameterNumbers (ps : List Parameter) : List Float := ps.flatMap Parameter.numbers

theorem decodeParams_encodeParams_iff :
    decodeParams (encodeParams ps) = some ps ↔ ∀ x ∈ parameterNumbers ps, ReadsBack x := by
  unfold decodeParams encodeParams parameterNumbers
  rw [asListOf_map_iff, List.forall_mem_flatMap]
  simp only [Parameter.decode_encode_iff]

@[simp] theorem legible_encodeParams : (encodeParams ps).Legible :=
  legible_map fun p _ => p.legible_encode

@[simp] theorem defaulted_encodeIntermediates? :
    defaulted [] decodeIntermediates (encodeIntermediates? is) = some is := by
  cases is with
  | nil => rfl
  | cons i is => exact asListOf_map_iff.mpr fun i _ => i.decode_encode

@[simp] theorem legible_encodeIntermediates? : LegibleSlot (encodeIntermediates? is) := by
  cases is with
  | nil => simp [encodeIntermediates?, LegibleSlot]
  | cons i is => exact legibleSlot_some.mpr (legible_map fun i _ => i.legible_encode)

end

namespace Definition

def numbers (d : Definition) : List Float := parameterNumbers d.params

theorem ofSlots_fields_iff (d : Definition) :
    ofSlots d.id (d.fields.map (·.2)) = some d ↔ ∀ x ∈ d.numbers, ReadsBack x := by
  rw [numbers, ← decodeParams_encodeParams_iff]
  unfold ofSlots fields
  obtain ⟨_⟩ := d
  simp [Option.bind_eq_some_iff]

theorem legible_fields (d : Definition) : ∀ f ∈ d.fields, LegibleSlot f.2 := by
  simp [fields]

theorem decode_encode_iff (d : Definition) :
    decode d.encode = some d ↔ ∀ x ∈ d.numbers, ReadsBack x := by
  rw [← ofSlots_fields_iff]
  unfold decode encode
  rw [slots_record rfl]
  rfl

theorem legible_encode (d : Definition) : d.encode.Legible := by
  refine legible_record (List.forall_mem_cons.mpr ⟨?_, d.legible_fields⟩)
  simp

end Definition

namespace Draft

def numbers (d : Draft) : List Float := parameterNumbers d.params

theorem decode_encode_iff (d : Draft) :
    decode d.encode = some d ↔ ∀ x ∈ d.numbers, ReadsBack x := by
  rw [numbers, ← decodeParams_encodeParams_iff]
  unfold decode encode
  rw [slots_record rfl]
  obtain ⟨_⟩ := d
  simp [Option.bind_eq_some_iff]

theorem legible_encode (d : Draft) : d.encode.Legible := by
  refine legible_record ?_
  simp

end Draft

namespace RawValue

def numbers : RawValue → List Float
  | .number x => [x]
  | .text _ => []

theorem decode_encode_iff (v : RawValue) :
    decode v.encode = some v ↔ ∀ x ∈ v.numbers, ReadsBack x := by
  cases v with
  | number x =>
    simp only [numbers, List.forall_mem_singleton, ReadsBack, encode]
    unfold Json.ofFloat
    split <;> simp [decode, asFloat]
  | text s => simp [decode, encode, numbers]

theorem legible_encode (v : RawValue) : v.encode.Legible := by
  cases v <;> simp [encode]

end RawValue

namespace Values

def numbers (vs : Values) : List Float := vs.flatMap (·.2.numbers)

theorem decode_encode_iff (vs : Values) :
    decode vs.encode = some vs ↔ ∀ x ∈ vs.numbers, ReadsBack x := by
  have each (v : String × RawValue) : (RawValue.decode v.2.encode).map (v.1, ·) = some v ↔
      ∀ x ∈ v.2.numbers, ReadsBack x := by
    rw [← RawValue.decode_encode_iff]
    cases RawValue.decode v.2.encode <;> simp [Prod.ext_iff]
  change (vs.map fun v => (v.1, v.2.encode)).mapM
    (fun f => (RawValue.decode f.2).map (f.1, ·)) = some vs ↔ _
  rw [mapM_map_eq_some_iff, numbers, List.forall_mem_flatMap]
  simp only [each]

theorem legible_encode (vs : Values) : vs.encode.Legible := by
  refine legible_object fun f mem => ?_
  obtain ⟨v, _, rfl⟩ := List.mem_map.mp mem
  exact v.2.legible_encode

end Values
end BuildingCode.Formula

import BuildingCode.Clause.Wire
import BuildingCode.Proofs.Formula.Wire
import BuildingCode.Service.Wire
import BuildingCode.Store.Record

/-! What is stored and sent in documents comes back from their texts: drafts, formulas, custom formulas,
requests and clauses. -/
namespace BuildingCode
open Formula Json

namespace Store.CustomFormula

def numbers (r : CustomFormula) : List Float := r.definition.numbers

theorem decode_encode_iff (r : CustomFormula) :
    decode r.encode = some r ↔ ∀ x ∈ r.numbers, ReadsBack x := by
  rw [numbers, ← Definition.ofSlots_fields_iff]
  unfold decode encode
  rw [slots_record rfl]
  change ((Definition.ofSlots r.definition.id (r.definition.fields.map (·.2))).bind fun d =>
    some ⟨d, r.scope, r.isActive⟩) = some r ↔ _
  obtain ⟨d, scope, isActive⟩ := r
  simp [Option.bind_eq_some_iff]

theorem legible_encode (r : CustomFormula) : r.encode.Legible := by
  refine legible_record (List.forall_mem_append.mpr ⟨?_, by simp⟩)
  rw [List.forall_mem_cons, List.forall_mem_cons]
  exact ⟨by simp, by simp, r.definition.legible_fields⟩

end Store.CustomFormula

namespace Service.Request

def numbers (r : Request) : List Float := r.values.numbers

theorem decode_encode_iff (r : Request) :
    decode r.encode = some r ↔ ∀ x ∈ r.numbers, ReadsBack x := by
  rw [numbers, ← Values.decode_encode_iff]
  unfold decode encode
  rw [slots_record rfl]
  obtain ⟨blockId, values, scope⟩ := r
  simp [Option.bind_eq_some_iff]

theorem legible_encode (r : Request) : r.encode.Legible := by
  refine legible_record ?_
  simp [r.values.legible_encode]

end Service.Request

namespace Clause

theorem Record.decode_encode (r : Record) : decode r.encode = some r := by
  obtain ⟨id, parent, title⟩ := r
  cases parent <;> rfl

theorem Record.legible_encode (r : Record) : r.encode.Legible := by
  obtain ⟨id, parent, title⟩ := r
  refine legible_object ?_
  cases parent <;> simp [fields, encodeParent, Legible]

end Clause

open Clause Service Store

/-- Drafts, formulas, custom formulas and requests come back from their texts exactly if the numbers in
them read back, and lists of clauses always come back. -/
theorem recovered_iff_readsBack :
    (∀ d : Draft, Recovered Draft.encode Draft.decode d ↔ ∀ x ∈ d.numbers, ReadsBack x) ∧
    (∀ d : Definition,
      Recovered Definition.encode Definition.decode d ↔ ∀ x ∈ d.numbers, ReadsBack x) ∧
    (∀ r : CustomFormula,
      Recovered CustomFormula.encode CustomFormula.decode r ↔ ∀ x ∈ r.numbers, ReadsBack x) ∧
    (∀ r : Request, Recovered Request.encode Request.decode r ↔ ∀ x ∈ r.numbers, ReadsBack x) ∧
    ∀ rs : List Record, Recovered encodeRecords (asListOf Record.decode) rs := by
  refine ⟨fun d => ?_, fun d => ?_, fun r => ?_, fun r => ?_, fun rs => ?_⟩
  · rw [recovered_iff d.legible_encode, d.decode_encode_iff]
  · rw [recovered_iff d.legible_encode, d.decode_encode_iff]
  · rw [recovered_iff r.legible_encode, r.decode_encode_iff]
  · rw [recovered_iff r.legible_encode, r.decode_encode_iff]
  · have legible : (encodeRecords rs).Legible := legible_map fun r _ => r.legible_encode
    rw [recovered_iff legible]
    exact asListOf_map_iff.mpr fun r _ => r.decode_encode

example : ReadsBack 0.1 ∧ ReadsBack (-0.0) ∧ ¬ReadsBack 1.2345678901237607 := by decide +kernel

end BuildingCode

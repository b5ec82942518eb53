import BuildingCode.Proofs.Outcome
import BuildingCode.Proofs.Service.Recovery

/-! A request whose values are texts survives its way through a body, so it is answered there as it is
without one. And a response tells by its text whether it is a success. -/
namespace BuildingCode
open Formula Json

/-- Every value was entered as a text. -/
def Formula.Values.AreTexts (vs : Values) : Prop := ∀ v ∈ vs, ∃ text, v.2 = .text text

theorem Formula.Values.AreTexts.numbers_eq_nil {vs : Values} (texts : vs.AreTexts) :
    vs.numbers = [] := by
  refine List.flatMap_eq_nil_iff.mpr fun v mem => ?_
  obtain ⟨text, same⟩ := texts v mem
  rw [same]
  rfl

namespace Service

theorem answerBody_encode (s : Service) {r : Request} (texts : r.values.AreTexts) (digits : UInt32) :
    s.answerBody r.encode.render digits = s.respond digits r := by
  have recovered : Recovered Request.encode Request.decode r := by
    rw [recovered_iff r.legible_encode, r.decode_encode_iff, Request.numbers, texts.numbers_eq_nil]
    simp
  unfold answerBody
  rw [recovered]

/-- A response that reads like a success is one. -/
theorem Response.eq_success_of_render {a : Response} {shown : Result}
    (same : a.encode.render = (success shown).encode.render) : ∃ r, a = success r := by
  cases a with
  | success r => exact ⟨r, rfl⟩
  | failure code messages =>
    have texts := String.ofList_injective same
    simp [encode, record, put, putText] at texts

theorem Response.result_of_ofOutcome {digits : UInt32} {o : Except ComputeFault Result}
    {shown : Result} (h : ofOutcome digits o = success shown) :
    ∃ r, o = .ok r ∧ shown = r.rounded digits := by
  cases o with
  | error fault => cases h
  | ok r =>
    cases h
    exact ⟨r, rfl, rfl⟩

theorem found_of_respond {s : Service} {digits : UInt32} {r : Request} {shown : Result}
    (answered : (s.respond digits r).1 = .success shown) :
    ∃ c result, (s.formulaFor r).1 = .ok c ∧ evaluate c r.values = .ok result ∧
      shown = result.rounded digits := by
  unfold respond at answered
  split at answered
  · obtain ⟨result, computed, rounded⟩ := Response.result_of_ofOutcome answered
    obtain ⟨c, found, evaluated⟩ := Outcome.bind_eq_ok.mp computed
    exact ⟨c, result, found, evaluated, rounded⟩
  · cases answered

end Service
end BuildingCode

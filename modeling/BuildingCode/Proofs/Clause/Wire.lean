import BuildingCode.Clause.Wire
import BuildingCode.Proofs.Clause.Id
import BuildingCode.Proofs.Json.Records

/-! Clause numbers in documents. Whatever bound a number was parsed under, documents are read under the
default one, so a number comes back from its document exactly if the default bound admits it. -/
namespace BuildingCode.Clause
open Json

def returned (id : ClauseId) : Option (Except ClauseFault ClauseId) :=
  (Json.parse (encodeId id).render).bind decodeId

theorem returned_eq (id : ClauseId) : returned id = some
    (if defaultTopSegment < id.top then .error (.topSegmentOutOfRange id.top defaultTopSegment)
      else .ok id) := by
  have legible : (encodeId id).Legible := legible_text id.text
  rw [returned, parse_render legible, Option.bind_some, ← id.parse_text defaultTopSegment]
  rfl

/-- A parsed number and all that enclose it come back from documents exactly if its first segment is
within the default bound, as it is if the number was parsed under no wider one; if not, the reader says
by which segment the default bound is exceeded. -/
theorem returned_of_parse {bound : UInt32} {label : String} {id : ClauseId}
    (parsed : ClauseId.parse bound label = .ok id) :
    (∀ q ∈ id :: id.ancestors, returned q = some (.ok q) ↔ id.top ≤ defaultTopSegment) ∧
    (bound ≤ defaultTopSegment → id.top ≤ defaultTopSegment) ∧
    (defaultTopSegment < id.top → ∀ q ∈ id :: id.ancestors,
      returned q = some (.error (.topSegmentOutOfRange id.top defaultTopSegment))) := by
  have top : ∀ q ∈ id :: id.ancestors, q.top = id.top :=
    List.forall_mem_cons.mpr ⟨rfl, ClauseId.top_of_mem_ancestors⟩
  refine ⟨fun q mem => ?_, fun narrow => ?_, fun beyond q mem => ?_⟩
  · rw [returned_eq, top q mem, ← UInt32.not_lt]
    split <;> simp_all
  · exact UInt32.le_trans (ClauseId.parse_eq_ok_iff.mp parsed).2 narrow
  · rw [returned_eq, top q mem, if_pos beyond]

theorem returned_of_parse_widest :
    let near : ClauseId := ⟨[⟨50, by decide⟩, ⟨3, by decide⟩], List.cons_ne_nil _ _, by decide⟩
    let far : ClauseId := ⟨[⟨51, by decide⟩, ⟨3, by decide⟩], List.cons_ne_nil _ _, by decide⟩
    ClauseId.parse 0xFFFFFFFF "50.3" = .ok near ∧ ClauseId.parse 0xFFFFFFFF "51.3" = .ok far ∧
      returned near = some (.ok near) ∧
      ∃ above, far.parent = some above ∧ ∀ q ∈ [far, above],
        returned q = some (.error (.topSegmentOutOfRange 51 50)) := by
  intro near far
  have read : ClauseId.parse 0xFFFFFFFF "50.3" = .ok near := by decide +kernel
  have read' : ClauseId.parse 0xFFFFFFFF "51.3" = .ok far := by decide +kernel
  let above : ClauseId := ⟨[⟨51, by decide⟩], List.cons_ne_nil _ _, by decide⟩
  have parent : far.parent = some above := rfl
  have inside : ∀ q ∈ [far, above], q ∈ far :: far.ancestors := by
    rw [ClauseId.ancestors_of_parent parent]
    simp
  refine ⟨read, read', ?_, above, parent, fun q mem => ?_⟩
  · exact ((returned_of_parse read).1 near List.mem_cons_self).mpr (by decide)
  · exact (returned_of_parse read').2.2 (by decide) q (inside q mem)

/-- A number above the default bound is lost in its document. -/
theorem returned_beyond_default :
    let id : ClauseId := ⟨[⟨51, by decide⟩], List.cons_ne_nil _ _, by decide⟩
    ClauseId.parse 51 "51" = .ok id ∧ returned id = some (.error (.topSegmentOutOfRange 51 50)) := by
  intro id
  exact ⟨by decide +kernel, by rw [returned_eq]; rfl⟩

end BuildingCode.Clause

import BuildingCode.Proofs.Clause.Assembly
import Mathlib.Data.List.NodupEquivFin
import Mathlib.Data.Set.List

/-! What an assembled forest holds. The parent links lead down from the root to certain places of the
record list; the nodes of the forest are the records at these places, each place once, and the
records under an id stand under its node in the order of the list. -/
namespace BuildingCode.Clause

/-- The places that parent links lead down to from the root. -/
inductive Reached (records : List Record) (root : Option String) : Fin records.length → Prop
  | top {i} : (records.get i).parent = root → Reached records root i
  | child {i j} : Reached records root i → (records.get j).parent = some (records.get i).id →
      Reached records root j

variable {records : List Record} {root : Option String} {seen : Entered} {f : Forest}

theorem eq_of_get_eq {p : Record → Bool} {i j : Fin records.length}
    (once : (records.filter p).Nodup) (here : p (records.get i))
    (same : records.get i = records.get j) : i = j := by
  by_contra apart
  have twice : List.Duplicate (records.get i) records := by
    rw [List.duplicate_iff_exists_distinct_get]
    rcases lt_or_gt_of_ne apart with before | after
    · exact ⟨i, j, before, rfl, same⟩
    · exact ⟨j, i, after, same, rfl⟩
  have many := List.duplicate_iff_two_le_count.mp twice
  rw [← List.count_filter here] at many
  have few := List.nodup_iff_count_le_one.mp once (records.get i)
  omega

namespace Grown

section
variable (grown : Grown (childrenOf records) (records.filter (·.parent == root)) ∅ seen f)
include grown

theorem mem_flatten_iff {r : Record} :
    r ∈ f.flatten ↔ ∃ i, Reached records root i ∧ records.get i = r := by
  constructor
  · intro mem
    refine grown.traced (Q := fun r => ∃ i, Reached records root i ∧ records.get i = r) ?_ ?_ r mem
    · intro r mem
      obtain ⟨mem, parent⟩ := List.mem_filter.mp mem
      obtain ⟨i, rfl⟩ := List.mem_iff_get.mp mem
      exact ⟨i, .top (beq_iff_eq.mp parent), rfl⟩
    · rintro p ⟨i, reached, rfl⟩ q child
      obtain ⟨mem, parent⟩ := mem_childrenOf.mp child
      obtain ⟨j, rfl⟩ := List.mem_iff_get.mp mem
      exact ⟨j, .child reached parent, rfl⟩
  · rintro ⟨i, reached, rfl⟩
    induction reached with
    | top parent =>
      refine grown.accounts.mem_iff.mpr (List.mem_append_left _ ?_)
      exact List.mem_filter.mpr ⟨List.get_mem _ _, beq_iff_eq.mpr parent⟩
    | child _ parent ih =>
      refine grown.accounts.mem_iff.mpr (List.mem_append_right _ ?_)
      exact List.mem_flatMap.mpr ⟨_, ih, mem_childrenOf.mpr ⟨List.get_mem _ _, parent⟩⟩

theorem nodup_siblings : (records.filter (·.parent == root)).Nodup ∧
    ∀ q ∈ f.flatten, (childrenOf records q.id).Nodup := by
  have all := (grown.accounts.nodup_iff).mp (List.Nodup.of_map _ grown.distinct)
  obtain ⟨roots, below, _⟩ := List.nodup_append.mp all
  exact ⟨roots, (List.nodup_flatMap.mp below).1⟩

/-- No record stands at two places that the links lead to: its siblings would hold it twice. -/
theorem eq_of_reached {i j : Fin records.length} (hi : Reached records root i)
    (same : records.get i = records.get j) : i = j := by
  cases hi with
  | top parent => exact eq_of_get_eq grown.nodup_siblings.1 (beq_iff_eq.mpr parent) same
  | child above parent =>
    have inside := grown.mem_flatten_iff.mpr ⟨_, above, rfl⟩
    exact eq_of_get_eq (grown.nodup_siblings.2 _ inside) (decide_eq_true parent) same

theorem exists_places : ∃ places : List (Fin records.length), places.Nodup ∧
    (∀ i, i ∈ places ↔ Reached records root i) ∧ places.map records.get = f.flatten := by
  obtain ⟨places, holds⟩ : f.flatten ∈ Set.range
      (List.map fun i : {i // Reached records root i} => records.get i.1) := by
    rw [Set.range_list_map]
    intro r mem
    obtain ⟨i, reached, same⟩ := grown.mem_flatten_iff.mp mem
    exact ⟨⟨i, reached⟩, same⟩
  have holds : (places.map Subtype.val).map records.get = f.flatten := by
    rw [List.map_map]
    exact holds
  refine ⟨places.map Subtype.val, ?_, ?_, holds⟩
  · refine List.Nodup.of_map records.get ?_
    rw [holds]
    exact List.Nodup.of_map _ grown.distinct
  · intro i
    constructor
    · intro mem
      obtain ⟨place, _, rfl⟩ := List.mem_map.mp mem
      exact place.2
    · intro reached
      have mem := grown.mem_flatten_iff.mpr ⟨i, reached, rfl⟩
      rw [← holds] at mem
      obtain ⟨j, mem, same⟩ := List.mem_map.mp mem
      rwa [grown.eq_of_reached reached same.symm]

theorem reached_of_isReached {i : Fin records.length}
    (found : isReached root seen (records.get i) = true) : Reached records root i := by
  rcases isReached_eq_true_iff.mp found with parent | ⟨p, entered, parent⟩
  · exact .top parent
  · obtain empty | ⟨q, mem, rfl⟩ := (grown.mem_iff p).mp entered
    · simp at empty
    · obtain ⟨j, reached, rfl⟩ := grown.mem_flatten_iff.mp mem
      exact .child reached parent

end
end Grown

theorem grown_of_assemble (h : assemble records root = .ok f) : ∃ seen,
    Grown (childrenOf records) (records.filter (·.parent == root)) ∅ seen f ∧
      unreachedFault records (records.filter fun r => !isReached root seen r) root.isNone =
        none := by
  obtain ⟨seen, walk, clear⟩ := assemble_eq_ok_iff.mp h
  exact ⟨seen, grown_walkOver walk, clear⟩

/-- An assembled forest has one node for each place that the links lead to, which for a whole document
are all places; no id stands twice in it; and its siblings are all the records under their parent, in
the order of the list. -/
theorem assemble_places (h : assemble records root = .ok f) :
    (∃ places : List (Fin records.length), places.Nodup ∧
      (∀ i, i ∈ places ↔ Reached records root i) ∧
      f.nodes.map Node.record = places.map records.get) ∧
    (root = none → ∀ i, Reached records root i) ∧
    (f.nodes.map Node.id).Nodup ∧
    f.map Node.record = records.filter (·.parent == root) ∧
    ∀ n ∈ f.nodes, n.children.map Node.record = records.filter (·.parent == some n.id) := by
  obtain ⟨seen, grown, clear⟩ := grown_of_assemble h
  refine ⟨?_, ?_, ?_, grown.roots, ?_⟩
  · obtain ⟨places, nodup, mem_iff, holds⟩ := grown.exists_places
    exact ⟨places, nodup, mem_iff, by rw [holds, Forest.flatten_eq_map_nodes]⟩
  · rintro rfl i
    have all := List.filter_eq_nil_iff.mp (unreachedFault_eq_none_iff.mp clear)
    exact grown.reached_of_isReached (by simpa using all _ (records.get_mem i))
  · rw [Forest.map_id_nodes]
    exact grown.distinct
  · intro n mem
    rw [grown.below n mem, childrenOf_eq_filter]

theorem assemble_places_subtree :
    let records : List Record := [⟨"6.2", some "6", "Welds"⟩, ⟨"6", none, "Joints"⟩,
      ⟨"6.2.1", some "6.2", "Seams"⟩, ⟨"6.1", some "6", "Bolts"⟩]
    ∃ f, assemble records (some "6") = .ok f ∧
      f.map Node.record = [⟨"6.2", some "6", "Welds"⟩, ⟨"6.1", some "6", "Bolts"⟩] ∧
      ∃ places : List (Fin 4), places.Nodup ∧
        (∀ i, i ∈ places ↔ Reached records (some "6") i) ∧
        f.nodes.map Node.record = places.map records.get := by
  intro records
  have fine : (assemble records (some "6")).isOk = true := by decide +kernel
  cases made : assemble records (some "6") with
  | error e =>
    rw [made] at fine
    cases fine
  | ok f =>
    obtain ⟨⟨places, nodup, mem_iff, holds⟩, _, _, roots, _⟩ := assemble_places made
    exact ⟨f, rfl, roots, places, nodup, mem_iff, holds⟩

end BuildingCode.Clause

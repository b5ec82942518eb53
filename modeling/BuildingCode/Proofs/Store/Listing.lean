import BuildingCode.Proofs.Sorting
import BuildingCode.Proofs.Store.Settled
import Mathlib.Data.String.Basic

/-! What a settled store lists for a scope: the active records of the scope, each once and in ascending order,
and each answered for under its own id. -/
namespace BuildingCode.Store
open Formula Expression

variable {limits : Limits} {s : FormulaStore} {r : CustomFormula} {rs : List CustomFormula}
  {scope id : String}

theorem lastEntry_eq_none_iff : lastEntry limits rs id = none ↔ ∀ r ∈ rs, r.id ≠ id := by
  rw [lastEntry, Option.map_eq_none_iff, List.find?_eq_none]
  simp

theorem lastEntry_of_unique (mem : r ∈ rs) (unique : ∀ q ∈ rs, q.id = r.id → q = r) :
    lastEntry limits rs r.id = some (compile limits r.definition) := by
  cases found : rs.reverse.find? (·.id == r.id) with
  | none => exact absurd (beq_self_eq_true r.id) (List.find?_eq_none.mp found r (by simpa using mem))
  | some q =>
    have listed : q ∈ rs := List.mem_reverse.mp (List.mem_of_find?_eq_some found)
    have named : q.id = r.id := by simpa using List.find?_some found
    rw [lastEntry, found, unique q listed named]
    rfl

namespace CustomFormula

/-- The comparison behind the order of a listing: titles first, then ids. -/
def order : CustomFormula → CustomFormula → Ordering :=
  compareLex (compareOn CustomFormula.title) (compareOn CustomFormula.id)

instance : Std.TransCmp order := by
  unfold order
  infer_instance

variable {a b : CustomFormula}

theorem order_eq_lt_iff : a.order b = .lt ↔ a.title < b.title ∨ a.title = b.title ∧ a.id < b.id := by
  change (compare a.title b.title).then (compare a.id b.id) = .lt ↔ _
  rw [Ordering.then_eq_lt, compare_lt_iff_lt, compare_lt_iff_lt, Std.LawfulEqCmp.compare_eq_iff_eq]

theorem id_eq_of_order (same : a.order b = .eq) : a.id = b.id :=
  Std.LawfulEqCmp.eq_of_compare (compareLex_eq_eq.mp same).2

end CustomFormula

namespace FormulaStore

theorem values_eq_map_toList (s : FormulaStore) : s.records.values = s.records.toList.map Prod.snd := by
  change s.records.foldr (fun _ r rs => r :: rs) [] = _
  rw [Std.TreeMap.foldr_eq_foldr_toList, List.map_eq_foldr]

theorem mem_values_iff : r ∈ s.records.values ↔ ∃ k, s.get? k = some r := by
  simp only [values_eq_map_toList, List.mem_map, Prod.exists, exists_eq_right,
    Std.TreeMap.mem_toList_iff_getElem?_eq_some, get?]

theorem pairwise_isLE_active (s : FormulaStore) (scope : String) :
    (s.active scope).Pairwise fun a b => (a.order b).isLE :=
  @Sorting.pairwise_mergeSort _ CustomFormula.order _ _

namespace Settled

theorem map_id_values (settled : s.Settled) : s.records.values.map CustomFormula.id = s.records.keys := by
  rw [values_eq_map_toList, List.map_map, ← Std.TreeMap.map_fst_toList_eq_keys]
  refine List.map_congr_left ?_
  rintro ⟨k, r⟩ mem
  exact (settled k r (Std.TreeMap.mem_toList_iff_getElem?_eq_some.mp mem)).1

theorem nodup_map_id_active (settled : s.Settled) (scope : String) :
    ((s.active scope).map CustomFormula.id).Nodup := by
  have stored : (s.records.values.map CustomFormula.id).Nodup :=
    settled.map_id_values ▸ Std.TreeMap.nodup_keys
  exact ((List.mergeSort_perm _ _).map _).nodup_iff.mpr (stored.sublist (List.filter_sublist.map _))

theorem pairwise_active (settled : s.Settled) (scope : String) : (s.active scope).Pairwise fun a b =>
    a.title < b.title ∨ a.title = b.title ∧ a.id < b.id := by
  have apart : (s.active scope).Pairwise fun a b => a.order b ≠ .eq :=
    (List.pairwise_map.mp (settled.nodup_map_id_active scope)).imp
      fun apart same => apart (CustomFormula.id_eq_of_order same)
  exact (Sorting.pairwise_lt (s.pairwise_isLE_active scope) apart).imp CustomFormula.order_eq_lt_iff.mp

theorem mem_active_iff (settled : s.Settled) :
    r ∈ s.active scope ↔ s.get? r.id = some r ∧ r.isActive = true ∧ r.scope = scope := by
  rw [active, List.mem_mergeSort, List.mem_filter, mem_values_iff, Bool.and_eq_true, beq_iff_eq]
  refine and_congr_left' ⟨?_, fun found => ⟨r.id, found⟩⟩
  rintro ⟨k, found⟩
  obtain ⟨rfl, _⟩ := settled k r found
  exact found

theorem lastEntry_active (settled : s.Settled) (listed : r ∈ s.active scope) (limits : Limits) :
    lastEntry limits (s.active scope) r.id = some (compile limits r.definition) := by
  refine lastEntry_of_unique listed ?_
  intro q mem same
  have here := (settled.mem_active_iff.mp listed).1
  rw [← same, (settled.mem_active_iff.mp mem).1] at here
  exact Option.some.inj here

theorem lastEntry_elsewhere (settled : s.Settled) (listed : lastEntry limits (s.active scope) id ≠ none)
    {other : String} (elsewhere : other ≠ scope) : lastEntry limits (s.active other) id = none := by
  refine lastEntry_eq_none_iff.mpr ?_
  intro q mem named
  refine listed (lastEntry_eq_none_iff.mpr ?_)
  intro r mem' named'
  obtain ⟨here, _, rfl⟩ := settled.mem_active_iff.mp mem
  obtain ⟨there, _, rfl⟩ := settled.mem_active_iff.mp mem'
  rw [named] at here
  rw [named', here] at there
  exact elsewhere (congrArg CustomFormula.scope (Option.some.inj there))

end Settled
end FormulaStore
end BuildingCode.Store

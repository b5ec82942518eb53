import BuildingCode.Proofs.Clause.Label
import BuildingCode.Proofs.Clause.Rebuild
import BuildingCode.Proofs.Sorting

/-! The order in which records are stored. It decides which fault is found first and how siblings lie
before they are sorted, but neither whether the records make up a forest nor what the forest is once
its siblings are sorted. -/
namespace BuildingCode.Clause
open Relation

namespace Node

variable {a b : Node}

theorem precedes_trans (a b c : Node) (ab : a.precedes b) (bc : b.precedes c) : a.precedes c :=
  Std.TransCmp.isLE_trans ab bc

theorem precedes_total (a b : Node) : (a.precedes b || b.precedes a) = true :=
  Sorting.isLE_total a.id b.id

theorem id_eq_of_precedes (ab : a.precedes b) (ba : b.precedes a) : a.id = b.id :=
  Std.LawfulEqCmp.eq_of_compare (Std.OrientedCmp.isLE_antisymm ab ba)

end Node

namespace Forest

variable {f g cs cs' ns ns' : Forest}

theorem mergeSort_precedes_congr (distinct : (f.map Node.id).Nodup) (same : f.Perm g) :
    f.mergeSort Node.precedes = g.mergeSort Node.precedes := by
  have sorted (h : Forest) : (h.mergeSort Node.precedes).Pairwise fun a b => a.precedes b :=
    List.pairwise_mergeSort Node.precedes_trans Node.precedes_total h
  have moved := (List.mergeSort_perm f Node.precedes).trans
    (same.trans (List.mergeSort_perm g Node.precedes).symm)
  refine moved.eq_of_pairwise ?_ (sorted f) (sorted g)
  intro a b left right ab ba
  have left : a ∈ f := (List.mergeSort_perm f Node.precedes).subset left
  have right : b ∈ f := same.symm.subset ((List.mergeSort_perm g Node.precedes).subset right)
  exact List.inj_on_of_nodup_map distinct left right (Node.id_eq_of_precedes ab ba)

/-- The same records, hanging together in the same way: what the siblings of a forest are, sorted
inside, does not tell in which order they stand. -/
structure Reordered (f g : Forest) : Prop where
  flatten : f.flatten.Perm g.flatten
  each : (f.map Node.sorted).Perm (g.map Node.sorted)

namespace Reordered

theorem of_perm (same : f.Perm g) : Reordered f g where
  flatten := by
    rw [flatten_eq_map_nodes, flatten_eq_map_nodes]
    exact (nodes_perm same).map _
  each := same.map _

theorem trans {h : Forest} (fg : Reordered f g) (gh : Reordered g h) : Reordered f h :=
  ⟨fg.flatten.trans gh.flatten, fg.each.trans gh.each⟩

theorem sorted_eq (h : Reordered f g) (distinct : (f.map Node.id).Nodup) : f.sorted = g.sorted := by
  rw [sorted, sorted, sortedEach_eq_map, sortedEach_eq_map]
  refine mergeSort_precedes_congr ?_ h.each
  rw [List.map_map]
  simpa [Function.comp_def] using distinct

theorem cons (r : Record) (distinct : (cs.map Node.id).Nodup) (below : Reordered cs cs')
    (beside : Reordered ns ns') : Reordered (.mk r cs :: ns) (.mk r cs' :: ns') where
  flatten := by
    rw [flatten_cons, flatten_cons]
    exact (below.flatten.append beside.flatten).cons r
  each := by
    rw [List.map_cons, List.map_cons, sorted_mk, sorted_mk, below.sorted_eq distinct]
    exact beside.each.cons _

end Reordered

theorem sublist_nodes (f : Forest) : f.Sublist f.nodes := by
  induction f with
  | nil => exact .slnil
  | cons n ns ih =>
    cases n
    rw [nodes_cons]
    exact (ih.trans (List.sublist_append_right _ _)).cons_cons _

end Forest

variable {records records' : List Record} {root : Option String}

theorem exists_reordered (same : records.Perm records') {f : Forest} {tops : List Record}
    (distinct : (f.nodes.map Node.id).Nodup)
    (below : ∀ n ∈ f.nodes, n.children.map Node.record = childrenOf records n.id)
    (top : tops.Perm (f.map Node.record)) :
    ∃ g : Forest, g.map Node.record = tops ∧ f.Reordered g ∧
      ∀ n ∈ g.nodes, n.children.map Node.record = childrenOf records' n.id := by
  induction f using Forest.induction generalizing tops with
  | nil =>
    obtain rfl := top.eq_nil
    exact ⟨[], rfl, .of_perm .nil, by simp⟩
  | cons r cs ns ihBelow ihBeside =>
    obtain ⟨_, distinctBelow, distinctBeside, _⟩ := Forest.distinct_cons.mp distinct
    rw [Forest.nodes_cons, List.forall_mem_cons, List.forall_mem_append] at below
    obtain ⟨under, belowBelow, belowBeside⟩ := below
    obtain ⟨before, after, rfl⟩ := List.append_of_mem (top.symm.subset List.mem_cons_self)
    have others : (before ++ after).Perm (ns.map Node.record) :=
      (List.perm_middle.symm.trans top).cons_inv
    have within : (childrenOf records' r.id).Perm (cs.map Node.record) := by
      rw [show cs.map Node.record = childrenOf records r.id from under]
      exact (same.filter _).symm
    obtain ⟨cs', children, inside, belowInside⟩ := ihBelow distinctBelow belowBelow within
    obtain ⟨ns', siblings, outside, belowOutside⟩ := ihBeside distinctBeside belowBeside others
    obtain ⟨left, right, rfl, rfl, rfl⟩ := List.map_eq_append_iff.mp siblings
    -- The node goes where its record stands among the new siblings.
    have moved : Forest.Reordered (.mk r cs' :: (left ++ right)) (left ++ .mk r cs' :: right) :=
      .of_perm List.perm_middle.symm
    refine ⟨left ++ .mk r cs' :: right, by simp, ?_, ?_⟩
    · have distinct := distinctBelow.sublist (cs.sublist_nodes.map Node.id)
      exact (Forest.Reordered.cons r distinct inside outside).trans moved
    · intro n mem
      rw [Forest.nodes_append, Forest.nodes_cons, List.mem_append, List.mem_cons,
        List.mem_append] at mem
      rw [Forest.nodes_append, List.forall_mem_append] at belowOutside
      rcases mem with mem | rfl | mem | mem
      · exact belowOutside.1 n mem
      · exact children
      · exact belowInside n mem
      · exact belowOutside.2 n mem

theorem unreachedFault_eq_none_congr {unreached unreached' : List Record} {whole : Bool}
    (same : unreached.Perm unreached') : unreachedFault records unreached whole = none ↔
      unreachedFault records' unreached' whole = none := by
  have linked : Linked unreached = Linked unreached' := by
    funext v w
    simp only [Linked, same.mem_iff]
  rw [unreachedFault_eq_none_iff_linked, unreachedFault_eq_none_iff_linked, linked]
  exact and_congr_left' (imp_congr_right fun _ => ⟨fun h => (h ▸ same.symm).eq_nil,
    fun h => (h ▸ same).eq_nil⟩)

section
variable {seen seen' : Entered} {f g : Forest}

theorem Grown.length_flatten_le
    (grown : Grown (childrenOf records) (records.filter (·.parent == root)) ∅ seen f) :
    f.flatten.length ≤ records.length := by
  obtain ⟨places, nodup, _, holds⟩ := grown.exists_places
  rw [← holds, List.length_map]
  simpa using nodup.length_le_card

theorem Grown.isReached_eq {roots roots' : List Record}
    (grown : Grown (childrenOf records) roots ∅ seen f)
    (grown' : Grown (childrenOf records') roots' ∅ seen' g) (same : f.flatten.Perm g.flatten) :
    isReached root seen = isReached root seen' := by
  have entered : ∀ x, x ∈ seen ↔ x ∈ seen' := by
    intro x
    rw [grown.mem_iff, grown'.mem_iff]
    simp only [same.mem_iff]
  funext r
  rw [Bool.eq_iff_iff, isReached_eq_true_iff, isReached_eq_true_iff]
  simp only [entered]

end

theorem exists_assemble_reordered (same : records.Perm records') {f : Forest}
    (h : assemble records root = .ok f) :
    ∃ g, assemble records' root = .ok g ∧ f.sorted = g.sorted := by
  obtain ⟨seen, grown, clear⟩ := grown_of_assemble h
  have distinct : (f.nodes.map Node.id).Nodup := f.map_id_nodes ▸ grown.distinct
  have top : (records'.filter (·.parent == root)).Perm (f.map Node.record) :=
    grown.roots ▸ (same.filter _).symm
  obtain ⟨g, tops, reordered, below⟩ := exists_reordered same distinct grown.below top
  have distinct' : (g.nodes.map Node.id).Nodup := by
    rw [g.map_id_nodes]
    exact (reordered.flatten.map _).nodup_iff.mp grown.distinct
  obtain ⟨seen', walk⟩ : ∃ seen',
      walkOver records' (records'.filter (·.parent == root)) = .ok (g, seen') := by
    rw [← tops]
    refine exists_growAll_of_below ?_ distinct' (by simp) fun n mem => (below n mem).symm
    rw [← reordered.flatten.length_eq, ← same.length_eq]
    exact grown.length_flatten_le
  have grown' := grown_walkOver walk
  refine ⟨g, assemble_eq_ok_iff.mpr ⟨seen', walk, ?_⟩, ?_⟩
  · refine (unreachedFault_eq_none_congr ?_).mp clear
    rw [grown.isReached_eq grown' reordered.flatten]
    exact same.filter _
  · exact reordered.sorted_eq (distinct.sublist (f.sublist_nodes.map Node.id))

/-- Whether records make up a forest does not depend on their order, and neither does the forest once
its siblings are sorted. -/
theorem assemble_reordered (same : records.Perm records') (root : Option String) :
    ((∃ f, assemble records root = .ok f) ↔ ∃ g, assemble records' root = .ok g) ∧
    ∀ f g, assemble records root = .ok f → assemble records' root = .ok g → f.sorted = g.sorted := by
  refine ⟨⟨?_, ?_⟩, ?_⟩
  · rintro ⟨f, made⟩
    obtain ⟨g, made', _⟩ := exists_assemble_reordered same made
    exact ⟨g, made'⟩
  · rintro ⟨g, made⟩
    obtain ⟨f, made', _⟩ := exists_assemble_reordered same.symm made
    exact ⟨f, made'⟩
  · intro f g made made'
    obtain ⟨g', again, sorted⟩ := exists_assemble_reordered same made
    cases made'.symm.trans again
    exact sorted

theorem assemble_reordered_reverse :
    let records : List Record := [⟨"10", none, "Fatigue"⟩, ⟨"6.2", some "6", "Welds"⟩,
      ⟨"6", none, "Joints"⟩, ⟨"6.1", some "6", "Bolts"⟩, ⟨"Annex", none, "Tables"⟩]
    records.Perm records.reverse ∧ ∃ f g, assemble records none = .ok f ∧
      assemble records.reverse none = .ok g ∧ f.map Node.record = [records[0], records[2], records[4]] ∧
      g.map Node.record = [records[4], records[2], records[0]] ∧ f.sorted = g.sorted := by
  intro records
  have same : records.Perm records.reverse := records.reverse_perm.symm
  have fine : (assemble records none).isOk = true := by decide +kernel
  cases made : assemble records none with
  | error e =>
    rw [made] at fine
    cases fine
  | ok f =>
    obtain ⟨again, equal⟩ := assemble_reordered same none
    obtain ⟨g, made'⟩ := again.mp ⟨f, made⟩
    obtain ⟨_, grown, _⟩ := grown_of_assemble made
    obtain ⟨_, grown', _⟩ := grown_of_assemble made'
    exact ⟨same, f, g, rfl, made', grown.roots, grown'.roots, equal f g made made'⟩

end BuildingCode.Clause

import BuildingCode.Proofs.Clause.Placement

/-! Flattened and assembled again, a forest is what it was, provided that its ids are distinct and
every record names as its parent what it stands under. Assembled forests are like this, and sorting
them does not change it. -/
namespace BuildingCode.Clause

/-- Ids are distinct and not that of the root, and every record names what it stands under. -/
structure Forest.Consistent (f : Forest) (root : Option String) : Prop where
  distinct : (f.nodes.map Node.id).Nodup
  outside : ∀ n ∈ f.nodes, some n.id ≠ root
  top : ∀ n ∈ f, n.record.parent = root
  below : ∀ n ∈ f.nodes, ∀ c ∈ n.children, c.record.parent = some n.id

namespace Forest

variable {f cs ns : Forest} {root : Option String} {r : Record} {n : Node}

theorem distinct_cons : ((nodes (.mk r cs :: ns)).map Node.id).Nodup ↔
    (∀ n, n ∈ cs.nodes ∨ n ∈ ns.nodes → n.id ≠ r.id) ∧ (cs.nodes.map Node.id).Nodup ∧
      (ns.nodes.map Node.id).Nodup ∧ ∀ n ∈ cs.nodes, ∀ m ∈ ns.nodes, n.id ≠ m.id := by
  rw [nodes_cons, List.map_cons, List.nodup_cons, List.map_append, List.nodup_append]
  simp only [← List.map_append, List.mem_map, List.mem_append, not_exists, not_and, ne_eq,
    forall_exists_index, and_imp, forall_apply_eq_imp_iff₂, Node.id_mk]

namespace Consistent

theorem inside (h : Consistent (.mk r cs :: ns) root) : cs.Consistent (some r.id) := by
  obtain ⟨new, distinct, _, _⟩ := distinct_cons.mp h.distinct
  refine ⟨distinct, ?_, ?_, ?_⟩
  · intro n mem same
    exact new n (.inl mem) (Option.some.inj same)
  · exact h.below (.mk r cs) (by simp)
  · intro n mem
    exact h.below n (by simp [mem])

theorem beside (h : Consistent (.mk r cs :: ns) root) : ns.Consistent root := by
  obtain ⟨_, _, distinct, _⟩ := distinct_cons.mp h.distinct
  refine ⟨distinct, ?_, ?_, ?_⟩
  · intro n mem
    exact h.outside n (by simp [mem])
  · intro n mem
    exact h.top n (List.mem_cons_of_mem _ mem)
  · intro n mem
    exact h.below n (by simp [mem])

theorem parent_of_mem (h : f.Consistent root) :
    ∀ r ∈ f.flatten, r.parent = root ∨ ∃ n ∈ f.nodes, r.parent = some n.id := by
  refine forall_flatten ?_ ?_
  · intro n mem
    exact .inl (h.top n mem)
  · intro n mem _ c child
    exact .inr ⟨n, mem, h.below n mem c child⟩

theorem filter_eq_nil (h : f.Consistent root) {parent : Option String} (above : parent ≠ root)
    (foreign : ∀ n ∈ f.nodes, some n.id ≠ parent) : f.flatten.filter (·.parent == parent) = [] := by
  rw [List.filter_eq_nil_iff]
  intro r mem here
  have here := beq_iff_eq.mp here
  rcases h.parent_of_mem r mem with same | ⟨n, inside, same⟩
  · exact above (here.symm.trans same)
  · exact foreign n inside (same.symm.trans here)

theorem filter_root (h : f.Consistent root) :
    f.flatten.filter (·.parent == root) = f.map Node.record := by
  induction f using induction with
  | nil => rw [flatten_nil, List.filter_nil, List.map_nil]
  | cons r cs ns _ ih =>
    have first : r.parent = root := h.top _ List.mem_cons_self
    have under : cs.flatten.filter (·.parent == root) = [] :=
      h.inside.filter_eq_nil (h.outside (.mk r cs) (by simp)).symm
        fun n mem => h.outside n (by simp [mem])
    rw [flatten_cons, List.filter_cons, if_pos (beq_iff_eq.mpr first), List.filter_append, under,
      ih h.beside, List.nil_append, List.map_cons, Node.record_mk]

theorem filter_children (h : f.Consistent root) (mem : n ∈ f.nodes) :
    f.flatten.filter (·.parent == some n.id) = n.children.map Node.record := by
  induction f using induction generalizing root with
  | nil => cases mem
  | cons r cs ns ihBelow ihBeside =>
    obtain ⟨new, _, _, apart⟩ := distinct_cons.mp h.distinct
    have other : r.parent ≠ some n.id := by
      rw [show r.parent = root from h.top _ List.mem_cons_self]
      exact (h.outside n mem).symm
    rw [flatten_cons, List.filter_cons_of_neg (by simpa using other), List.filter_append]
    rw [nodes_cons, List.mem_cons, List.mem_append] at mem
    rcases mem with rfl | mem | mem
    · have rest : ns.flatten.filter (·.parent == some r.id) = [] :=
        h.beside.filter_eq_nil (h.outside (.mk r cs) (by simp))
          fun m mem same => new m (.inr mem) (Option.some.inj same)
      rw [Node.id_mk, rest, List.append_nil]
      exact h.inside.filter_root
    · have rest : ns.flatten.filter (·.parent == some n.id) = [] :=
        h.beside.filter_eq_nil (h.outside n (by simp [mem]))
          fun m mem' same => apart n mem m mem' (Option.some.inj same).symm
      rw [rest, List.append_nil]
      exact ihBelow h.inside mem
    · have rest : cs.flatten.filter (·.parent == some n.id) = [] :=
        h.inside.filter_eq_nil (fun same => new n (.inr mem) (Option.some.inj same))
          fun m mem' same => apart m mem' n mem (Option.some.inj same)
      rw [rest, List.nil_append]
      exact ihBeside h.beside mem

theorem sorted (h : f.Consistent root) : f.sorted.Consistent root where
  distinct := by
    have same : (f.sorted.nodes.map Node.id).Perm (f.nodes.map Node.id) := by
      rw [map_id_nodes, map_id_nodes]
      exact f.flatten_sorted_perm.map _
    exact same.nodup_iff.mpr h.distinct
  outside n mem := by
    obtain ⟨m, inside, rfl⟩ := List.mem_map.mp (f.nodes_sorted_perm.mem_iff.mp mem)
    rw [Node.id_sorted]
    exact h.outside m inside
  top n mem := by
    obtain ⟨m, inside, rfl⟩ := List.mem_map.mp (f.sorted_perm.mem_iff.mp mem)
    rw [Node.record_sorted]
    exact h.top m inside
  below n mem c child := by
    obtain ⟨⟨r, cs⟩, inside, rfl⟩ := List.mem_map.mp (f.nodes_sorted_perm.mem_iff.mp mem)
    rw [sorted_mk] at child
    obtain ⟨m, under, rfl⟩ := List.mem_map.mp ((sorted_perm cs).mem_iff.mp child)
    rw [Node.id_sorted, Node.record_sorted]
    exact h.below _ inside m under

end Consistent
end Forest

variable {records : List Record} {root : Option String} {f : Forest}

theorem exists_growAll_of_below {children : String → List Record} {levels : Nat}
    {path : List String} {seen : Entered} (room : f.flatten.length ≤ levels)
    (distinct : (f.nodes.map Node.id).Nodup) (fresh : ∀ n ∈ f.nodes, n.id ∉ seen)
    (below : ∀ n ∈ f.nodes, children n.id = n.children.map Node.record) :
    ∃ seen', growAll (grow children levels path) (f.map Node.record) seen = .ok (f, seen') := by
  induction f using Forest.induction generalizing levels path seen with
  | nil => exact ⟨seen, rfl⟩
  | cons r cs ns ihBelow ihBeside =>
    obtain ⟨new, distinctBelow, distinctBeside, apart⟩ := Forest.distinct_cons.mp distinct
    rw [Forest.nodes_cons, List.forall_mem_cons, List.forall_mem_append] at fresh below
    obtain ⟨free, freshBelow, freshBeside⟩ := fresh
    obtain ⟨under, belowBelow, belowBeside⟩ := below
    rw [Forest.flatten_cons, List.length_cons, List.length_append] at room
    obtain ⟨levels, rfl⟩ : ∃ l, levels = l + 1 := ⟨levels - 1, by omega⟩
    have entered : ∀ n ∈ cs.nodes, n.id ∉ seen.insert r.id := by
      intro n mem old
      rcases mem_insert.mp old with same | old
      · exact new n (.inl mem) same
      · exact freshBelow n mem old
    obtain ⟨between, inside⟩ : ∃ between,
        growAll (grow children levels (r.id :: path)) (cs.map Node.record) (seen.insert r.id) =
          .ok (cs, between) :=
      ihBelow (by omega) distinctBelow entered belowBelow
    have first : grow children (levels + 1) path r seen = .ok (.mk r cs, between) :=
      grow_of_growAll free (under.symm ▸ inside)
    have grown := grown_grow (levels + 1) path r seen _ _ first
    have unentered : ∀ n ∈ ns.nodes, n.id ∉ between := by
      intro n mem old
      rcases (grown.mem_iff _).mp old with old | ⟨q, grew, same⟩
      · exact freshBeside n mem old
      · rw [Forest.flatten_cons, Forest.flatten_nil, List.append_nil, List.mem_cons] at grew
        rcases grew with rfl | grew
        · exact new n (.inr mem) same.symm
        · obtain ⟨m, mem', rfl⟩ := Forest.mem_flatten.mp grew
          exact apart m mem' n mem same
    obtain ⟨last, rest⟩ : ∃ last,
        growAll (grow children (levels + 1) path) (ns.map Node.record) between = .ok (ns, last) :=
      ihBeside (by omega) distinctBeside unentered belowBeside
    exact ⟨last, growAll_cons first rest⟩

theorem assemble_of_consistent (h : f.Consistent root) : assemble f.flatten root = .ok f := by
  obtain ⟨seen, walk⟩ : ∃ seen, walkOver f.flatten (f.map Node.record) = .ok (f, seen) := by
    refine exists_growAll_of_below le_rfl h.distinct (by simp) ?_
    intro n mem
    rw [childrenOf_eq_filter, h.filter_children mem]
  have grown := grown_walkOver walk
  refine assemble_eq_ok_iff.mpr ⟨seen, by rwa [h.filter_root], ?_⟩
  -- Everything hangs under the root or under a node, and all nodes were entered.
  rw [List.filter_eq_nil_iff.mpr]
  · rfl
  · intro r mem
    rw [Bool.not_eq_true', Bool.not_eq_false, isReached_eq_true_iff]
    refine (h.parent_of_mem r mem).imp_right ?_
    rintro ⟨n, inside, parent⟩
    have listed : n.record ∈ f.flatten := Forest.mem_flatten.mpr ⟨n, inside, rfl⟩
    exact ⟨n.id, (grown.mem_iff _).mpr (.inr ⟨n.record, listed, rfl⟩), parent⟩

/-- Whatever stands under the root is at the top, so no node has the id of the root: the tree around
it would be found among its children. -/
theorem id_ne_root_of_assemble (h : assemble records root = .ok f) :
    ∀ n ∈ f.nodes, some n.id ≠ root := by
  intro n mem same
  obtain ⟨_, grown, _⟩ := grown_of_assemble h
  have children : n.children.map Node.record = f.map Node.record := by
    rw [grown.below n mem, childrenOf_eq_filter, same, grown.roots]
  obtain ⟨tree, atTop, inside⟩ := List.mem_flatMap.mp (f.nodes_eq_flatMap ▸ mem)
  obtain ⟨child, under, twin⟩ := List.mem_map.mp (children ▸ List.mem_map_of_mem atTop)
  have distinct : (f.nodes.map Node.id).Nodup := f.map_id_nodes ▸ grown.distinct
  obtain rfl : child = tree :=
    List.inj_on_of_nodup_map distinct (Forest.mem_nodes_of_mem_children mem under)
      (Forest.mem_nodes_of_mem atTop) (congrArg Record.id twin)
  have smaller := Forest.size_lt_of_mem_children under
  have larger : n.size ≤ Forest.size [child] :=
    Forest.size_le_of_mem_nodes (by simpa [Forest.nodes] using inside)
  rw [Forest.size, Forest.size] at larger
  omega

theorem consistent_of_assemble (h : assemble records root = .ok f) : f.Consistent root := by
  obtain ⟨_, grown, _⟩ := grown_of_assemble h
  refine ⟨f.map_id_nodes ▸ grown.distinct, id_ne_root_of_assemble h, ?_, ?_⟩
  · intro n mem
    have listed := List.mem_map_of_mem (f := Node.record) mem
    rw [grown.roots] at listed
    exact beq_iff_eq.mp (List.mem_filter.mp listed).2
  · intro n mem c child
    have listed := List.mem_map_of_mem (f := Node.record) child
    rw [grown.below n mem] at listed
    exact (mem_childrenOf.mp listed).2

/-- Flattening a consistent forest and assembling what comes out gives the forest back, and every
forest that was assembled is consistent, also when its siblings have been sorted. -/
theorem assemble_flatten (root : Option String) :
    (∀ f : Forest, f.Consistent root → assemble f.flatten root = .ok f) ∧
    ∀ (records : List Record) (f : Forest), assemble records root = .ok f →
      assemble f.flatten root = .ok f ∧ assemble f.sorted.flatten root = .ok f.sorted := by
  refine ⟨fun f consistent => assemble_of_consistent consistent, ?_⟩
  intro records f made
  have consistent := consistent_of_assemble made
  exact ⟨assemble_of_consistent consistent, assemble_of_consistent consistent.sorted⟩

theorem assemble_flatten_subtree :
    let f : Forest := [.mk ⟨"6.10", some "6", "Bolts"⟩ [],
      .mk ⟨"6.2", some "6", "Welds"⟩ [.mk ⟨"6.2.1", some "6.2", "Seams"⟩ []]]
    f.Consistent (some "6") ∧ assemble f.flatten (some "6") = .ok f ∧
      f.sorted.map Node.id = ["6.2", "6.10"] ∧
      assemble f.sorted.flatten (some "6") = .ok f.sorted := by
  intro f
  have consistent : f.Consistent (some "6") :=
    ⟨by decide, by simp [f], by simp [f], by simp [f]⟩
  have swapped : compareLabels "6.10" "6.2" = .gt := by decide +kernel
  have ids : f.sorted.map Node.id = ["6.2", "6.10"] := by
    simp [f, Forest.sorted, Forest.sortedEach, Node.sorted, List.mergeSort, Node.precedes, swapped]
  have back := (assemble_flatten (some "6")).1 f consistent
  exact ⟨consistent, back, ids, ((assemble_flatten (some "6")).2 _ f back).2⟩

end BuildingCode.Clause

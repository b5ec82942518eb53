import BuildingCode.Clause.Forest
import Mathlib.Data.List.Perm.Basic

/-! Forests by recursion. Flattening visits the nodes that recursion lists, in the same order, and
sorting siblings moves nodes about without touching their records. -/
namespace BuildingCode.Clause

mutual
def Node.nodes : Node → List Node
  | .mk r cs => .mk r cs :: Forest.nodes cs
def Forest.nodes : Forest → List Node
  | [] => []
  | n :: ns => n.nodes ++ Forest.nodes ns
end

@[simp] theorem Node.record_mk (r : Record) (cs : Forest) : (Node.mk r cs).record = r := rfl

@[simp] theorem Node.children_mk (r : Record) (cs : Forest) : (Node.mk r cs).children = cs := rfl

@[simp] theorem Node.id_mk (r : Record) (cs : Forest) : (Node.mk r cs).id = r.id := rfl

@[simp] theorem Node.record_sorted (n : Node) : n.sorted.record = n.record := by
  cases n
  rw [sorted]
  rfl

@[simp] theorem Node.id_sorted (n : Node) : n.sorted.id = n.id :=
  congrArg Record.id n.record_sorted

namespace Forest

@[elab_as_elim]
theorem induction {motive : Forest → Prop} (nil : motive [])
    (cons : ∀ r below beside, motive below → motive beside → motive (.mk r below :: beside)) :
    ∀ f, motive f
  | [] => nil
  | .mk r below :: beside =>
    cons r below beside (induction nil cons below) (induction nil cons beside)
termination_by f => f.size
decreasing_by all_goals simp only [size, Node.size]; omega

@[simp] theorem nodes_nil : nodes [] = [] := rfl

@[simp] theorem nodes_cons (r : Record) (cs ns : Forest) :
    nodes (.mk r cs :: ns) = .mk r cs :: (nodes cs ++ nodes ns) := by
  simp [nodes, Node.nodes]

theorem nodes_eq_flatMap (f : Forest) : f.nodes = f.flatMap Node.nodes := by
  induction f with
  | nil => rfl
  | cons n ns ih => rw [nodes, ih, List.flatMap_cons]

@[simp] theorem nodes_append (f g : Forest) : nodes (f ++ g) = f.nodes ++ g.nodes := by
  simp [nodes_eq_flatMap]

theorem nodes_perm {f g : Forest} (h : f.Perm g) : f.nodes.Perm g.nodes := by
  rw [nodes_eq_flatMap, nodes_eq_flatMap]
  exact h.flatMap_right _

theorem flattenFrom_eq (done : List Record) (todo : Forest) :
    flattenFrom done todo = done.reverse ++ todo.nodes.map Node.record := by
  fun_induction flattenFrom done todo with
  | case1 done => simp
  | case2 done r cs rest ih => simp [ih]

theorem flatten_eq_map_nodes (f : Forest) : f.flatten = f.nodes.map Node.record :=
  flattenFrom_eq [] f

@[simp] theorem flatten_nil : flatten [] = [] := by
  simp [flatten_eq_map_nodes]

@[simp] theorem flatten_cons (r : Record) (cs ns : Forest) :
    flatten (.mk r cs :: ns) = r :: (cs.flatten ++ ns.flatten) := by
  simp [flatten_eq_map_nodes]

@[simp] theorem flatten_append (f g : Forest) : flatten (f ++ g) = f.flatten ++ g.flatten := by
  simp [flatten_eq_map_nodes]

theorem map_id_nodes (f : Forest) : f.nodes.map Node.id = f.flatten.map (·.id) := by
  rw [flatten_eq_map_nodes, List.map_map]
  rfl

theorem mem_flatten {f : Forest} {r : Record} : r ∈ f.flatten ↔ ∃ n ∈ f.nodes, n.record = r := by
  rw [flatten_eq_map_nodes, List.mem_map]

section
variable {f : Forest} {n c : Node}

theorem mem_nodes_of_mem (mem : n ∈ f) : n ∈ f.nodes := by
  rw [nodes_eq_flatMap]
  refine List.mem_flatMap.mpr ⟨n, mem, ?_⟩
  cases n
  rw [Node.nodes]
  exact List.mem_cons_self

theorem mem_nodes_of_mem_children (mem : n ∈ f.nodes) (child : c ∈ n.children) : c ∈ f.nodes := by
  induction f using induction with
  | nil => cases mem
  | cons r below beside ihBelow ihBeside =>
    simp only [nodes_cons, List.mem_cons, List.mem_append] at mem ⊢
    rcases mem with rfl | mem | mem
    · exact .inr (.inl (mem_nodes_of_mem child))
    · exact .inr (.inl (ihBelow mem))
    · exact .inr (.inr (ihBeside mem))

theorem forall_flatten {P : Record → Prop} (top : ∀ n ∈ f, P n.record)
    (below : ∀ n ∈ f.nodes, P n.record → ∀ c ∈ n.children, P c.record) : ∀ r ∈ f.flatten, P r := by
  induction f using induction with
  | nil => simp
  | cons r cs ns ihBelow ihBeside =>
    have inside : ∀ n, n ∈ cs.nodes ∨ n ∈ ns.nodes → n ∈ nodes (.mk r cs :: ns) := fun n mem => by
      rw [nodes_cons]
      exact List.mem_cons_of_mem _ (List.mem_append.mpr mem)
    have first : P r := top _ List.mem_cons_self
    have under : ∀ r ∈ cs.flatten, P r := ihBelow (below (.mk r cs) (by simp) first)
      fun n mem => below n (inside n (.inl mem))
    have next : ∀ r ∈ ns.flatten, P r := ihBeside (fun n mem => top n (List.mem_cons_of_mem _ mem))
      fun n mem => below n (inside n (.inr mem))
    rw [flatten_cons, List.forall_mem_cons, List.forall_mem_append]
    exact ⟨first, under, next⟩

/-- Every record stands at the top or is the child of one. -/
theorem flatten_perm (f : Forest) : f.flatten.Perm
    (f.map Node.record ++ f.nodes.flatMap fun n => n.children.map Node.record) := by
  induction f using induction with
  | nil => simp
  | cons r cs ns ihBelow ihBeside =>
    rw [flatten_cons, nodes_cons, List.map_cons, List.flatMap_cons, List.flatMap_append,
      List.cons_append]
    refine ((ihBelow.append ihBeside).trans ?_).cons r
    rw [Node.children_mk, ← List.append_assoc (cs.map Node.record)]
    exact List.perm_append_comm_assoc _ _ _

theorem size_lt_of_mem_children (child : c ∈ n.children) : c.size < n.size := by
  obtain ⟨r, cs⟩ := n
  obtain ⟨before, after, rfl⟩ := List.append_of_mem (show c ∈ cs from child)
  rw [Node.size, size_append, size]
  omega

theorem size_le_of_mem_nodes (mem : n ∈ f.nodes) : n.size ≤ f.size := by
  induction f using induction with
  | nil => cases mem
  | cons r below beside ihBelow ihBeside =>
    simp only [nodes_cons, List.mem_cons, List.mem_append] at mem
    rcases mem with rfl | mem | mem
    · rw [size]
      omega
    · have := ihBelow mem
      rw [size, Node.size]
      omega
    · have := ihBeside mem
      rw [size]
      omega

end

theorem sortedEach_eq_map (f : Forest) : sortedEach f = f.map Node.sorted := by
  induction f with
  | nil => rfl
  | cons n ns ih => rw [sortedEach, ih, List.map_cons]

theorem sorted_perm (f : Forest) : f.sorted.Perm (f.map Node.sorted) := by
  rw [sorted, sortedEach_eq_map]
  exact List.mergeSort_perm _ _

theorem sorted_mk (r : Record) (cs : Forest) : (Node.mk r cs).sorted = .mk r cs.sorted := by
  rw [Node.sorted, sorted]

theorem nodes_map_sorted_perm (f : Forest) :
    (nodes (f.map Node.sorted)).Perm (f.nodes.map Node.sorted) := by
  induction f using induction with
  | nil => exact .refl _
  | cons r below beside ihBelow ihBeside =>
    rw [List.map_cons, sorted_mk, nodes_cons, nodes_cons, List.map_cons, List.map_append, sorted_mk]
    exact (((nodes_perm below.sorted_perm).trans ihBelow).append ihBeside).cons _

theorem nodes_sorted_perm (f : Forest) : f.sorted.nodes.Perm (f.nodes.map Node.sorted) :=
  (nodes_perm f.sorted_perm).trans f.nodes_map_sorted_perm

theorem flatten_sorted_perm (f : Forest) : f.sorted.flatten.Perm f.flatten := by
  rw [flatten_eq_map_nodes, flatten_eq_map_nodes]
  refine (f.nodes_sorted_perm.map _).trans (.of_eq ?_)
  rw [List.map_map]
  exact List.map_congr_left fun n _ => n.record_sorted

end Forest
end BuildingCode.Clause

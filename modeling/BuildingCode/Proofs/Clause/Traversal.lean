import BuildingCode.Proofs.Clause.Forest
import Mathlib.Data.List.Nodup

/-! Walks over a forest and the recursions that they come to. A list of nodes still to visit is worked
off from its head, so what lies under a node comes before what stands behind it on the list. -/
namespace BuildingCode.Clause

mutual
def Node.nested (around : List Node) : Node → List (List Node × Node)
  | .mk r cs => (around, .mk r cs) :: Forest.nested (.mk r cs :: around) cs
def Forest.nested (around : List Node) : Forest → List (List Node × Node)
  | [] => []
  | n :: ns => n.nested around ++ Forest.nested around ns
end

mutual
def Node.backward : Node → List Node
  | .mk r cs => .mk r cs :: Forest.backward cs
def Forest.backward : Forest → List Node
  | [] => []
  | n :: ns => Forest.backward ns ++ n.backward
end

namespace Forest

@[simp] theorem nested_nil (around : List Node) : nested around [] = [] := rfl

@[simp] theorem nested_cons (around : List Node) (r : Record) (cs ns : Forest) :
    nested around (.mk r cs :: ns) =
      (around, .mk r cs) :: (nested (.mk r cs :: around) cs ++ nested around ns) := by
  simp [nested, Node.nested]

@[simp] theorem backward_nil : backward [] = [] := rfl

@[simp] theorem backward_cons (r : Record) (cs ns : Forest) :
    backward (.mk r cs :: ns) = backward ns ++ .mk r cs :: backward cs := by
  simp [backward, Node.backward]

theorem map_nested (f : Forest) (around : List Node) : (f.nested around).map (·.2) = f.nodes := by
  induction f using induction generalizing around with
  | nil => rfl
  | cons r below beside ihBelow ihBeside =>
    rw [nested_cons, nodes_cons, List.map_cons, List.map_append, ihBelow, ihBeside]

theorem backward_perm (f : Forest) : f.backward.Perm f.nodes := by
  induction f using induction with
  | nil => exact .refl _
  | cons r below beside ihBelow ihBeside =>
    rw [backward_cons, nodes_cons]
    exact List.perm_append_comm.trans ((ihBelow.append ihBeside).cons _)

theorem isChain_nested {f : Forest} {around : List Node} (chained : ∀ n ∈ f,
    (n :: around).IsChain fun child parent => child ∈ parent.children) :
    ∀ p ∈ f.nested around, (p.2 :: p.1).IsChain fun child parent => child ∈ parent.children := by
  induction f using induction generalizing around with
  | nil => simp
  | cons r below beside ihBelow ihBeside =>
    obtain ⟨first, rest⟩ := List.forall_mem_cons.mp chained
    have under : ∀ c ∈ below,
        (c :: .mk r below :: around).IsChain fun child parent => child ∈ parent.children :=
      fun c mem => .cons_cons mem first
    rw [nested_cons, List.forall_mem_cons, List.forall_mem_append]
    exact ⟨first, ihBelow under, ihBeside rest⟩

theorem getLast?_nested {f top : Forest} {around : List Node}
    (rooted : ∀ n ∈ f, ∃ root ∈ top, (n :: around).getLast? = some root) :
    ∀ p ∈ f.nested around, ∃ root ∈ top, (p.2 :: p.1).getLast? = some root := by
  induction f using induction generalizing around with
  | nil => simp
  | cons r below beside ihBelow ihBeside =>
    obtain ⟨first, rest⟩ := List.forall_mem_cons.mp rooted
    have under : ∀ c ∈ below, ∃ root ∈ top, (c :: .mk r below :: around).getLast? = some root :=
      fun c _ => by rwa [List.getLast?_cons_cons]
    rw [nested_cons, List.forall_mem_cons, List.forall_mem_append]
    exact ⟨first, ihBelow under, ihBeside rest⟩

theorem rowsFrom_append (f : Forest) (done : List (Nat × Record)) (around : List Node)
    (rest : List (Nat × Node)) : rowsFrom done (f.atDepth around.length ++ rest) =
      rowsFrom (((f.nested around).map fun p => (p.1.length, p.2.record)).reverse ++ done) rest := by
  induction f using induction generalizing done around rest with
  | nil => rfl
  | cons r below beside ihBelow ihBeside =>
    have split : atDepth around.length (.mk r below :: beside) ++ rest =
        (around.length, .mk r below) :: (beside.atDepth around.length ++ rest) := rfl
    rw [split, rowsFrom, ← List.length_cons (a := .mk r below), ihBelow, ihBeside, nested_cons]
    simp only [List.map_cons, List.map_append, List.reverse_cons, List.reverse_append,
      List.append_assoc, List.singleton_append, Node.record_mk]

theorem rows_eq_map_nested (f : Forest) :
    f.rows = (f.nested []).map fun p => (p.1.length, p.2.record) := by
  have worked := rowsFrom_append f [] [] []
  rw [List.append_nil, List.append_nil] at worked
  rw [rows]
  exact worked.trans (by rw [rowsFrom, List.reverse_reverse])

theorem findFrom_append (f : Forest) (id : String) (rest : Forest) :
    findFrom id (f.reverse ++ rest) =
      (f.backward.find? fun n => decide (n.id = id)).or (findFrom id rest) := by
  induction f using induction generalizing rest with
  | nil => rfl
  | cons r below beside ihBelow ihBeside =>
    rw [List.reverse_cons, List.append_assoc, ihBeside, List.singleton_append, findFrom, backward_cons,
      List.find?_append, Option.or_assoc, ihBelow]
    by_cases found : r.id = id <;> simp [found]

theorem find?_eq_find?_backward (f : Forest) (id : String) :
    f.find? id = f.backward.find? fun n => decide (n.id = id) := by
  have searched := findFrom_append f id []
  rw [List.append_nil] at searched
  rw [find?, searched, findFrom, Option.or_none]

theorem find?_eq_none_iff {f : Forest} {id : String} : f.find? id = none ↔ ∀ n ∈ f.nodes, n.id ≠ id := by
  rw [find?_eq_find?_backward, List.find?_eq_none]
  simp [f.backward_perm.mem_iff]

theorem find?_of_nodup {f : Forest} {n : Node} (distinct : (f.nodes.map Node.id).Nodup)
    (mem : n ∈ f.nodes) : f.find? n.id = some n := by
  cases found : f.find? n.id with
  | none => exact absurd rfl (find?_eq_none_iff.mp found n mem)
  | some m =>
    rw [find?_eq_find?_backward] at found
    have same : m.id = n.id := by simpa using List.find?_some found
    have inside : m ∈ f.nodes := f.backward_perm.subset (List.mem_of_find?_eq_some found)
    rw [List.inj_on_of_nodup_map distinct inside mem same]

/-- Flattening lists the records as the recursion from left to right has the nodes. The outline has one
line for each of them in the same order, indented by the number of nodes around it. Looking for an id
finds the first node with it in the recursion from right to left, so nothing only if no node has it, and
where ids are distinct the one node that has it. -/
theorem walks_recursive (f : Forest) :
    f.flatten = f.nodes.map Node.record ∧
    f.outline = (f.nested []).map (fun p => String.join (List.replicate p.1.length "  ") ++
      p.2.id ++ " " ++ p.2.record.title) ∧
    (f.nested []).map (·.2) = f.nodes ∧
    (∀ p ∈ f.nested [], (p.2 :: p.1).IsChain (fun child parent => child ∈ parent.children) ∧
      ∃ root ∈ f, (p.2 :: p.1).getLast? = some root) ∧
    ∀ id, f.find? id = f.backward.find? (fun n => decide (n.id = id)) ∧
      (f.find? id = none ↔ ∀ n ∈ f.nodes, n.id ≠ id) ∧
      ((f.nodes.map Node.id).Nodup → ∀ n ∈ f.nodes, n.id = id → f.find? id = some n) := by
  refine ⟨f.flatten_eq_map_nodes, ?_, f.map_nested [], fun p mem => ⟨?_, ?_⟩, fun id =>
    ⟨f.find?_eq_find?_backward id, find?_eq_none_iff, ?_⟩⟩
  · rw [outline, rows_eq_map_nested, List.map_map]
    rfl
  · exact isChain_nested (fun n _ => .singleton n) p mem
  · exact getLast?_nested (fun n top => ⟨n, top, rfl⟩) p mem
  · rintro distinct n inside rfl
    exact find?_of_nodup distinct inside

theorem walks_recursive_repeated :
    let inner : Node := .mk ⟨"1.1", some "1", "Loads"⟩ []
    let outer : Node := .mk ⟨"1", none, "Steel"⟩ [inner]
    let last : Node := .mk ⟨"1.1", none, "Annex"⟩ []
    find? [outer, last] "1.1" = some last ∧
      outline [outer, last] = ["1 Steel", "  1.1 Loads", "1.1 Annex"] ∧
      (nodes [outer] |>.map Node.id).Nodup ∧ find? [outer] "1" = some outer := by
  intro inner outer last
  have repeated := walks_recursive [outer, last]
  have single := walks_recursive [outer]
  have distinct : (nodes [outer] |>.map Node.id).Nodup := by decide
  refine ⟨?_, ?_, distinct, ?_⟩
  · rw [(repeated.2.2.2.2 "1.1").1]
    rfl
  · rw [repeated.2.1]
    decide
  · exact (single.2.2.2.2 "1").2.2 distinct outer (mem_nodes_of_mem (List.mem_singleton_self outer)) rfl

end Forest
end BuildingCode.Clause

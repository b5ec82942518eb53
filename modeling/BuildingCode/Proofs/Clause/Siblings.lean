import BuildingCode.Proofs.Clause.Label
import BuildingCode.Proofs.Clause.Forest
import BuildingCode.Proofs.Sorting

/-! Siblings in order. Sorting moves the nodes of each level about and changes nothing else, and it
makes no difference whether a level is sorted before what stands under it or after. -/
namespace BuildingCode.Clause
namespace Forest

/-- The nodes of one level in ascending order of their labels. Nodes with equal labels stand as they
stood before. -/
structure InOrder (before after : Forest) : Prop where
  moved : after.Perm before
  ascending : after.Pairwise fun a b => (compareLabels a.id b.id).isLE = true
  stable : ∀ n, Sorting.alike (fun a b => compareLabels a.id b.id) after n =
    Sorting.alike (fun a b => compareLabels a.id b.id) before n

mutual
/-- Every level of one forest is that of the other in order. -/
inductive Arranged : Forest → Forest → Prop
  | intro {before level after} : InOrder before level → ArrangedUnder level after →
      Arranged before after
inductive ArrangedUnder : Forest → Forest → Prop
  | nil : ArrangedUnder [] []
  | cons {r below below' beside beside'} : Arranged below below' → ArrangedUnder beside beside' →
      ArrangedUnder (.mk r below :: beside) (.mk r below' :: beside')
end

instance : Std.TransCmp fun a b : Node => compareLabels a.id b.id where
  eq_swap := Std.OrientedCmp.eq_swap
  isLE_trans := Std.TransCmp.isLE_trans

theorem inOrder_mergeSort (f : Forest) : f.InOrder (f.mergeSort Node.precedes) where
  moved := List.mergeSort_perm f Node.precedes
  ascending := Sorting.pairwise_mergeSort f
  stable := Sorting.alike_mergeSort f

theorem InOrder.unique {f level : Forest} (h : f.InOrder level) :
    level = f.mergeSort Node.precedes :=
  Sorting.eq_of_alike h.ascending (inOrder_mergeSort f).ascending fun n =>
    (h.stable n).trans ((inOrder_mergeSort f).stable n).symm

section
variable {f g level : Forest}

theorem sorted_eq_map_mergeSort (f : Forest) :
    f.sorted = (f.mergeSort Node.precedes).map Node.sorted := by
  rw [sorted, sortedEach_eq_map]
  refine (List.map_mergeSort fun a _ b _ => ?_).symm
  simp [Node.precedes]

theorem arrangedUnder_sorted (inside : ∀ n ∈ f, n.children.Arranged n.children.sorted) :
    f.ArrangedUnder (f.map Node.sorted) := by
  induction f with
  | nil => exact .nil
  | cons n ns ih =>
    obtain ⟨first, rest⟩ := List.forall_mem_cons.mp inside
    cases n with
    | mk r cs =>
      rw [List.map_cons, sorted_mk]
      exact .cons first (ih rest)

theorem arranged_of_inside (inside : ∀ n ∈ f, n.children.Arranged n.children.sorted) :
    f.Arranged f.sorted := by
  rw [sorted_eq_map_mergeSort]
  have moved := List.mergeSort_perm f Node.precedes
  exact .intro f.inOrder_mergeSort (arrangedUnder_sorted fun n mem => inside n (moved.subset mem))

theorem arranged_sorted (f : Forest) : f.Arranged f.sorted := by
  refine arranged_of_inside ?_
  induction f using induction with
  | nil => simp
  | cons r below beside ihBelow ihBeside =>
    exact List.forall_mem_cons.mpr ⟨arranged_of_inside ihBelow, ihBeside⟩

mutual
theorem Arranged.unique {f g : Forest} : f.Arranged g → g = f.sorted
  | .intro order under => by
    rw [sorted_eq_map_mergeSort, ← order.unique]
    exact under.unique
theorem ArrangedUnder.unique {level g : Forest} : level.ArrangedUnder g → g = level.map Node.sorted
  | .nil => rfl
  | .cons below beside => by
    rw [List.map_cons, sorted_mk, below.unique, beside.unique]
end

theorem sorted_sorted_of_inside (inside : ∀ n ∈ f, n.sorted.sorted = n.sorted) :
    f.sorted.sorted = f.sorted := by
  have fixed : f.sorted.map Node.sorted = f.sorted := by
    rw [sorted_eq_map_mergeSort, List.map_map]
    refine List.map_congr_left fun n mem => inside n ?_
    exact (List.mergeSort_perm f Node.precedes).subset mem
  have ascending : f.sorted.Pairwise fun a b => a.precedes b = true := Sorting.pairwise_mergeSort _
  rw [sorted_eq_map_mergeSort, List.mergeSort_of_pairwise ascending, fixed]

theorem sorted_sorted (f : Forest) : f.sorted.sorted = f.sorted := by
  refine sorted_sorted_of_inside ?_
  induction f using induction with
  | nil => simp
  | cons r below beside ihBelow ihBeside =>
    refine List.forall_mem_cons.mpr ⟨?_, ihBeside⟩
    rw [sorted_mk, sorted_mk, sorted_sorted_of_inside ihBelow]

end

theorem size_perm {f g : Forest} (same : f.Perm g) : f.size = g.size := by
  induction same with
  | nil => rfl
  | cons n _ ih => rw [size, size, ih]
  | swap n m ns => simp only [size, Nat.add_left_comm]
  | trans _ _ ih ih' => exact ih.trans ih'

/-- What levels weigh on a stack; an empty one weighs something too. -/
def weight : List Forest → Nat
  | [] => 0
  | level :: levels => level.size + 1 + weight levels

theorem weight_append (a b : List Forest) : weight (a ++ b) = weight a + weight b := by
  induction a with
  | nil => simp [weight]
  | cons level levels ih =>
    rw [List.cons_append, weight, ih, ← Nat.add_assoc]
    rfl

theorem weight_reverse (levels : List Forest) : weight levels.reverse = weight levels := by
  induction levels with
  | nil => rfl
  | cons level levels ih =>
    rw [List.reverse_cons, weight_append, ih, weight, weight, weight, Nat.add_zero, Nat.add_comm]

theorem weight_children (f : Forest) : weight (f.map Node.children) = f.size := by
  induction f with
  | nil => rfl
  | cons n ns ih =>
    cases n with
    | mk r cs => rw [List.map_cons, weight, ih, size, Node.size, Node.children]

/-- Puts the levels on a stack in order, each in its place. The nodes of a level are in order before
the levels under them come to the top, last siblings first. -/
def sortLevels : List Forest → List Forest
  | [] => []
  | level :: rest =>
    let nodes := level.mergeSort Node.precedes
    let below := sortLevels ((nodes.map Node.children).reverse ++ rest)
    List.zipWith (fun n cs => .mk n.record cs) nodes (below.take nodes.length).reverse ::
      below.drop nodes.length
termination_by levels => weight levels
decreasing_by
  rw [weight_append, weight_reverse, weight_children, size_perm (List.mergeSort_perm level _)]
  simp only [weight]
  omega

theorem zipWith_children (f : Forest) :
    List.zipWith (fun n cs => .mk n.record cs) f (f.map fun n => n.children.sorted) =
      f.map Node.sorted := by
  induction f with
  | nil => rfl
  | cons n ns ih =>
    cases n with
    | mk r cs => rw [List.map_cons, List.zipWith_cons_cons, ih, List.map_cons, sorted_mk]; rfl

theorem sortLevels_eq_map (levels : List Forest) : sortLevels levels = levels.map sorted := by
  fun_induction sortLevels levels with
  | case1 => rfl
  | case2 level rest nodes below ih =>
    have split : below = (nodes.map fun n => n.children.sorted).reverse ++ rest.map sorted := by
      refine ih.trans ?_
      rw [List.map_append, List.map_reverse, List.map_map]
      rfl
    have length : (nodes.map fun n => n.children.sorted).reverse.length = nodes.length := by simp
    rw [split, List.take_left' length, List.drop_left' length, List.reverse_reverse,
      zipWith_children, List.map_cons, sorted_eq_map_mergeSort]

/-- Sorting siblings gives the one forest in which every level is in order, with the records and what
stands under them unchanged but for order: a second time it changes nothing, and no record is lost. A
stack of levels, each sorted before those under it, comes to the same. -/
theorem sorted_arranges (f : Forest) :
    (∀ g, f.Arranged g ↔ g = f.sorted) ∧ sortLevels [f] = [f.sorted] ∧
      f.sorted.sorted = f.sorted ∧ f.sorted.flatten.Perm f.flatten := by
  refine ⟨fun g => ⟨Arranged.unique, ?_⟩, sortLevels_eq_map [f], f.sorted_sorted,
    f.flatten_sorted_perm⟩
  rintro rfl
  exact f.arranged_sorted

end Forest
end BuildingCode.Clause

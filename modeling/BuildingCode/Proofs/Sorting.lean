/-! Lists sorted by a comparison. If it compares transitively, sorting leaves no element before a smaller one
and keeps those that are equal in the order as they stood, and there is no other such arrangement of the
list. If it tells all elements apart, there is no other arrangement in order at all. -/
namespace BuildingCode.Sorting

universe u
variable {α : Type u} {cmp : α → α → Ordering} {l sorted : List α}

theorem pairwise_lt (ascending : l.Pairwise fun a b => (cmp a b).isLE)
    (apart : l.Pairwise fun a b => cmp a b ≠ .eq) : l.Pairwise fun a b => cmp a b = .lt := by
  refine (ascending.and apart).imp ?_
  rintro a b ⟨upTo, apart⟩
  exact (Ordering.isLE_iff_eq_lt_or_eq_eq.mp upTo).resolve_right apart

theorem filter_append_filter_not {p : α → Bool} (front : l.Pairwise fun a b => p b → p a) :
    l.filter p ++ l.filter (!p ·) = l := by
  induction l with
  | nil => rfl
  | cons a l ih =>
    obtain ⟨first, rest⟩ := List.pairwise_cons.mp front
    by_cases holds : p a
    · simp [holds, ih rest]
    · have none : ∀ b ∈ l, ¬ p b := fun b mem later => holds (first b mem later)
      rw [List.filter_eq_nil_iff.mpr (List.forall_mem_cons.mpr ⟨holds, none⟩), List.nil_append,
        List.filter_eq_self.mpr (by simpa [holds] using none)]

def alike (cmp : α → α → Ordering) (l : List α) (c : α) : List α := l.filter (cmp · c == .eq)

theorem alike_cons_of_eq {a c : α} (same : cmp a c = .eq) :
    alike cmp (a :: l) c = a :: alike cmp l c :=
  List.filter_cons_of_pos (by rw [same]; rfl)

theorem alike_cons_of_ne {a c : α} (apart : cmp a c ≠ .eq) :
    alike cmp (a :: l) c = alike cmp l c :=
  List.filter_cons_of_neg (by simpa using apart)

variable [Std.TransCmp cmp]

theorem isLE_total (a b : α) : ((cmp a b).isLE || (cmp b a).isLE) = true := by
  have swap : cmp b a = (cmp a b).swap := Std.OrientedCmp.eq_swap
  rw [swap]
  cases cmp a b <;> rfl

theorem pairwise_mergeSort (l : List α) :
    (l.mergeSort fun a b => (cmp a b).isLE).Pairwise fun a b => (cmp a b).isLE = true :=
  List.pairwise_mergeSort (fun _ _ _ => Std.TransCmp.isLE_trans) isLE_total l

theorem eq_mergeSort_iff [Std.LawfulEqCmp cmp] :
    sorted = (l.mergeSort fun a b => (cmp a b).isLE) ↔
      sorted.Perm l ∧ sorted.Pairwise fun a b => (cmp a b).isLE = true := by
  constructor
  · rintro rfl
    exact ⟨List.mergeSort_perm l _, pairwise_mergeSort l⟩
  · rintro ⟨same, ascending⟩
    refine List.Perm.eq_of_pairwise ?_ ascending (pairwise_mergeSort l)
      (same.trans (List.mergeSort_perm l _).symm)
    intro a b _ _ ab ba
    exact Std.LawfulEqCmp.eq_of_compare (Std.OrientedCmp.isLE_antisymm ab ba)

theorem subset_of_alike {l' : List α} (same : ∀ c, alike cmp l c = alike cmp l' c) : l ⊆ l' := by
  intro a mem
  have self : cmp a a = .eq := Std.ReflCmp.compare_self
  have here : a ∈ alike cmp l a := List.mem_filter.mpr ⟨mem, by rw [self]; rfl⟩
  rw [same] at here
  exact (List.mem_filter.mp here).1

/-- Elements that are equal in the order keep their places among each other. -/
theorem alike_mergeSort (l : List α) (c : α) :
    alike cmp (l.mergeSort fun a b => (cmp a b).isLE) c = alike cmp l c := by
  have sorted : (alike cmp l c).Pairwise fun a b => (cmp a b).isLE = true := by
    refine List.pairwise_of_forall_mem_list fun a left b right => ?_
    have below : cmp a c = .eq := by simpa using (List.mem_filter.mp left).2
    have above : cmp c b = .eq := by
      rw [Std.OrientedCmp.eq_comm]
      simpa using (List.mem_filter.mp right).2
    exact Std.TransCmp.isLE_trans (by rw [below]; rfl) (by rw [above]; rfl)
  have kept := List.sublist_mergeSort (fun _ _ _ => Std.TransCmp.isLE_trans) isLE_total sorted
    List.filter_sublist
  have within := kept.filter (cmp · c == .eq)
  rw [alike, List.filter_filter] at within
  simp only [Bool.and_self] at within
  exact (within.eq_of_length ((List.mergeSort_perm l _).filter _).length_eq.symm).symm

/-- A list in order is known by its elements that are alike, for each kind of them. -/
theorem eq_of_alike {l' : List α} (ascending : l.Pairwise fun a b => (cmp a b).isLE)
    (ascending' : l'.Pairwise fun a b => (cmp a b).isLE)
    (same : ∀ c, alike cmp l c = alike cmp l' c) : l = l' := by
  induction l generalizing l' with
  | nil =>
    have none : l' ⊆ [] := subset_of_alike fun c => (same c).symm
    exact (List.subset_nil.mp none).symm
  | cons a l ih =>
    cases l' with
    | nil => cases subset_of_alike same List.mem_cons_self
    | cons b l' =>
      obtain ⟨least, rest⟩ := List.pairwise_cons.mp ascending
      obtain ⟨least', rest'⟩ := List.pairwise_cons.mp ascending'
      have self (c : α) : cmp c c = .eq := Std.ReflCmp.compare_self
      have upTo : (cmp b a).isLE := by
        rcases List.mem_cons.mp (subset_of_alike same List.mem_cons_self) with rfl | mem
        · rw [self]; rfl
        · exact least' a mem
      have upTo' : (cmp a b).isLE := by
        have back : ∀ c, alike cmp (b :: l') c = alike cmp (a :: l) c := fun c => (same c).symm
        rcases List.mem_cons.mp (subset_of_alike back List.mem_cons_self) with rfl | mem
        · rw [self]; rfl
        · exact least b mem
      have first := same a
      rw [alike_cons_of_eq (self a),
        alike_cons_of_eq (Std.OrientedCmp.isLE_antisymm upTo upTo')] at first
      obtain ⟨rfl, _⟩ := List.cons.inj first
      refine congrArg (a :: ·) (ih rest rest' fun c => ?_)
      have kind := same c
      by_cases here : cmp a c = .eq
      · rw [alike_cons_of_eq here, alike_cons_of_eq here] at kind
        exact (List.cons.inj kind).2
      · rwa [alike_cons_of_ne here, alike_cons_of_ne here] at kind

end BuildingCode.Sorting

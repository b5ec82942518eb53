import BuildingCode.Proofs.Clause.Sorting

/-! Enclosing clauses. A clause encloses another if its segments are the first of the other's, which is to say
that the way up from the other leads to it. The order puts a clause right in front of all that it encloses. -/
namespace BuildingCode.ClauseId

variable {a b c : ClauseId}

theorem values_injective : Function.Injective values := by
  rintro ⟨s, _, _⟩ ⟨t, _, _⟩ same
  obtain rfl : s = t := List.map_injective_iff.mpr Subtype.val_injective same
  rfl

theorem values_ne_nil (c : ClauseId) : c.values ≠ [] :=
  fun empty => c.nonempty (List.map_eq_nil_iff.mp empty)

instance : Std.LawfulEqCmp order where
  compare_self := Std.ReflCmp.compare_self
  eq_of_compare same := values_injective (Std.LawfulEqCmp.eq_of_compare same)

theorem values_of_parent {p : ClauseId} (h : c.parent = some p) : p.values = c.values.dropLast := by
  unfold parent at h
  split at h
  · cases h
    exact List.map_dropLast
  · cases h

theorem dropLast_values_of_top (h : c.parent = none) : c.values.dropLast = [] := by
  unfold parent at h
  split at h
  · cases h
  · next top =>
    rw [values, ← List.map_dropLast, not_not.mp top]
    rfl

theorem isAbove_iff : a.isAbove c = true ↔ a.values.length < c.values.length ∧ a.values <+: c.values := by
  simp [isAbove]

theorem isAbove_iff_prefix_dropLast : a.isAbove c = true ↔ a.values <+: c.values.dropLast := by
  have filled := List.length_pos_iff.mpr c.values_ne_nil
  have shorter : c.values.dropLast.length = c.values.length - 1 := List.length_dropLast
  rw [isAbove_iff]
  constructor
  · rintro ⟨short, front⟩
    exact List.prefix_of_prefix_length_le front (List.dropLast_prefix _) (by omega)
  · intro front
    have short := front.length_le
    exact ⟨by omega, front.trans (List.dropLast_prefix _)⟩

theorem isAbove_iff_of_parent {p : ClauseId} (h : c.parent = some p) :
    a.isAbove c = true ↔ a = p ∨ a.isAbove p = true := by
  rw [isAbove_iff_prefix_dropLast, ← values_of_parent h]
  constructor
  · intro front
    rcases Nat.eq_or_lt_of_le front.length_le with same | short
    · exact .inl (values_injective (front.eq_of_length same))
    · exact .inr (isAbove_iff.mpr ⟨short, front⟩)
  · rintro (rfl | above)
    · exact List.prefix_rfl
    · exact (isAbove_iff.mp above).2

theorem isAbove_iff_mem_ancestors : a.isAbove c = true ↔ a ∈ c.ancestors := by
  fun_induction ancestors c with
  | case1 c p above ih => rw [isAbove_iff_of_parent above, ih, List.mem_cons]
  | case2 c top =>
    rw [isAbove_iff_prefix_dropLast, dropLast_values_of_top top]
    simpa using a.values_ne_nil

theorem isAbove_trans (ab : a.isAbove b = true) (bc : b.isAbove c = true) : a.isAbove c = true := by
  obtain ⟨short, front⟩ := isAbove_iff.mp ab
  obtain ⟨short', front'⟩ := isAbove_iff.mp bc
  exact isAbove_iff.mpr ⟨Nat.lt_trans short short', front.trans front'⟩

theorem not_isAbove_self (a : ClauseId) : ¬ a.isAbove a = true := by
  intro above
  exact Nat.lt_irrefl _ (isAbove_iff.mp above).1

theorem order_of_isAbove (h : a.isAbove c = true) : a.order c = .lt := by
  obtain ⟨short, rest, split⟩ := isAbove_iff.mp h
  rw [order_eq_lt_iff, ← split]
  cases rest with
  | nil => simp [← split] at short
  | cons x rest =>
    have grown : a.values ++ [] < a.values ++ x :: rest := List.append_left_lt (List.nil_lt_cons x rest)
    rwa [List.append_nil] at grown

theorem prefix_of_compareLex {l m n : List UInt32} (front : l <+: n)
    (after : List.compareLex compare l m = .lt) (upTo : (List.compareLex compare m n).isLE = true) :
    l <+: m := by
  induction l generalizing m n with
  | nil => exact List.nil_prefix
  | cons x l ih =>
    obtain ⟨rest, rfl⟩ := front
    cases m with
    | nil => simp [List.compareLex_cons_nil] at after
    | cons y m =>
      have swap : compare y x = (compare x y).swap := Std.OrientedCmp.eq_swap
      rw [List.compareLex_cons_cons] at after
      rw [List.cons_append, List.compareLex_cons_cons, swap] at upTo
      -- The first elements can neither grow nor fall, so the lists differ later, if at all.
      cases first : compare x y with
      | lt => simp [first, Ordering.then] at upTo
      | gt => simp [first, Ordering.then] at after
      | eq =>
        obtain rfl := Std.LawfulEqCmp.eq_of_compare first
        simp only [first, Ordering.swap_eq, Ordering.eq_then] at after upTo
        exact List.cons_prefix_cons.mpr ⟨rfl, ih (List.prefix_append l rest) after upTo⟩

theorem isAbove_of_between (above : a.isAbove c = true) (after : a.order b = .lt)
    (upTo : (b.order c).isLE = true) : a.isAbove b = true := by
  have front := prefix_of_compareLex (isAbove_iff.mp above).2 after upTo
  refine isAbove_iff.mpr ⟨Nat.lt_of_le_of_ne front.length_le ?_, front⟩
  intro same
  obtain rfl := values_injective (front.eq_of_length same)
  have self : a.order a = .eq := Std.ReflCmp.compare_self
  rw [self] at after
  cases after

def isUpTo (a q : ClauseId) : Bool := (q.order a).isLE

theorem isUpTo_eq_false_iff : a.isUpTo b = false ↔ a.order b = .lt :=
  Ordering.isLE_eq_false.trans Std.OrientedCmp.gt_iff_lt

section
variable {ids : List ClauseId}

theorem split_at_clause (ascending : ids.Pairwise fun b c => b.order c = .lt) (a : ClauseId) :
    ids = ids.filter a.isUpTo ++ ids.filter a.isAbove ++
      (ids.filter (!a.isUpTo ·)).filter (!a.isAbove ·) := by
  have cut : ids.filter a.isUpTo ++ ids.filter (!a.isUpTo ·) = ids := by
    refine Sorting.filter_append_filter_not (ascending.imp fun before upTo => ?_)
    exact Std.TransCmp.isLE_trans (Ordering.isLE_of_eq_lt before) upTo
  have run : (ids.filter (!a.isUpTo ·)).filter a.isAbove ++
      (ids.filter (!a.isUpTo ·)).filter (!a.isAbove ·) = ids.filter (!a.isUpTo ·) := by
    refine Sorting.filter_append_filter_not ((ascending.filter _).imp_of_mem fun mem _ before above => ?_)
    have behind := isUpTo_eq_false_iff.mp (by simpa using (List.mem_filter.mp mem).2)
    exact isAbove_of_between above behind (Ordering.isLE_of_eq_lt before)
  have inside : (ids.filter (!a.isUpTo ·)).filter a.isAbove = ids.filter a.isAbove := by
    rw [List.filter_filter]
    refine List.filter_congr fun q _ => ?_
    cases above : a.isAbove q with
    | false => rfl
    | true =>
      rw [isUpTo_eq_false_iff.mpr (order_of_isAbove above)]
      rfl
  rw [inside] at run
  rw [List.append_assoc, run, cut]

theorem getLast?_filter_isUpTo (ascending : ids.Pairwise fun b c => b.order c = .lt) (mem : a ∈ ids) :
    (ids.filter a.isUpTo).getLast? = some a := by
  have self : a.isUpTo a = true := Std.ReflCmp.isLE_rfl
  obtain ⟨before, after, split⟩ := List.append_of_mem (List.mem_filter.mpr ⟨mem, self⟩)
  have sorted := ascending.filter a.isUpTo
  rw [split] at sorted
  have none : ∀ q, q ∉ after := by
    intro q later
    have kept : q ∈ ids.filter a.isUpTo := by simp [split, later]
    have behind := List.rel_of_pairwise_cons (List.pairwise_append.mp sorted).2.1 later
    exact Std.OrientedCmp.not_isLE_of_lt behind (List.mem_filter.mp kept).2
  rw [split, List.eq_nil_iff_forall_not_mem.mpr none, List.getLast?_concat]

end

/-- A clause encloses exactly those that the way up leads from to it, itself not among them, and it stands
before all that it encloses. Whatever stands between is enclosed as well. So in a sorted list without
repetitions all that a clause encloses stands together, right after the clause if that is in the list. -/
theorem isAbove_contiguous :
    (∀ a c : ClauseId, a.isAbove c ↔ a ∈ c.ancestors) ∧
    (∀ a c : ClauseId, a.isAbove c → a.order c = .lt) ∧
    (∀ a b c : ClauseId, a.isAbove b → b.isAbove c → a.isAbove c) ∧
    (∀ a : ClauseId, ¬ a.isAbove a) ∧
    (∀ a b c : ClauseId, a.isAbove c → a.order b = .lt → (b.order c).isLE → a.isAbove b) ∧
    ∀ (ids : List ClauseId) (a : ClauseId), ids.Nodup → (ids.Pairwise fun b c => (b.order c).isLE) →
      ∃ before after, ids = before ++ ids.filter a.isAbove ++ after ∧
        (a ∈ ids → before.getLast? = some a) := by
  refine ⟨fun a c => isAbove_iff_mem_ancestors, fun a c => order_of_isAbove,
    fun a b c => isAbove_trans, not_isAbove_self, fun a b c => isAbove_of_between, ?_⟩
  intro ids a distinct sorted
  have apart : ids.Pairwise fun b c => b.order c ≠ .eq :=
    distinct.imp fun apart same => apart (Std.LawfulEqCmp.eq_of_compare same)
  have ascending := Sorting.pairwise_lt sorted apart
  exact ⟨_, _, split_at_clause ascending a, getLast?_filter_isUpTo ascending⟩

theorem isAbove_contiguous_tenth :
    let outer : ClauseId := ⟨[⟨6, by decide⟩], List.cons_ne_nil _ _, by decide⟩
    let clause : ClauseId := ⟨[⟨6, by decide⟩, ⟨1, by decide⟩], List.cons_ne_nil _ _, by decide⟩
    let ninth : ClauseId :=
      ⟨[⟨6, by decide⟩, ⟨1, by decide⟩, ⟨9, by decide⟩], List.cons_ne_nil _ _, by decide⟩
    let tenth : ClauseId :=
      ⟨[⟨6, by decide⟩, ⟨1, by decide⟩, ⟨10, by decide⟩], List.cons_ne_nil _ _, by decide⟩
    let next : ClauseId := ⟨[⟨6, by decide⟩, ⟨2, by decide⟩], List.cons_ne_nil _ _, by decide⟩
    let ids := [outer, clause, ninth, tenth, next]
    outer.isAbove clause ∧ clause.isAbove tenth ∧ outer.isAbove tenth ∧ outer.order tenth = .lt ∧
      outer ∈ tenth.ancestors ∧ clause.order ninth = .lt ∧ (ninth.order tenth).isLE ∧
      clause.isAbove ninth ∧ ids.Nodup ∧ (ids.Pairwise fun b c => (b.order c).isLE) ∧
      ∃ before after, ids = before ++ [ninth, tenth] ++ after ∧ before.getLast? = some clause := by
  intro outer clause ninth tenth next ids
  obtain ⟨chain, before, trans, _, between, contiguous⟩ := isAbove_contiguous
  have upper : outer.isAbove clause := by decide
  have lower : clause.isAbove tenth := by decide
  have whole := trans outer clause tenth upper lower
  have distinct : ids.Nodup := by decide
  have sorted : ids.Pairwise fun b c => (b.order c).isLE := by decide
  obtain ⟨front, rest, split, last⟩ := contiguous ids clause distinct sorted
  exact ⟨upper, lower, whole, before outer tenth whole, (chain outer tenth).mp whole, by decide, by decide,
    between clause ninth tenth lower (by decide) (by decide), distinct, sorted, front, rest, split,
    last (by decide)⟩

end BuildingCode.ClauseId

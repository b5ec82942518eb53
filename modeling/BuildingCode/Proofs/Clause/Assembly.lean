import BuildingCode.Proofs.Clause.Walk

/-! Assembling a whole document decides whether its records are well formed, and over distinct ids it
says what is wrong with them. -/
namespace BuildingCode.Clause
open Outcome Relation

variable {records : List Record}

/-- Of distinct ids the children of each make up the records that stand under one of them. -/
theorem perm_flatMap_childrenOf {ids : List String} (distinct : ids.Nodup) :
    (ids.flatMap (childrenOf records)).Perm (records.filter fun r => ∃ p ∈ ids, r.parent = some p) := by
  induction ids with
  | nil => simp
  | cons id ids ih =>
    obtain ⟨new, distinct⟩ := List.nodup_cons.mp distinct
    rw [List.flatMap_cons]
    refine ((ih distinct).append_left _).trans ?_
    have split := List.filter_append_perm (fun r : Record => decide (r.parent = some id))
      (records.filter fun r => ∃ p ∈ id :: ids, r.parent = some p)
    rw [List.filter_filter, List.filter_filter] at split
    refine List.Perm.trans (.of_eq ?_) split
    congr 1
    · apply List.filter_congr
      intro r _
      by_cases here : r.parent = some id <;> simp [here]
    · apply List.filter_congr
      intro r _
      by_cases here : r.parent = some id <;> simp [here, new]

theorem Grown.perm_reached {seen : Entered} {forest : Forest}
    (grown : Grown (childrenOf records) (records.filter (·.parent == none)) ∅ seen forest) :
    forest.flatten.Perm (records.filter (isReached none seen)) := by
  have entered : ∀ p, p ∈ seen ↔ p ∈ forest.flatten.map (·.id) := by
    intro p
    rw [grown.mem_iff, List.mem_map]
    simp
  have under : ((forest.flatten.map (·.id)).flatMap (childrenOf records)).Perm _ :=
    perm_flatMap_childrenOf grown.distinct
  rw [List.flatMap_map] at under
  refine grown.accounts.trans ((under.append_left _).trans ?_)
  have split := List.filter_append_perm (fun r : Record => r.parent == none)
    (records.filter (isReached none seen))
  rw [List.filter_filter, List.filter_filter] at split
  refine List.Perm.trans (.of_eq ?_) split
  congr 1
  · apply List.filter_congr
    intro r _
    rw [Bool.eq_iff_iff, Bool.and_eq_true, isReached_eq_true_iff, beq_iff_eq]
    exact ⟨fun root => ⟨root, .inl root⟩, fun both => both.1⟩
  · apply List.filter_congr
    intro r _
    rw [Bool.eq_iff_iff, Bool.and_eq_true, isReached_eq_true_iff, decide_eq_true_eq]
    simp only [entered]
    cases r.parent <;> simp

section
variable {seen : Entered} {forest : Forest}

theorem Grown.mem_records
    (grown : Grown (childrenOf records) (records.filter (·.parent == none)) ∅ seen forest) :
    ∀ q ∈ forest.flatten, q ∈ records ∧ Rooted records q := by
  refine grown.traced (Q := fun q => q ∈ records ∧ Rooted records q) ?_ ?_
  · intro r root
    obtain ⟨mem, none⟩ := List.mem_filter.mp root
    exact ⟨mem, rooted_of_parent_eq_none (by simpa using none)⟩
  · rintro p ⟨above, rooted⟩ q child
    obtain ⟨mem, parent⟩ := mem_childrenOf.mp child
    exact ⟨mem, Above.rooted ⟨above, parent⟩ rooted⟩

theorem Grown.isReached_iff
    (grown : Grown (childrenOf records) (records.filter (·.parent == none)) ∅ seen forest)
    {r : Record} (mem : r ∈ records) : isReached none seen r = true ↔ Rooted records r := by
  have reached : ∀ q ∈ records, isReached none seen q = true → q ∈ forest.flatten :=
    fun q mem found => grown.perm_reached.mem_iff.mpr (List.mem_filter.mpr ⟨mem, found⟩)
  constructor
  · intro found
    exact (grown.mem_records r (reached r mem found)).2
  · rintro ⟨top, chain, ends⟩
    induction chain using ReflTransGen.head_induction_on with
    | refl => exact isReached_eq_true_iff.mpr (.inl ends)
    | head above _ ih =>
      have entered := (grown.mem_iff _).mpr (.inr ⟨_, reached _ above.1 (ih above.1), rfl⟩)
      exact isReached_eq_true_iff.mpr (.inr ⟨_, entered, above.2⟩)

end

theorem grouped_parents :
    (fun id => (grouped (records.filterMap fun r => r.parent.map (·, r))).getD id []) =
      childrenOf records := by
  funext id
  rw [getD_grouped]
  unfold childrenOf
  induction records with
  | nil => rfl
  | cons r rs ih => cases parent : r.parent <;> simp_all [List.filter_cons, apply_ite]

theorem assemble_eq (records : List Record) (root : Option String) : assemble records root = (do
    let (forest, seen) ← walkOver records (records.filter (·.parent == root))
    match unreachedFault records (records.filter fun r => !isReached root seen r) root.isNone with
    | some e => throw e
    | none => return forest) := by
  rw [walkOver, ← grouped_parents]
  rfl

section
variable {root : Option String} {forest : Forest} {seen : Entered}
  (walk : walkOver records (records.filter (·.parent == root)) = .ok (forest, seen))
include walk

/-- What the walk has not reached decides the outcome. -/
theorem assemble_of_walk : assemble records root =
    (unreachedFault records (records.filter fun r => !isReached root seen r) root.isNone).elim
      (.ok forest) .error := by
  rw [assemble_eq, walk]
  change (match unreachedFault records (records.filter fun r => !isReached root seen r) _ with
    | some e => throw e
    | none => pure forest) = _
  cases unreachedFault records (records.filter fun r => !isReached root seen r) _ <;> rfl

theorem assemble_error_iff_of_walk {e : AssemblyError} : assemble records root = .error e ↔
    unreachedFault records (records.filter fun r => !isReached root seen r) root.isNone =
      some e := by
  rw [assemble_of_walk walk]
  cases unreachedFault records (records.filter fun r => !isReached root seen r) _ <;> simp

end

theorem assemble_eq_ok_iff {root : Option String} {forest : Forest} :
    assemble records root = .ok forest ↔ ∃ seen,
      walkOver records (records.filter (·.parent == root)) = .ok (forest, seen) ∧
      unreachedFault records (records.filter fun r => !isReached root seen r) root.isNone =
        none := by
  constructor
  · intro h
    obtain ⟨⟨made, seen⟩, walk, _⟩ := bind_eq_ok.mp ((assemble_eq records root).symm.trans h)
    rw [assemble_of_walk walk] at h
    refine ⟨seen, ?_⟩
    cases fault : unreachedFault records (records.filter fun r => !isReached root seen r) _ with
    | some e =>
      rw [fault] at h
      cases h
    | none =>
      rw [fault] at h
      cases h
      exact ⟨walk, rfl⟩
  · rintro ⟨seen, walk, clear⟩
    rw [assemble_of_walk walk, clear]
    rfl

theorem unreachedFault_eq_none_iff {unreached : List Record} :
    unreachedFault records unreached true = none ↔ unreached = [] := by
  unfold unreachedFault
  cases unreached with
  | nil => simp
  | cons r rs => cases firstLoop? (r :: rs) <;> simp

theorem unreachedFault_eq_none_iff_linked {unreached : List Record} {whole : Bool} :
    unreachedFault records unreached whole = none ↔
      (whole = true → unreached = []) ∧ ¬∃ v, TransGen (Linked unreached) v v := by
  rw [← isSome_firstLoop?_iff]
  unfold unreachedFault
  cases unreached with
  | nil =>
    have none : firstLoop? [] = none := by
      rw [← Option.not_isSome_iff_eq_none, isSome_firstLoop?_iff]
      rintro ⟨v, loop⟩
      obtain ⟨r, mem, _⟩ := Linked.exists_mem loop
      cases mem
    simp [none]
  | cons r rs =>
    cases firstLoop? (r :: rs) <;> cases whole <;> simp

def isOrphan (records : List Record) (r : Record) : Bool :=
  !(records.foldl (fun s r => s.insert r.id) (∅ : Entered)).contains (r.parent.getD "")

theorem unreachedFault_of_orphan {unreached : List Record} {r : Record}
    (loop : firstLoop? unreached = none) (found : unreached.find? (isOrphan records) = some r) :
    unreachedFault records unreached true = some (.danglingParent r.id (r.parent.getD "")) := by
  unfold unreachedFault
  cases unreached with
  | nil => cases found
  | cons first rest =>
    simp only [loop]
    rw [if_pos trivial]
    change some (AssemblyError.danglingParent (((first :: rest).find? (isOrphan records)).getD first).id
      ((((first :: rest).find? (isOrphan records)).getD first).parent.getD "")) = _
    rw [found]
    rfl

theorem unreachedFault_of_loop {unreached : List Record} {ids : List String}
    (loop : firstLoop? unreached = some ids) (whole : Bool) :
    unreachedFault records unreached whole = some (.cycleDetected ids) := by
  unfold unreachedFault
  cases unreached with
  | nil => cases loop
  | cons first rest => simp only [loop]

theorem exists_walk (distinct : Distinct records) : ∃ forest seen,
    walkOver records (records.filter (·.parent == none)) = .ok (forest, seen) := by
  cases walk : walkOver records (records.filter (·.parent == none)) with
  | ok made => exact ⟨made.1, made.2, rfl⟩
  | error e =>
    obtain ⟨p, _, _, _, _, _, _, top, _⟩ := refused_of_walk distinct walk
    cases top

theorem isOrphan_iff {r : Record} :
    isOrphan records r = true ↔ ∀ q ∈ records, q.id ≠ r.parent.getD "" := by
  have collects : ∀ (x : String) (rs : List Record) (seen : Entered),
      x ∈ rs.foldl (fun s r => s.insert r.id) seen ↔ x ∈ seen ∨ ∃ r ∈ rs, r.id = x := by
    intro x rs
    induction rs with
    | nil => simp
    | cons r rs ih =>
      intro seen
      rw [List.foldl_cons, ih, mem_insert, List.exists_mem_cons_iff]
      tauto
  rw [isOrphan, Bool.not_eq_true', ← Bool.not_eq_true, ← Std.TreeSet.mem_iff_contains, collects]
  simp

section
variable {seen : Entered} {forest : Forest}
  (grown : Grown (childrenOf records) (records.filter (·.parent == none)) ∅ seen forest)
include grown

theorem Grown.mem_unreached_iff {r : Record} :
    r ∈ records.filter (fun r => !isReached none seen r) ↔ r ∈ records ∧ ¬Rooted records r := by
  rw [List.mem_filter]
  refine and_congr_right fun mem => ?_
  rw [Bool.not_eq_true', ← Bool.not_eq_true, grown.isReached_iff mem]

theorem Grown.dangles_iff {r : Record} :
    isReached none seen r = false ∧ isOrphan records r = true ↔ Dangles records r := by
  rw [← Bool.not_eq_true, isOrphan_iff, isReached_eq_true_iff]
  constructor
  · rintro ⟨outside, missing⟩
    cases parent : r.parent with
    | none => exact absurd (.inl parent) outside
    | some p =>
      rw [parent] at missing
      exact ⟨p, parent, missing⟩
  · rintro ⟨p, parent, missing⟩
    rw [parent]
    refine ⟨?_, missing⟩
    rintro (none | ⟨p', entered, same⟩)
    · cases none
    · cases same
      obtain empty | ⟨q, mem, same⟩ := (grown.mem_iff _).mp entered
      · simp at empty
      · exact missing q (grown.mem_records q mem).1 same

theorem Grown.exists_dangling (loops : ¬∃ r ∈ records, Loops records r)
    (out : records.filter (fun r => !isReached none seen r) ≠ []) :
    ∃ before r after p, records = before ++ r :: after ∧ (∀ q ∈ before, ¬Dangles records q) ∧
      r.parent = some p ∧ (∀ q ∈ records, q.id ≠ p) ∧
        (records.filter fun r => !isReached none seen r).find? (isOrphan records) = some r := by
  classical
  have same : (records.filter fun r => !isReached none seen r).find? (isOrphan records) =
      records.find? fun r => Dangles records r := by
    rw [List.find?_filter]
    congr 1
    funext r
    rw [decide_eq_decide, Bool.not_eq_true', grown.dangles_iff]
  rw [same]
  cases first : records.find? fun r => Dangles records r with
  | none =>
    obtain ⟨r, mem⟩ := List.exists_mem_of_ne_nil _ out
    obtain ⟨mem, unrooted⟩ := grown.mem_unreached_iff.mp mem
    refine absurd (rooted_of_no_loop ?_ ?_ mem) unrooted
    · intro q mem loop
      exact loops ⟨q, mem, q, .refl, loop⟩
    · intro q mem dangles
      exact List.find?_eq_none.mp first q mem (decide_eq_true dangles)
  | some r =>
    obtain ⟨here, before, after, split, earlier⟩ := List.find?_eq_some_iff_append.mp first
    obtain ⟨p, parent, missing⟩ := of_decide_eq_true here
    refine ⟨before, r, after, p, split, ?_, parent, missing, rfl⟩
    intro q mem dangles
    have passed := earlier q mem
    rw [decide_eq_true dangles] at passed
    cases passed

end

theorem assemble_error_cases (distinct : Distinct records) {e : AssemblyError}
    (h : assemble records none = .error e) :
    ((∃ r ∈ records, Loops records r) ∧ ∃ ids, e = .cycleDetected ids) ∨
    (¬∃ r ∈ records, Loops records r) ∧ ∃ before r after p, records = before ++ r :: after ∧
      (∀ q ∈ before, ¬Dangles records q) ∧ r.parent = some p ∧ (∀ q ∈ records, q.id ≠ p) ∧
        e = .danglingParent r.id p := by
  obtain ⟨forest, seen, walk⟩ := exists_walk distinct
  have grown := grown_walkOver walk
  have fault : unreachedFault records (records.filter fun r => !isReached none seen r) true =
      some e := (assemble_error_iff_of_walk walk).mp h
  have within : Distinct (records.filter fun r => !isReached none seen r) :=
    distinct.sublist (List.filter_sublist.map _)
  have loops := exists_loop_unrooted_iff (fun _ => grown.mem_unreached_iff) distinct
  rw [exists_loop_iff_linked within, ← isSome_firstLoop?_iff] at loops
  cases loop : firstLoop? (records.filter fun r => !isReached none seen r) with
  | some ids =>
    rw [loop] at loops
    rw [unreachedFault_of_loop loop] at fault
    exact .inl ⟨loops.mp rfl, ids, (Option.some.inj fault).symm⟩
  | none =>
    rw [loop] at loops
    have none_loops : ¬∃ r ∈ records, Loops records r := fun some => nomatch loops.mpr some
    have out : records.filter (fun r => !isReached none seen r) ≠ [] := by
      intro all
      rw [unreachedFault_eq_none_iff.mpr all] at fault
      cases fault
    obtain ⟨before, r, after, p, split, earlier, parent, missing, found⟩ :=
      grown.exists_dangling none_loops out
    rw [unreachedFault_of_orphan loop found, parent] at fault
    exact .inr ⟨none_loops, before, r, after, p, split, earlier, parent, missing,
      (Option.some.inj fault).symm⟩

theorem isOk_assemble_iff : (∃ forest, assemble records none = .ok forest) ↔
    Distinct records ∧ ∀ r ∈ records, Rooted records r := by
  constructor
  · rintro ⟨made, h⟩
    obtain ⟨seen, walk, clear⟩ := assemble_eq_ok_iff.mp h
    have grown := grown_walkOver walk
    have all : records.filter (fun r => !isReached none seen r) = [] :=
      unreachedFault_eq_none_iff.mp clear
    have reached : ∀ r ∈ records, isReached none seen r = true := by
      intro r mem
      simpa using List.filter_eq_nil_iff.mp all r mem
    have same := grown.perm_reached
    rw [List.filter_eq_self.mpr reached] at same
    exact ⟨(same.map _).nodup_iff.mp grown.distinct,
      fun r mem => (grown.isReached_iff mem).mp (reached r mem)⟩
  · rintro ⟨distinct, rooted⟩
    cases h : assemble records none with
    | ok forest => exact ⟨forest, rfl⟩
    | error e =>
      rcases assemble_error_cases distinct h with ⟨⟨r, _, q, _, loop⟩, _⟩ |
        ⟨_, before, r, after, p, split, _, parent, missing, _⟩
      · exact absurd loop ((rooted q (Above.mem_of_transGen loop)).not_transGen distinct)
      · obtain ⟨top, chain, ends⟩ := rooted r (by rw [split]; simp)
        rcases ReflTransGen.cases_head chain with rfl | ⟨q, above, _⟩
        · rw [parent] at ends
          cases ends
        · cases parent.symm.trans above.2
          exact absurd rfl (missing q above.1)

/-- A document is assembled exactly if its ids are distinct and all parent links end at a record
without a parent; with distinct ids a loop is blamed if there is one, else the first missing parent. -/
theorem assemble_decides (records : List Record) :
    ((∃ forest, assemble records none = .ok forest) ↔
      Distinct records ∧ ∀ r ∈ records, Rooted records r) ∧
    (Distinct records → ∀ e, assemble records none = .error e →
      ((∃ ids, e = .cycleDetected ids) ↔ ∃ r ∈ records, Loops records r) ∧
      ((¬∃ r ∈ records, Loops records r) → ∃ before r after p, records = before ++ r :: after ∧
        (∀ q ∈ before, ¬Dangles records q) ∧ r.parent = some p ∧ (∀ q ∈ records, q.id ≠ p) ∧
          e = .danglingParent r.id p)) := by
  refine ⟨isOk_assemble_iff, ?_⟩
  intro distinct e h
  rcases assemble_error_cases distinct h with ⟨loops, cycle⟩ | ⟨none, dangling⟩
  · exact ⟨⟨fun _ => loops, fun _ => cycle⟩, fun none => absurd loops none⟩
  · refine ⟨⟨?_, fun loops => absurd loops none⟩, fun _ => dangling⟩
    obtain ⟨before, r, after, p, _, _, _, _, rfl⟩ := dangling
    rintro ⟨ids, cycle⟩
    cases cycle

theorem assemble_decides_missing :
    assemble [⟨"1", none, ""⟩, ⟨"3", some "2", ""⟩, ⟨"5", some "4", ""⟩] none =
      .error (.danglingParent "3" "2") := by
  let records : List Record := [⟨"1", none, ""⟩, ⟨"3", some "2", ""⟩, ⟨"5", some "4", ""⟩]
  have distinct : Distinct records := by
    unfold Distinct
    decide
  have unlinked : ∀ r ∈ records, ∀ q, ¬Above records r q := by simp [records, Above]
  have none_loops : ¬∃ r ∈ records, Loops records r := by
    rintro ⟨_, _, q, _, loop⟩
    obtain ⟨_, above, _⟩ := TransGen.head'_iff.mp loop
    exact unlinked q (Above.mem_of_transGen loop) _ above
  show assemble records none = _
  cases h : assemble records none with
  | ok forest =>
    obtain ⟨_, rooted⟩ := (assemble_decides records).1.mp ⟨forest, h⟩
    obtain ⟨top, chain, ends⟩ := rooted ⟨"3", some "2", ""⟩ (by simp [records])
    rcases ReflTransGen.cases_head chain with rfl | ⟨q, above, _⟩
    · cases ends
    · exact absurd above (unlinked _ (by simp [records]) q)
  | error e =>
    obtain ⟨before, r, after, p, split, earlier, parent, _, rfl⟩ :=
      ((assemble_decides records).2 distinct e h).2 none_loops
    have listed : [⟨"1", none, ""⟩, ⟨"3", some "2", ""⟩, ⟨"5", some "4", ""⟩] =
        before ++ r :: after := split
    rcases before with _ | ⟨first, _ | ⟨second, rest⟩⟩
    · cases listed
      cases parent
    · cases listed
      cases parent
      rfl
    · have same : second = ⟨"3", some "2", ""⟩ := by
        simp only [List.cons_append, List.cons.injEq] at listed
        exact listed.2.1.symm
      have dangles : Dangles records second := ⟨"2", by rw [same], by simp [records]⟩
      exact absurd dangles (earlier second (by simp))

end BuildingCode.Clause

import BuildingCode.Proofs.Clause.Placement

/-! What an error says of the records, whatever they are. A loop that is reported is one, a parent that
is reported missing is, and records that are assembled have no loops, not even among those that the
forest leaves out. -/
namespace BuildingCode.Clause
open Outcome Relation

variable {records : List Record} {root : Option String} {seen : Entered} {f : Forest}

theorem loopFrom_append {inner outer : List String} {id : String} (once : id ∉ outer) :
    loopFrom (inner ++ id :: outer) id = id :: inner.reverse := by
  have passed : ∀ x ∈ outer.reverse, decide (x ≠ id) = true := by
    intro x mem
    exact decide_eq_true fun same => once (same ▸ List.mem_reverse.mp mem)
  unfold loopFrom
  rw [List.reverse_append, List.reverse_cons, List.append_assoc, List.dropWhile_append_of_pos passed,
    List.singleton_append, List.dropWhile_cons_of_neg (by simp)]

theorem OnPath.circular {levels : Nat} {path : List String} {r : Record}
    (onPath : OnPath records seen levels path) (found : r ∈ records)
    (follows : ∀ p ∈ path.head?, r.parent = some p) (met : r.id ∈ path) :
    Circular records (loopFrom path r.id) := by
  obtain ⟨inner, outer, rfl⟩ := List.append_of_mem met
  have split : inner ++ r.id :: outer = (inner ++ [r.id]) ++ outer := by simp
  have turned : r.id :: inner.reverse = (inner ++ [r.id]).reverse := by simp
  have nodup := onPath.nodup
  have chain := onPath.chain
  have once : r.id ∉ outer := (List.nodup_cons.mp (List.nodup_append.mp nodup).2.1).1
  rw [split] at nodup chain
  rw [loopFrom_append once]
  refine .of_isChain ?_ ?_ ⟨r, found, follows _ ?_, rfl⟩
  · rw [turned, List.nodup_reverse]
    exact (List.nodup_append.mp nodup).1
  · rw [turned, List.isChain_reverse]
    exact chain.left_of_append
  · cases inner <;> simp

theorem fault_of_walk {rs : List Record} {e : AssemblyError} (found : ∀ r ∈ rs, r ∈ records)
    (failed : walkOver records rs = .error e) :
    (∃ ids, e = .cycleDetected ids ∧ Circular records ids) ∨ ∃ id, e = .duplicateId id := by
  obtain ⟨before, r, after, _, between, rfl, _, failed⟩ := growAll_eq_error failed
  obtain ⟨path, levels, seen, r', onPath, found', follows, rfl⟩ :=
    exists_refused (.start records between) (found r (by simp)) (by simp) failed
  unfold refusal
  split
  · next met => exact .inl ⟨_, rfl, onPath.circular found' follows met⟩
  · exact .inr ⟨_, rfl⟩

theorem Grown.mem_flatten_of_isReached
    (grown : Grown (childrenOf records) (records.filter (·.parent == root)) ∅ seen f) {r : Record}
    (mem : r ∈ records) (reached : isReached root seen r = true) : r ∈ f.flatten := by
  obtain ⟨i, rfl⟩ := List.mem_iff_get.mp mem
  exact grown.mem_flatten_iff.mpr ⟨i, grown.reached_of_isReached reached, rfl⟩

theorem Grown.loop_unreached
    (grown : Grown (childrenOf records) (records.filter (·.parent == root)) ∅ seen f) {v : String}
    (loop : TransGen (Linked records) v v) :
    TransGen (Linked (records.filter fun r => !isReached root seen r)) v v := by
  refine transGen_around loop ?_
  rintro a _ before ⟨r, mem, parent, rfl⟩ after
  refine ⟨r, List.mem_filter.mpr ⟨mem, ?_⟩, parent, rfl⟩
  rw [Bool.not_eq_true', ← Bool.not_eq_true]
  intro reached
  have around : TransGen (Linked records) r.id r.id :=
    (loop.trans_right after).trans_left (before.tail ⟨r, mem, parent, rfl⟩)
  exact grown.not_transGen (grown.mem_flatten_of_isReached mem reached) around

theorem not_loops_of_linked (h : ¬∃ v, TransGen (Linked records) v v) :
    ¬∃ r ∈ records, Loops records r := by
  rintro ⟨_, _, q, _, loop⟩
  exact h ⟨q.id, linked_of_above loop (Above.mem_of_transGen loop)⟩

theorem unreachedFault_cases {unreached : List Record} {whole : Bool} {e : AssemblyError}
    (h : unreachedFault records unreached whole = some e) :
    (∃ ids, firstLoop? unreached = some ids ∧ e = .cycleDetected ids) ∨
    firstLoop? unreached = none ∧ whole = true ∧ unreached ≠ [] ∧ ∃ id p, e = .danglingParent id p := by
  cases loop : firstLoop? unreached with
  | some ids =>
    rw [unreachedFault_of_loop loop] at h
    exact .inl ⟨ids, rfl, (Option.some.inj h).symm⟩
  | none =>
    unfold unreachedFault at h
    cases unreached with
    | nil => cases h
    | cons r rs =>
      simp only [loop] at h
      split at h
      · next all => exact .inr ⟨rfl, all, List.cons_ne_nil _ _, _, _, (Option.some.inj h).symm⟩
      · cases h

theorem assemble_eq_error {e : AssemblyError} (h : assemble records root = .error e) :
    walkOver records (records.filter (·.parent == root)) = .error e ∨
    ∃ forest seen, walkOver records (records.filter (·.parent == root)) = .ok (forest, seen) ∧
      unreachedFault records (records.filter fun r => !isReached root seen r) root.isNone = some e := by
  cases walk : walkOver records (records.filter (·.parent == root)) with
  | error failure =>
    rw [assemble_eq, walk] at h
    cases h
    exact .inl rfl
  | ok made => exact .inr ⟨made.1, made.2, rfl, (assemble_error_iff_of_walk walk).mp h⟩

theorem circular_of_assemble {ids : List String}
    (h : assemble records root = .error (.cycleDetected ids)) : Circular records ids := by
  rcases assemble_eq_error h with failed | ⟨forest, seen, _, fault⟩
  · rcases fault_of_walk (fun r top => (List.mem_filter.mp top).1) failed with
      ⟨_, same, circular⟩ | ⟨_, same⟩
    · cases same
      exact circular
    · cases same
  · rcases unreachedFault_cases fault with ⟨_, loop, same⟩ | ⟨_, _, _, _, _, same⟩
    · cases same
      exact (circular_of_firstLoop? loop).mono fun r mem => (List.mem_filter.mp mem).1
    · cases same

theorem missing_of_assemble {id p : String}
    (h : assemble records root = .error (.danglingParent id p)) :
    root = none ∧ (∃ r ∈ records, r.id = id ∧ r.parent = some p) ∧ ∀ q ∈ records, q.id ≠ p := by
  rcases assemble_eq_error h with failed | ⟨forest, seen, walk, fault⟩
  · rcases fault_of_walk (fun r top => (List.mem_filter.mp top).1) failed with ⟨_, same, _⟩ | ⟨_, same⟩ <;>
      cases same
  · rcases unreachedFault_cases fault with ⟨_, _, same⟩ | ⟨loop, whole, out, _⟩
    · cases same
    · obtain rfl := Option.isNone_iff_eq_none.mp whole
      have grown := grown_walkOver walk
      have none_loops : ¬∃ v, TransGen (Linked records) v v := by
        rintro ⟨v, around⟩
        have found := isSome_firstLoop?_iff.mpr ⟨v, grown.loop_unreached around⟩
        rw [loop] at found
        cases found
      obtain ⟨before, r, after, p', rfl, _, parent, missing, orphan⟩ :=
        grown.exists_dangling (not_loops_of_linked none_loops) out
      rw [Option.isNone_none, unreachedFault_of_orphan loop orphan, parent] at fault
      cases fault
      exact ⟨rfl, ⟨r, by simp, rfl, parent⟩, missing⟩

theorem not_linked_of_assemble (h : assemble records root = .ok f) :
    ¬∃ v, TransGen (Linked records) v v := by
  obtain ⟨seen, grown, clear⟩ := grown_of_assemble h
  rintro ⟨v, loop⟩
  exact (unreachedFault_eq_none_iff_linked.mp clear).2 ⟨v, grown.loop_unreached loop⟩

/-- The ids of a reported loop lie on closed chains of links among themselves, a parent reported missing is
that of a record in a whole document and is no record's id, and in what is assembled no links loop. -/
theorem assemble_faults (records : List Record) (root : Option String) :
    (∀ ids, assemble records root = .error (.cycleDetected ids) → Circular records ids) ∧
    (∀ id p, assemble records root = .error (.danglingParent id p) → root = none ∧
      (∃ r ∈ records, r.id = id ∧ r.parent = some p) ∧ ∀ q ∈ records, q.id ≠ p) ∧
    ∀ f, assemble records root = .ok f → ¬∃ v, TransGen (Linked records) v v :=
  ⟨fun _ h => circular_of_assemble h, fun _ _ h => missing_of_assemble h,
    fun _ h => not_linked_of_assemble h⟩

theorem assemble_faults_told :
    let looped : List Record := [⟨"6", none, "Joints"⟩, ⟨"6.1", some "6", "Bolts"⟩,
      ⟨"6", some "6.1", "Joints"⟩]
    let missing : List Record := [⟨"7", none, "Fatigue"⟩, ⟨"8.1", some "8", "Cranes"⟩,
      ⟨"8.1.1", some "8.1", "Rails"⟩, ⟨"8.1.1", some "8.1", "Rails"⟩]
    let part : List Record := [⟨"6.1", some "6", "Bolts"⟩, ⟨"6", some "5", "Joints"⟩]
    assemble looped none = .error (.cycleDetected ["6", "6.1"]) ∧ Circular looped ["6", "6.1"] ∧
      assemble missing none = .error (.danglingParent "8.1" "8") ∧ (∀ q ∈ missing, q.id ≠ "8") ∧
      (∃ f, assemble part (some "6") = .ok f) ∧ ¬∃ v, TransGen (Linked part) v v := by
  intro looped missing part
  have cycle : assemble looped none = .error (.cycleDetected ["6", "6.1"]) :=
    failure?_eq_some.mp (by decide +kernel)
  have dangling : assemble missing none = .error (.danglingParent "8.1" "8") :=
    failure?_eq_some.mp (by decide +kernel)
  have fine : (assemble part (some "6")).isOk = true := by decide +kernel
  cases made : assemble part (some "6") with
  | error e =>
    rw [made] at fine
    cases fine
  | ok f =>
    exact ⟨cycle, (assemble_faults looped none).1 _ cycle, dangling,
      ((assemble_faults missing none).2.1 _ _ dangling).2.2, ⟨f, rfl⟩,
      (assemble_faults part (some "6")).2.2 f made⟩

end BuildingCode.Clause

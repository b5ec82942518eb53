import BuildingCode.Proofs.Clause.Faults

/-! What is found wrong with the part of a document under one of its clauses. The walk does not count that
clause as entered; if the links lead back to it, they lead on to the first record under it, and whether
that closes a loop or repeats an id depends on where the first record leads. -/
namespace BuildingCode.Clause
open Outcome Relation

variable {records : List Record} {p id id' : String}

/-- The links lead from `p` back to it, but not from the first record under it, which has this id. -/
structure Bypassed (records : List Record) (p id : String) : Prop where
  first : ∃ r, (childrenOf records p).head? = some r ∧ r.id = id
  loop : TransGen (Linked records) p p
  apart : ¬ReflTransGen (Linked records) id p

theorem Bypassed.unique (h : Bypassed records p id) (h' : Bypassed records p id') : id = id' := by
  obtain ⟨r, first, rfl⟩ := h.first
  obtain ⟨r', first', rfl⟩ := h'.first
  rw [Option.some.inj (first.symm.trans first')]

theorem exists_loops_iff_linked (distinct : Distinct records) :
    (∃ r ∈ records, Loops records r) ↔ ∃ v, TransGen (Linked records) v v := by
  rw [← exists_loop_iff_linked distinct]
  constructor
  · rintro ⟨_, _, q, _, loop⟩
    exact ⟨q, Above.mem_of_transGen loop, loop⟩
  · rintro ⟨q, mem, loop⟩
    exact ⟨q, mem, q, .refl, loop⟩

theorem assemble_under_cases (distinct : Distinct records) (p : String) :
    ((∃ f, assemble records (some p) = .ok f) ∧ ¬∃ v, TransGen (Linked records) v v) ∨
    ((∃ ids, assemble records (some p) = .error (.cycleDetected ids)) ∧
      (∃ v, TransGen (Linked records) v v) ∧ ¬∃ id, Bypassed records p id) ∨
    ∃ id, assemble records (some p) = .error (.duplicateId id) ∧ Bypassed records p id := by
  cases walk : walkOver records (records.filter (·.parent == some p)) with
  | error e =>
    have failed : assemble records (some p) = .error e := by
      rw [assemble_eq, walk]
      rfl
    obtain ⟨_, first, before, r, after, ⟨nodes, seen⟩, path, ⟨⟩, opens, split, made, chain, rfl, same⟩ :=
      refused_of_walk distinct walk
    have link : ∀ s ∈ before ++ r :: after, Linked records p s.id := by
      intro s mem
      rw [← split, List.mem_filter] at mem
      exact ⟨s, mem.1, beq_iff_eq.mp mem.2, rfl⟩
    have loop : TransGen (Linked records) p p := .head' (link r (by simp)) chain
    rw [← childrenOf_eq_filter] at opens
    by_cases here : first.id = r.id
    · rw [refusal, if_pos (same.mpr here)] at failed
      refine .inr (.inl ⟨⟨_, failed⟩, ⟨p, loop⟩, ?_⟩)
      rintro ⟨_, ⟨_, first', rfl⟩, _, apart⟩
      cases opens.symm.trans first'
      exact apart (here ▸ chain)
    · rw [refusal, if_neg (mt same.mp here)] at failed
      refine .inr (.inr ⟨first.id, failed, ⟨first, opens, rfl⟩, loop, ?_⟩)
      -- The first record was left before the walk failed, so it lies on no loop.
      have grown := grown_walkOver made
      rw [childrenOf_eq_filter, split] at opens
      cases before with
      | nil =>
        cases opens
        exact absurd rfl here
      | cons s before =>
        cases opens
        intro back
        have mem := grown.accounts.mem_iff.mpr (List.mem_append_left _ List.mem_cons_self)
        exact grown.not_transGen mem (.tail' back (link first (by simp)))
  | ok made =>
    obtain ⟨forest, seen⟩ := made
    have grown := grown_walkOver walk
    have unlooped : ¬∃ id, Bypassed records p id := by
      rintro ⟨_, _, loop, _⟩
      obtain ⟨_, ⟨r, mem, parent, rfl⟩, back⟩ := TransGen.head'_iff.mp loop
      have reached : isReached (some p) seen r = true := isReached_eq_true_iff.mpr (.inl parent)
      exact grown.not_transGen (grown.mem_flatten_of_isReached mem reached)
        (.tail' back ⟨r, mem, parent, rfl⟩)
    cases result : assemble records (some p) with
    | ok f => exact .inl ⟨⟨f, rfl⟩, not_linked_of_assemble result⟩
    | error e =>
      rcases unreachedFault_cases ((assemble_error_iff_of_walk walk).mp result) with
        ⟨ids, _, rfl⟩ | ⟨_, whole, _⟩
      · exact .inr (.inl ⟨⟨ids, rfl⟩, (circular_of_assemble result).exists_loop, unlooped⟩)
      · cases whole

/-- Over distinct ids the part of a document under a clause is assembled unless the links of some record
loop. A loop is reported, except one through that clause that bypasses the first record under it: then
that record is said to stand there twice. -/
theorem assemble_under (distinct : Distinct records) (p : String) :
    ((∃ f, assemble records (some p) = .ok f) ↔ ¬∃ r ∈ records, Loops records r) ∧
    ((∃ ids, assemble records (some p) = .error (.cycleDetected ids)) ↔
      (∃ r ∈ records, Loops records r) ∧ ¬∃ id, Bypassed records p id) ∧
    ∀ id, assemble records (some p) = .error (.duplicateId id) ↔ Bypassed records p id := by
  rw [exists_loops_iff_linked distinct]
  rcases assemble_under_cases distinct p with ⟨⟨f, made⟩, none_loops⟩ | ⟨⟨ids, made⟩, loops, straight⟩ |
    ⟨id, made, bypassed⟩
  · have straight : ¬∃ id, Bypassed records p id := fun ⟨_, bypassed⟩ => none_loops ⟨p, bypassed.loop⟩
    simp [made, none_loops, not_exists.mp straight]
  · simp [made, loops, not_exists.mp straight]
  · have loops : ∃ v, TransGen (Linked records) v v := ⟨p, bypassed.loop⟩
    refine ⟨?_, ?_, fun id' => ?_⟩
    · simp [made, loops]
    · rw [made]
      constructor
      · rintro ⟨_, ⟨⟩⟩
      · rintro ⟨_, straight⟩
        exact absurd ⟨id, bypassed⟩ straight
    · rw [made]
      constructor
      · rintro ⟨⟩
        exact bypassed
      · intro other
        rw [bypassed.unique other]

/-- A clause stands under the second of two that stand under it. What is said of that depends on which of
them comes first. -/
theorem assemble_under_siblings :
    let joints : Record := ⟨"6", some "6.2", "Joints"⟩
    let bolts : Record := ⟨"6.1", some "6", "Bolts"⟩
    let welds : Record := ⟨"6.2", some "6", "Welds"⟩
    Distinct [joints, bolts, welds] ∧ Distinct [joints, welds, bolts] ∧
      assemble [joints, bolts, welds] (some "6") = .error (.duplicateId "6.1") ∧
      ∃ ids, assemble [joints, welds, bolts] (some "6") = .error (.cycleDetected ids) := by
  intro joints bolts welds
  have distinct : Distinct [joints, bolts, welds] := by decide
  have distinct' : Distinct [joints, welds, bolts] := by decide
  have down : Linked [joints, bolts, welds] "6" "6.2" := ⟨welds, by simp, rfl, rfl⟩
  have back : Linked [joints, bolts, welds] "6.2" "6" := ⟨joints, by simp, rfl, rfl⟩
  have down' : Linked [joints, welds, bolts] "6" "6.2" := ⟨welds, by simp, rfl, rfl⟩
  have back' : Linked [joints, welds, bolts] "6.2" "6" := ⟨joints, by simp, rfl, rfl⟩
  refine ⟨distinct, distinct', ?_, ?_⟩
  · refine ((assemble_under distinct "6").2.2 "6.1").mpr ⟨⟨bolts, rfl, rfl⟩, .tail (.single down) back, ?_⟩
    intro chain
    rcases ReflTransGen.cases_head chain with same | ⟨_, ⟨r, mem, parent, _⟩, _⟩
    · exact absurd same (by decide)
    · simp only [List.mem_cons, List.not_mem_nil, or_false] at mem
      rcases mem with rfl | rfl | rfl <;> exact absurd parent (by decide)
  · refine (assemble_under distinct' "6").2.1.mpr ⟨?_, ?_⟩
    · exact (exists_loops_iff_linked distinct').mpr ⟨"6", .tail (.single down') back'⟩
    · rintro ⟨_, ⟨_, first, rfl⟩, _, apart⟩
      cases first
      exact apart (.single back')

/-- Ids are distinct and links loop, but no loop is reported. -/
theorem assemble_under_repeated :
    let records : List Record := [⟨"6", some "6.2", "Joints"⟩, ⟨"6.1", some "6", "Bolts"⟩,
      ⟨"6.2", some "6", "Welds"⟩]
    Distinct records ∧ (∃ r ∈ records, Loops records r) ∧
      assemble records (some "6") = .error (.duplicateId "6.1") := by
  intro records
  have distinct : Distinct records := by decide
  have down : Linked records "6" "6.2" := ⟨⟨"6.2", some "6", "Welds"⟩, by simp [records], rfl, rfl⟩
  have back : Linked records "6.2" "6" := ⟨⟨"6", some "6.2", "Joints"⟩, by simp [records], rfl, rfl⟩
  have loops := (exists_loops_iff_linked distinct).mpr ⟨"6", .tail (.single down) back⟩
  exact ⟨distinct, loops, failure?_eq_some.mp (by decide +kernel)⟩

end BuildingCode.Clause

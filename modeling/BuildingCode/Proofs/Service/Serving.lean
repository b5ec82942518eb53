import BuildingCode.Proofs.Service.Builtins
import BuildingCode.Proofs.Service.History
import BuildingCode.Proofs.Store.Listing

/-! A service in front of a store that nothing goes around: every record in it was authored, and
every lookup asks it anew. What such a service computes is decided by what the store lists. -/
namespace BuildingCode.Service
open Formula Store Expression Outcome

/-- Puts no record past authoring and leaves the source up. -/
def Event.Authored : Event → Prop
  | .raw _ | .down _ => False
  | _ => True

def overStore (builtins : List Compiled) (limits : Limits) : Service :=
  ⟨builtins, some { lifetime := .zero, limits }, { store := { limits } }⟩

/-- Lookups answer from what the store lists at this moment, and all of that was authored. -/
structure Current (s : Service) (limits : Limits) : Prop where
  limits_eq : s.store.limits = limits
  settled : s.store.Settled
  asked : ∀ scope id,
    (s.cached scope id).1 = some (.ok (lastEntry limits (s.store.active scope) id))

theorem source_step_of_plain {s : Service} {e : Event} (plain : e.Plain) (authored : e.Authored) :
    (s.step e).2.source.raw = s.source.raw ∧ (s.step e).2.source.down = s.source.down := by
  cases e with
  | create | update =>
    rw [step, after_writtenRecord]
    exact ⟨rfl, rfl⟩
  | insert | deactivate =>
    rw [step, after_written]
    exact ⟨rfl, rfl⟩
  | cached scope id =>
    obtain ⟨loads, counted⟩ := s.source_cached scope id
    rw [step_cached, counted]
    exact ⟨rfl, rfl⟩
  | resolve | compute | request | batch => cases plain
  | raw | down => cases authored
  | _ => exact ⟨rfl, rfl⟩

theorem source_after {s : Service} {es : List Event} (authored : ∀ e ∈ es, e.Authored) :
    (s.after es).source.raw = s.source.raw ∧ (s.after es).source.down = s.source.down := by
  rw [← after_plainly]
  refine after_of_forall (Q := fun e => e.Plain ∧ e.Authored)
    (P := fun t => t.source.raw = s.source.raw ∧ t.source.down = s.source.down) ⟨rfl, rfl⟩ ?_ ?_
  · rintro t e ⟨plain, authored⟩ ⟨raw, down⟩
    obtain ⟨raw', down'⟩ := source_step_of_plain (s := t) plain authored
    exact ⟨raw'.trans raw, down'.trans down⟩
  · intro e member
    obtain ⟨whole, mem, part⟩ := List.mem_flatMap.mp member
    refine ⟨plain_of_mem part, ?_⟩
    rcases plain_cases part with ⟨rfl, _⟩ | ⟨scope, id, rfl⟩
    · exact authored e mem
    · trivial

theorem current_after {builtins : List Compiled} {limits : Limits} {es : List Event}
    (authored : ∀ e ∈ es, e.Authored) : ((overStore builtins limits).after es).Current limits := by
  let s := overStore builtins limits
  obtain ⟨same, settled⟩ := settled_after (s := s) (FormulaStore.settled_empty limits) es
  obtain ⟨raw, up⟩ := source_after (s := s) authored
  have mirrors : (s.after es).Mirrors .zero limits (s.history [] (s.plainly es)) := by
    rw [← after_plainly]
    exact (Mirrors.start (s := s) rfl rfl).after_of_plain fun e => plain_of_mem_plainly
  refine ⟨same, settled, ?_⟩
  intro scope id
  rw [mirrors.serves.current scope id (.inl rfl) up, Source.listed, raw]
  change some (Except.ok (lastEntry limits (_ ++ []) id)) = _
  rw [List.append_nil]
  rfl

theorem evaluate_error_cases {c : Compiled} {values : Values} {fault : ComputeFault}
    (h : evaluate c values = .error fault) :
    (∃ vs, fault = .invalidParameters vs) ∨ ∃ cause, fault = .evaluation cause := by
  rcases bind_eq_error.mp h with unbound | ⟨bound, _, h⟩
  · obtain ⟨vs, rfl⟩ := told_of_mapError unbound
    exact .inl ⟨vs, rfl⟩
  · rcases bind_eq_error.mp h with failed | ⟨e, _, h⟩
    · obtain ⟨cause, rfl⟩ := told_of_mapError failed
      exact .inr ⟨cause, rfl⟩
    · cases h

theorem evaluate_ne_unknown (c : Compiled) (values : Values) (id : String) :
    evaluate c values ≠ .error (.unknownFormula id) := by
  intro h
  rcases evaluate_error_cases h with ⟨_, ⟨⟩⟩ | ⟨_, ⟨⟩⟩

section
variable {s : Service} {r : Request} {limits : Limits} {scope : String} {q : CustomFormula}

theorem compute_eq (s : Service) (r : Request) : (s.compute r).1 =
    match (s.resolve (Text.trim r.blockId) (Text.nonBlank r.scope)).1 with
    | some (.ok c) => evaluate c r.values
    | some (.error fault) => .error (.compilation fault)
    | none => .error (.unknownFormula (Text.trim r.blockId)) := by
  rw [compute, formulaFor]
  rcases s.resolve (Text.trim r.blockId) (Text.nonBlank r.scope) with ⟨_ | _ | _, _⟩ <;> rfl

namespace Current

theorem resolve_eq (current : s.Current limits) {id : String} (outside : s.builtin? id = none)
    (scope : String) :
    (s.resolve id (some scope)).1 = lastEntry limits (s.store.active scope) id := by
  have asked := current.asked scope id
  unfold resolve
  rw [outside]
  dsimp only
  generalize s.cached scope id = answer at asked ⊢
  obtain ⟨found, t⟩ := answer
  obtain rfl : found = some (.ok (lastEntry limits (s.store.active scope) id)) := asked
  rfl

theorem compiles_of_listed (current : s.Current limits) (listed : q ∈ s.store.active scope) :
    ∃ c, compile limits q.definition = .ok c := by
  have stored := (current.settled.mem_active_iff.mp listed).1
  rw [← current.limits_eq]
  exact (current.settled q.id q stored).2.compiles

theorem compute_of_listed (current : s.Current limits)
    (outside : s.builtin? (Text.trim r.blockId) = none)
    (within : Text.nonBlank r.scope = some scope) (listed : q ∈ s.store.active scope)
    (named : q.id = Text.trim r.blockId) {c : Compiled}
    (compiled : compile limits q.definition = .ok c) : (s.compute r).1 = evaluate c r.values := by
  rw [compute_eq, within, current.resolve_eq outside, ← named,
    current.settled.lastEntry_active listed, compiled]

/-- A formula is unknown exactly if it is neither built in nor listed for a scope that is named. -/
theorem unknown_iff (current : s.Current limits) (r : Request) :
    (∃ id, (s.compute r).1 = .error (.unknownFormula id)) ↔
      s.builtin? (Text.trim r.blockId) = none ∧
        ∀ scope, Text.nonBlank r.scope = some scope →
          ∀ q ∈ s.store.active scope, q.id ≠ Text.trim r.blockId := by
  constructor
  · rintro ⟨id, unknown⟩
    cases found : s.builtin? (Text.trim r.blockId) with
    | some c =>
      rw [compute_of_builtin found] at unknown
      exact absurd unknown (evaluate_ne_unknown c r.values id)
    | none =>
      refine ⟨rfl, ?_⟩
      intro scope within q listed named
      obtain ⟨c, compiled⟩ := current.compiles_of_listed listed
      rw [current.compute_of_listed found within listed named compiled] at unknown
      exact evaluate_ne_unknown c r.values id unknown
  · rintro ⟨outside, unlisted⟩
    refine ⟨Text.trim r.blockId, ?_⟩
    rw [compute_eq]
    cases within : Text.nonBlank r.scope with
    | none =>
      unfold resolve
      rw [outside]
    | some scope =>
      rw [current.resolve_eq outside, lastEntry_eq_none_iff.mpr (unlisted scope within)]

theorem compute_of_trimmed (current : s.Current limits) (trimmed : Text.trim scope = scope)
    (filled : Text.isBlank scope = false) (listed : q ∈ s.store.active scope)
    (named : Text.trim q.id = q.id) (outside : s.builtin? q.id = none) {c : Compiled}
    (compiled : compile limits q.definition = .ok c) (values : Values) :
    (s.compute ⟨q.id, values, some scope⟩).1 = evaluate c values := by
  refine current.compute_of_listed (r := ⟨q.id, values, some scope⟩) ?_
    (Text.nonBlank_of_trimmed trimmed filled) listed named.symm compiled
  rwa [named]

end Current
end

/-- After every session a formula is unknown exactly if it is neither built in nor listed for the
scope, both taken without the blanks around them. So a listed formula whose id and scope have none is
computed, and never unknown. -/
theorem computes_listed (builtins : List Compiled) (limits : Limits) {es : List Event}
    (authored : ∀ e ∈ es, e.Authored) :
    let s := (overStore builtins limits).after es
    (∀ r : Request, (∃ id, (s.compute r).1 = .error (.unknownFormula id)) ↔
      s.builtin? (Text.trim r.blockId) = none ∧
        ∀ scope, Text.nonBlank r.scope = some scope →
          ∀ q ∈ s.store.active scope, q.id ≠ Text.trim r.blockId) ∧
    ∀ scope, Text.trim scope = scope → Text.isBlank scope = false →
      ∀ q ∈ s.store.active scope, Text.trim q.id = q.id → s.builtin? q.id = none →
        ∃ c, compile limits q.definition = .ok c ∧
          ∀ values, (s.compute ⟨q.id, values, some scope⟩).1 = evaluate c values ∧
            ∀ id, (s.compute ⟨q.id, values, some scope⟩).1 ≠ .error (.unknownFormula id) := by
  intro s
  have current : s.Current limits := current_after authored
  refine ⟨current.unknown_iff, ?_⟩
  intro scope trimmed filled q listed named outside
  obtain ⟨c, compiled⟩ := current.compiles_of_listed listed
  refine ⟨c, compiled, ?_⟩
  intro values
  rw [current.compute_of_trimmed trimmed filled listed named outside compiled values]
  exact ⟨rfl, evaluate_ne_unknown c values⟩

theorem computes_listed_seeded :
    let formula (id : String) : CustomFormula :=
      ⟨{ id, title := "Area", displayExpression := "A", params := [], expression := "e"
         resultLabel := "A" }, "deck", true⟩
    let s := (overStore [] {}).after
      [.insert (formula "a1"), .insert (formula "a2"), .deactivate "a2"]
    (∃ c, compile {} (formula "a1").definition = .ok c ∧
      (s.compute ⟨"a1", [], some "deck"⟩).1 = evaluate c []) ∧
    ∃ id, (s.compute ⟨"a2", [], some "deck"⟩).1 = .error (.unknownFormula id) := by
  intro formula s
  have authored : ∀ e ∈ [Event.insert (formula "a1"), .insert (formula "a2"), .deactivate "a2"],
      e.Authored := by simp [Event.Authored]
  obtain ⟨unknown, computed⟩ := computes_listed [] {} authored
  have settled : s.store.Settled := (current_after authored).settled
  have outside : ∀ id, s.builtin? id = none := builtin?_after (overStore [] {}) _
  constructor
  · have listed : formula "a1" ∈ s.store.active "deck" :=
      settled.mem_active_iff.mpr ⟨by decide +kernel, rfl, rfl⟩
    obtain ⟨c, compiled, evaluated⟩ :=
      computed "deck" (by decide) (by decide) _ listed (by decide) (outside _)
    exact ⟨c, compiled, (evaluated []).1⟩
  · refine (unknown ⟨"a2", [], some "deck"⟩).mpr ⟨outside _, ?_⟩
    intro scope _ q listed named
    obtain ⟨found, used, _⟩ := settled.mem_active_iff.mp listed
    have idle : (s.store.get? "a2").map (·.isActive) = some false := by decide +kernel
    rw [← show q.id = "a2" from named, found, Option.map_some, used] at idle
    cases idle

/-- Ids and scopes are stored with the blanks around them, which requests never have. -/
theorem listed_unknown :
    let formula (id scope : String) : CustomFormula :=
      ⟨{ id, title := "Area", displayExpression := "A", params := [], expression := "e"
         resultLabel := "A" }, scope, true⟩
    let rs := [formula " a1 " "deck", formula "a2" " deck ", formula "a3" ""]
    let s := (overStore [] {}).after (rs.map .insert)
    ∀ q ∈ rs, q ∈ s.store.active q.scope ∧ s.builtin? q.id = none ∧
      ∀ values, ∃ id, (s.compute ⟨q.id, values, some q.scope⟩).1 = .error (.unknownFormula id) := by
  intro formula rs s
  have authored : ∀ e ∈ rs.map Event.insert, e.Authored := by simp [rs, Event.Authored]
  have current : s.Current {} := current_after authored
  have outside : ∀ id, s.builtin? id = none := builtin?_after (overStore [] {}) _
  have stored : ∀ q ∈ rs, s.store.get? q.id = some q ∧ q.isActive = true := by decide +kernel
  have elsewhere : ∀ q ∈ rs, (s.store.get? (Text.trim q.id)).map (·.scope) ≠
      Text.nonBlank (some q.scope) := by decide +kernel
  intro q mem
  obtain ⟨found, active⟩ := stored q mem
  refine ⟨current.settled.mem_active_iff.mpr ⟨found, active, rfl⟩, outside q.id, ?_⟩
  intro values
  refine (current.unknown_iff ⟨q.id, values, some q.scope⟩).mpr ⟨outside _, ?_⟩
  intro scope within p listed named
  obtain ⟨found, _, same⟩ := current.settled.mem_active_iff.mp listed
  refine elsewhere q mem ?_
  rw [← show p.id = Text.trim q.id from named, found, Option.map_some, same]
  exact within.symm

end BuildingCode.Service

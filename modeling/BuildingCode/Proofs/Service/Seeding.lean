import BuildingCode.Proofs.Service.Serving

/-! A service in front of a store that was filled beforehand and is only read from then on. Whatever
its cache has come to keep by now, it answers from what the store lists. -/
namespace BuildingCode.Service
open Formula Store Expression

/-- Nothing but a settled store is listed, and the cache keeps nothing else. -/
structure Seeded (s : Service) (limits : Limits) : Prop where
  limits_eq : s.store.limits = limits
  settled : s.store.Settled
  listed : s.source.listed = s.store.active
  up : s.source.down = false
  reflects : ∃ c, s.cache = some c ∧ c.limits = limits ∧ c.Reflects s.source

section
variable {s : Service} {limits : Limits} {r : Request} {c : Compiled}

namespace Seeded

theorem cached (seeded : s.Seeded limits) (scope id : String) :
    (s.cached scope id).1 = some (.ok (lastEntry limits (s.store.active scope) id)) ∧
      (s.cached scope id).2.Seeded limits ∧ (s.cached scope id).2.store = s.store := by
  obtain ⟨c, attached, rfl, reflects⟩ := seeded.reflects
  obtain ⟨answered, same, kept⟩ := reflects.get seeded.up scope id
  obtain ⟨loads, counted⟩ := s.source_cached scope id
  have store : (s.cached scope id).2.store = s.store := by rw [Service.store, counted, Service.store]
  refine ⟨?_, ⟨?_, ?_, ?_, ?_, ?_⟩, store⟩
  · rw [← seeded.listed, ← answered, Service.cached, attached]
  · rw [store, seeded.limits_eq]
  · rw [store]
    exact seeded.settled
  · rw [store, ← seeded.listed, counted]
    rfl
  · rw [counted, seeded.up]
  · rw [Service.cached, attached]
    exact ⟨_, rfl, same, kept⟩

theorem current (seeded : s.Seeded limits) : s.Current limits :=
  ⟨seeded.limits_eq, seeded.settled, fun scope id => (seeded.cached scope id).1⟩

theorem formulaFor (seeded : s.Seeded limits) (r : Request) :
    (s.formulaFor r).2.Seeded limits ∧ (s.formulaFor r).2.store = s.store := by
  rw [formulaFor_eq_after]
  unfold lookupFor lookup
  split
  · exact ⟨seeded, rfl⟩
  · split
    · exact ⟨seeded, rfl⟩
    · rw [after_singleton, step_cached]
      exact (seeded.cached _ _).2

end Seeded

theorem exists_scope_of_formulaFor (outside : s.builtin? (Text.trim r.blockId) = none)
    (found : (s.formulaFor r).1 = .ok c) : ∃ scope, r.scope = some scope ∧
      (s.resolve (Text.trim r.blockId) (some (Text.trim scope))).1 = some (.ok c) := by
  have first : (s.resolve (Text.trim r.blockId) (Text.nonBlank r.scope)).1 = some (.ok c) := by
    rw [formulaFor] at found
    generalize s.resolve (Text.trim r.blockId) (Text.nonBlank r.scope) = answer at found ⊢
    rcases answer with ⟨_ | _ | _, _⟩ <;> cases found
    rfl
  have nowhere : (s.resolve (Text.trim r.blockId) none).1 = none := by
    unfold resolve
    rw [outside]
  cases given : r.scope with
  | none =>
    rw [given] at first
    cases nowhere.symm.trans first
  | some scope =>
    rw [given, Text.nonBlank_some] at first
    split at first
    · cases nowhere.symm.trans first
    · exact ⟨scope, rfl, first⟩

theorem attached_of_resolve {id : String} {scope : Option String} {e : Entry}
    (outside : s.builtin? id = none) (found : (s.resolve id scope).1 = some e) : s.cache ≠ none := by
  intro detached
  unfold resolve cached at found
  rw [outside, detached] at found
  cases scope <;> cases found

/-- Once a request has found its formula, the formula is found again in the scope as it was given,
unless it is a custom one and the scope has blanks around it. -/
theorem resolve_as_given (serves : s.cache = none ∨ s.Seeded limits)
    (found : (s.formulaFor r).1 = .ok c) :
    ((s.formulaFor r).2.resolve (Text.trim r.blockId) r.scope).1 =
      if (s.builtin? (Text.trim r.blockId)).isSome ∨ r.scope.map Text.trim = r.scope then
        some (.ok c) else none := by
  cases outside : s.builtin? (Text.trim r.blockId) with
  | some b =>
    rw [formulaFor_of_builtin outside] at found ⊢
    cases found
    rw [resolve_of_builtin outside, if_pos (.inl rfl)]
  | none =>
    obtain ⟨scope, given, first⟩ := exists_scope_of_formulaFor outside found
    have seeded := serves.resolve_left (attached_of_resolve outside first)
    obtain ⟨again, store⟩ := seeded.formulaFor r
    have outside' : (s.formulaFor r).2.builtin? (Text.trim r.blockId) = none := by
      rw [formulaFor_eq_after, builtin?_after, outside]
    rw [seeded.current.resolve_eq outside] at first
    rw [given, again.current.resolve_eq outside', store]
    by_cases trimmed : Text.trim scope = scope
    · rw [if_pos (.inr (congrArg some trimmed)), ← first, trimmed]
    · rw [if_neg (by simp [trimmed])]
      apply seeded.settled.lastEntry_elsewhere
      · rw [first]
        simp
      · exact fun same => trimmed same.symm

end
end BuildingCode.Service

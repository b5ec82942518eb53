import BuildingCode.Proofs.Service.Sessions
import BuildingCode.Proofs.Store.Cache

/-! What a cache answers, told without the cache: by the history of loads, each with the list that
the source gave, and of what was forgotten since. After every session the cache mirrors its
history. -/
namespace BuildingCode.Service
open Formula Store

/-- What decides what is known of a scope. -/
inductive Deed where
  | loaded (scope : String) (records : List CustomFormula)
  | invalidated (scope : String)
  | cleared

def remembered (scope : String) : List Deed → Option (List CustomFormula)
  | [] => none
  | .loaded other records :: h => if other = scope then some records else remembered scope h
  | .invalidated other :: h => if other = scope then none else remembered scope h
  | .cleared :: _ => none

/-- What a plain event adds to the history. A get adds a load when it was counted as one and the
source was there to answer. -/
def deed? (s : Service) : Event → Option Deed
  | .cached scope id =>
    if (s.cached scope id).2.source.loads = s.source.loads ∨ s.source.down then none
    else some (.loaded scope (s.source.listed scope))
  | .invalidate scope => some (.invalidated scope)
  | .clear => some .cleared
  | _ => none

/-- The history that plain events make of a history. -/
def history (s : Service) (h : List Deed) : List Event → List Deed
  | [] => h
  | e :: es => (s.step e).2.history ((s.deed? e).toList ++ h) es

/-- The cache of the service holds, compiled, what the history remembers. -/
def Mirrors (s : Service) (lifetime : Lifetime) (limits : Expression.Limits) (h : List Deed) : Prop :=
  ∃ c, s.cache = some c ∧ c.lifetime = lifetime ∧ c.limits = limits ∧
    ∀ scope, c.scopes[scope]? = (remembered scope h).map (compileScope limits)

section
variable {s : Service} {c : Cache} {scope : String}

theorem cached_of_fresh (attached : s.cache = some c) {entries : ScopeEntries}
    (fresh : c.fresh? scope = some entries) (id : String) :
    s.cached scope id = (some (.ok entries[id]?), s) := by
  rw [cached, attached]
  simp only [c.get_of_fresh fresh, ← attached]

theorem cached_of_down (attached : s.cache = some c) (stale : c.fresh? scope = none)
    (down : s.source.down = true) (id : String) :
    s.cached scope id = (some (.error (.unavailable "down")),
      { s with source := { s.source with loads := s.source.loads + 1 } }) := by
  rw [cached, attached]
  simp only [c.get_of_down stale down, ← attached]

theorem cached_of_up (attached : s.cache = some c) (stale : c.fresh? scope = none)
    (up : s.source.down = false) (id : String) :
    s.cached scope id = (some (.ok (lastEntry c.limits (s.source.listed scope) id)),
      { s with
        cache := some (c.keep scope (compileScope c.limits (s.source.listed scope)))
        source := { s.source with loads := s.source.loads + 1 } }) := by
  rw [cached, attached]
  simp only [c.get_of_up stale up]

end

namespace Mirrors

variable {s : Service} {lifetime : Lifetime} {limits : Expression.Limits} {h : List Deed}

theorem start {c : Cache} (attached : s.cache = some c) (empty : c.scopes = ∅) :
    s.Mirrors c.lifetime c.limits [] :=
  ⟨c, attached, rfl, rfl, fun scope => by simp [empty, remembered]⟩

theorem of_cache_eq {t : Service} (m : s.Mirrors lifetime limits h) (same : t.cache = s.cache) :
    t.Mirrors lifetime limits h := by
  obtain ⟨c, attached, rest⟩ := m
  exact ⟨c, same.trans attached, rest⟩

theorem cached (m : s.Mirrors lifetime limits h) (scope id : String) :
    (s.cached scope id).2.Mirrors lifetime limits ((s.deed? (.cached scope id)).toList ++ h) := by
  obtain ⟨c, attached, rfl, rfl, scopes⟩ := m
  rw [deed?]
  cases fresh : c.fresh? scope with
  | some entries =>
    rw [cached_of_fresh attached fresh, if_pos (.inl rfl)]
    exact ⟨c, attached, rfl, rfl, scopes⟩
  | none =>
    cases available : s.source.down with
    | true =>
      rw [cached_of_down attached fresh available, if_pos (.inr rfl)]
      exact ⟨c, attached, rfl, rfl, scopes⟩
    | false =>
      -- Only here the map changes, and at this scope alone; so does what is remembered.
      rw [cached_of_up attached fresh available, if_neg (by simp)]
      refine ⟨_, rfl, rfl, rfl, fun other => ?_⟩
      change (c.scopes.insert scope _)[other]? = _
      rw [Std.TreeMap.getElem?_insert, scopes]
      by_cases same : scope = other <;>
        simp [remembered, same, Std.LawfulEqCmp.compare_eq_iff_eq]

theorem invalidate (m : s.Mirrors lifetime limits h) (scope : String) :
    (s.step (.invalidate scope)).2.Mirrors lifetime limits (.invalidated scope :: h) := by
  obtain ⟨c, attached, rfl, rfl, scopes⟩ := m
  refine ⟨c.invalidate scope, by simp [step, attached], rfl, rfl, fun other => ?_⟩
  rw [Cache.invalidate, Std.TreeMap.getElem?_erase, scopes]
  by_cases same : scope = other <;> simp [remembered, same, Std.LawfulEqCmp.compare_eq_iff_eq]

theorem clear (m : s.Mirrors lifetime limits h) :
    (s.step .clear).2.Mirrors lifetime limits (.cleared :: h) := by
  obtain ⟨c, attached, rfl, rfl, _⟩ := m
  exact ⟨c.clear, by simp [step, attached], rfl, rfl, fun scope => by simp [Cache.clear, remembered]⟩

theorem step_of_plain (m : s.Mirrors lifetime limits h) {e : Event} (plain : e.Plain) :
    (s.step e).2.Mirrors lifetime limits ((s.deed? e).toList ++ h) := by
  cases e with
  | create | update =>
    rw [step, after_writtenRecord]
    exact m.of_cache_eq rfl
  | insert | deactivate =>
    rw [step, after_written]
    exact m.of_cache_eq rfl
  | cached scope id =>
    rw [step_cached]
    exact m.cached scope id
  | invalidate scope => exact m.invalidate scope
  | clear => exact m.clear
  | resolve | compute | request | batch => cases plain
  | _ => exact m.of_cache_eq rfl

theorem after_of_plain (m : s.Mirrors lifetime limits h) {es : List Event}
    (plain : ∀ e ∈ es, e.Plain) : (s.after es).Mirrors lifetime limits (s.history h es) := by
  induction es generalizing s h with
  | nil => exact m
  | cons e es ih =>
    obtain ⟨first, rest⟩ := List.forall_mem_cons.mp plain
    exact ih (m.step_of_plain first) rest

variable {scope : String}

theorem exists_fresh (m : s.Mirrors .endless limits h) {records : List CustomFormula}
    (known : remembered scope h = some records) :
    ∃ c, s.cache = some c ∧ c.fresh? scope = some (compileScope limits records) := by
  obtain ⟨c, attached, endless, _, scopes⟩ := m
  exact ⟨c, attached, by simp [Cache.fresh?, endless, scopes, known]⟩

theorem exists_stale (m : s.Mirrors lifetime limits h)
    (unknown : lifetime = .zero ∨ remembered scope h = none) :
    ∃ c, s.cache = some c ∧ c.limits = limits ∧ c.fresh? scope = none := by
  obtain ⟨c, attached, rfl, rfl, scopes⟩ := m
  refine ⟨c, attached, rfl, ?_⟩
  rcases unknown with zero | unknown
  · simp [Cache.fresh?, zero]
  · cases lifetime : c.lifetime <;> simp [Cache.fresh?, lifetime, scopes, unknown]

end Mirrors

/-- What every get does at a history. It answers from what is remembered and then asks nobody, or it
counts one load and answers from the list of that moment. A load that fails leaves the cache. -/
structure Serves (s : Service) (lifetime : Lifetime) (limits : Expression.Limits)
    (h : List Deed) : Prop where
  known : ∀ scope id records, lifetime = .endless → remembered scope h = some records →
    s.cached scope id = (some (.ok (lastEntry limits records id)), s)
  counted : ∀ scope id, lifetime = .zero ∨ remembered scope h = none →
    (s.cached scope id).2.source = { s.source with loads := s.source.loads + 1 }
  current : ∀ scope id, lifetime = .zero ∨ remembered scope h = none → s.source.down = false →
    (s.cached scope id).1 = some (.ok (lastEntry limits (s.source.listed scope) id))
  failed : ∀ scope id, lifetime = .zero ∨ remembered scope h = none → s.source.down = true →
    (s.cached scope id).1 = some (.error (.unavailable "down")) ∧
      (s.cached scope id).2.cache = s.cache

theorem Mirrors.serves {s : Service} {lifetime : Lifetime} {limits : Expression.Limits}
    {h : List Deed} (m : s.Mirrors lifetime limits h) : s.Serves lifetime limits h where
  known scope id records endless known := by
    subst endless
    obtain ⟨c, attached, fresh⟩ := m.exists_fresh known
    rw [cached_of_fresh attached fresh, getElem?_compileScope]
  counted scope id unknown := by
    obtain ⟨c, attached, _, stale⟩ := m.exists_stale unknown
    cases available : s.source.down with
    | true => rw [cached_of_down attached stale available]
    | false => rw [cached_of_up attached stale available]
  current scope id unknown up := by
    obtain ⟨c, attached, rfl, stale⟩ := m.exists_stale unknown
    rw [cached_of_up attached stale up]
  failed scope id unknown down := by
    obtain ⟨c, attached, _, stale⟩ := m.exists_stale unknown
    rw [cached_of_down attached stale down]
    exact ⟨rfl, rfl⟩

theorem cached_step_invalidate (s : Service) {other scope : String} (apart : other ≠ scope)
    (id : String) :
    ((s.step (.invalidate other)).2.cached scope id).1 = (s.cached scope id).1 ∧
      ((s.step (.invalidate other)).2.cached scope id).2.source = (s.cached scope id).2.source := by
  cases attached : s.cache with
  | none => simp [step, cached, attached]
  | some c =>
    have attached' : (s.step (.invalidate other)).2.cache = some (c.invalidate other) := by
      simp [step, attached]
    have same : (c.invalidate other).fresh? scope = c.fresh? scope := by
      simp [Cache.fresh?, Cache.invalidate, Std.TreeMap.getElem?_erase,
        Std.LawfulEqCmp.compare_eq_iff_eq, apart]
    cases fresh : c.fresh? scope with
    | some entries =>
      rw [cached_of_fresh attached fresh, cached_of_fresh attached' (same.trans fresh)]
      exact ⟨rfl, rfl⟩
    | none =>
      cases available : s.source.down with
      | true =>
        rw [cached_of_down attached fresh available,
          cached_of_down attached' (same.trans fresh) available]
        exact ⟨rfl, rfl⟩
      | false =>
        rw [cached_of_up attached fresh available,
          cached_of_up attached' (same.trans fresh) available]
        exact ⟨rfl, rfl⟩

/-- A session leaves what its plain events leave. If it began with an empty cache, a get at any
point between these answers as the history so far says, and invalidating a scope changes nothing for
another. -/
theorem serves_in_session {s : Service} {c : Cache} (attached : s.cache = some c)
    (empty : c.scopes = ∅) (es : List Event) :
    s.after (s.plainly es) = s.after es ∧
      ∀ before rest, s.plainly es = before ++ rest →
        (s.after before).Serves c.lifetime c.limits (s.history [] before) ∧
        ∀ other scope id, other ≠ scope →
          (((s.after before).step (.invalidate other)).2.cached scope id).1 =
              ((s.after before).cached scope id).1 ∧
            (((s.after before).step (.invalidate other)).2.cached scope id).2.source =
              ((s.after before).cached scope id).2.source := by
  refine ⟨after_plainly s es, fun before rest split => ⟨?_, ?_⟩⟩
  · have plain : ∀ e ∈ before, e.Plain := fun e member =>
      plain_of_mem_plainly (split ▸ List.mem_append_left rest member)
    exact ((Mirrors.start attached empty).after_of_plain plain).serves
  · exact fun other scope id apart => cached_step_invalidate _ apart id

theorem serves_in_session_outage :
    ∃ (s : Service) (c : Cache) (old new : CustomFormula), s.cache = some c ∧ c.scopes = ∅ ∧
      old ≠ new ∧
      let t := s.after [.raw old, .cached "deck" "a1", .raw new, .down true]
      s.after [.raw old, .resolve "a1" (some "deck"), .raw new, .down true] = t ∧
        t.source.listed "deck" = [old, new] ∧
        t.cached "deck" "a1" = (some (.ok (lastEntry c.limits [old] "a1")), t) ∧
        (t.cached "hall" "a1").1 = some (.error (.unavailable "down")) ∧
        (t.cached "hall" "a1").2.cache = t.cache := by
  let formula (expression : String) : CustomFormula :=
    ⟨{ id := "a1", title := "Area", displayExpression := "A", params := [], expression
       resultLabel := "A" }, "deck", true⟩
  let c : Cache := ⟨.endless, {}, ∅⟩
  let s : Service := ⟨[], some c, { store := { limits := {} } }⟩
  let events : List Event :=
    [.raw (formula "e"), .cached "deck" "a1", .raw (formula "pi"), .down true]
  obtain ⟨same, serves⟩ := serves_in_session (s := s) (c := c) rfl rfl
    [.raw (formula "e"), .resolve "a1" (some "deck"), .raw (formula "pi"), .down true]
  have served := (serves events [] rfl).1
  have known : remembered "deck" (s.history [] events) = some [formula "e"] := by decide +kernel
  have unknown : remembered "hall" (s.history [] events) = none := by decide +kernel
  have listed : (s.after events).source.listed "deck" = [formula "e", formula "pi"] := by
    decide +kernel
  have refused := served.failed "hall" "a1" (.inr unknown) rfl
  exact ⟨s, c, formula "e", formula "pi", rfl, rfl, by decide, same.symm, listed,
    served.known "deck" "a1" _ rfl known, refused.1, refused.2⟩

end BuildingCode.Service

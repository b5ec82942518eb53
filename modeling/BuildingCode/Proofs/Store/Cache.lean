import BuildingCode.Store.Source
import Mathlib.Data.List.Induction

/-! One get, case by case, and what a loaded scope answers. -/
namespace BuildingCode.Store
open Formula Expression

/-- What a list of records says of an id. The last record with it counts. -/
def lastEntry (limits : Limits) (records : List CustomFormula) (id : String) : Option Entry :=
  (records.reverse.find? (·.id == id)).map fun r => compile limits r.definition

theorem compileScope_append_singleton (limits : Limits) (records : List CustomFormula)
    (r : CustomFormula) : compileScope limits (records ++ [r]) =
      (compileScope limits records).insert r.id (compile limits r.definition) := by
  rw [compileScope, List.foldl_append]
  rfl

theorem getElem?_compileScope (limits : Limits) (records : List CustomFormula) (id : String) :
    (compileScope limits records)[id]? = lastEntry limits records id := by
  induction records using List.reverseRecOn with
  | nil => simp [compileScope, lastEntry]
  | append_singleton records r ih =>
    rw [compileScope_append_singleton, Std.TreeMap.getElem?_insert, ih]
    by_cases same : r.id = id
    · simp [lastEntry, same]
    · simp [lastEntry, same, Std.LawfulEqCmp.compare_eq_iff_eq]

namespace Cache

variable {c : Cache} {s : Source} {scope : String} {entries : ScopeEntries}

theorem kept_of_fresh (h : c.fresh? scope = some entries) : c.scopes[scope]? = some entries := by
  unfold fresh? at h
  split at h
  · cases h
  · exact h

theorem get_of_fresh (h : c.fresh? scope = some entries) (s : Source) (id : String) :
    c.get s scope id = (.ok entries[id]?, c, s) := by
  rw [get, h]

theorem get_of_down (h : c.fresh? scope = none) (down : s.down = true) (id : String) :
    c.get s scope id =
      (.error (.unavailable "down"), c, { s with loads := s.loads + 1 }) := by
  simp [get, h, Source.load, down]

theorem get_of_up (h : c.fresh? scope = none) (up : s.down = false) (id : String) :
    c.get s scope id =
      (.ok (lastEntry c.limits (s.listed scope) id),
        c.keep scope (compileScope c.limits (s.listed scope)), { s with loads := s.loads + 1 }) := by
  simp [get, h, Source.load, up, getElem?_compileScope]

theorem source_get (c : Cache) (s : Source) (scope id : String) :
    ∃ loads, (c.get s scope id).2.2 = { s with loads } := by
  cases fresh : c.fresh? scope with
  | some entries => exact ⟨s.loads, by rw [get_of_fresh fresh]⟩
  | none =>
    cases down : s.down with
    | true => exact ⟨s.loads + 1, by rw [get_of_down fresh down, down]⟩
    | false => exact ⟨s.loads + 1, by rw [get_of_up fresh down, down]⟩

/-- Whatever is kept for a scope is what the source would list for it now. -/
def Reflects (c : Cache) (s : Source) : Prop :=
  ∀ scope entries, c.scopes[scope]? = some entries → entries = compileScope c.limits (s.listed scope)

namespace Reflects

theorem empty (h : c.scopes = ∅) (s : Source) : c.Reflects s := by
  intro scope entries kept
  rw [h] at kept
  simp at kept

theorem keep (h : c.Reflects s) (scope : String) :
    (c.keep scope (compileScope c.limits (s.listed scope))).Reflects s := by
  intro other entries kept
  rw [Cache.keep, Std.TreeMap.getElem?_insert] at kept
  split at kept
  · rename_i same
    cases Std.LawfulEqCmp.compare_eq_iff_eq.mp same
    cases kept
    rfl
  · exact h other entries kept

/-- A cache that reflects an available source answers what the source lists, and goes on to. -/
theorem get (h : c.Reflects s) (up : s.down = false) (scope id : String) :
    (c.get s scope id).1 = .ok (lastEntry c.limits (s.listed scope) id) ∧
      (c.get s scope id).2.1.limits = c.limits ∧
      (c.get s scope id).2.1.Reflects (c.get s scope id).2.2 := by
  cases fresh : c.fresh? scope with
  | some entries =>
    rw [get_of_fresh fresh, h scope entries (kept_of_fresh fresh), getElem?_compileScope]
    exact ⟨rfl, rfl, h⟩
  | none =>
    rw [get_of_up fresh up]
    exact ⟨rfl, rfl, h.keep scope⟩

end Reflects
end Cache
end BuildingCode.Store

import BuildingCode.Proofs.Formula.Authoring
import BuildingCode.Proofs.Service.Sessions
import BuildingCode.Proofs.Store.Cache

/-! Whatever a store holds is what authoring makes of it, so it compiles and may be carried to any
store with the same limits. What an event may do to such a store is said once: it leaves the store as it is,
or puts one settled record under the id that it is about. So every session keeps a store settled. -/
namespace BuildingCode.Store
open Formula Expression Outcome

/-- Authoring the record once more gives the record. -/
def CustomFormula.Settled (limits : Limits) (r : CustomFormula) : Prop :=
  ∃ c, r.definition.draft.prepare limits r.id = .ok c ∧ ⟨c.definition, r.scope, r.isActive⟩ = r

/-- May stand where the old record stood: the scope is the same, and what was inactive still is. -/
structure CustomFormula.Succeeds (r old : CustomFormula) : Prop where
  scope : r.scope = old.scope
  inactive : old.isActive = false → r.isActive = false

/-- Every record stands under its own id and is settled under the limits of the store. -/
def FormulaStore.Settled (s : FormulaStore) : Prop :=
  ∀ k r, s.get? k = some r → r.id = k ∧ r.Settled s.limits

section
variable {limits : Limits} {d : Draft} {id : String} {c : Compiled} {r : CustomFormula}

theorem id_of_prepare (h : d.prepare limits id = .ok c) : c.definition.id = id := by
  rw [definition_of_compile (prepare_eq_ok.mp h).2]
  rfl

theorem settled_of_prepare (h : d.prepare limits id = .ok c) (scope : String) (isActive : Bool) :
    CustomFormula.Settled limits ⟨c.definition, scope, isActive⟩ := by
  refine ⟨c, ?_, rfl⟩
  rw [CustomFormula.id, id_of_prepare h]
  exact prepare_draft h

namespace CustomFormula.Settled

theorem withActive (h : r.Settled limits) (isActive : Bool) :
    CustomFormula.Settled limits { r with isActive } := by
  obtain ⟨c, prepared, same⟩ := h
  have definition : c.definition = r.definition := congrArg CustomFormula.definition same
  exact ⟨c, prepared, by rw [definition]⟩

theorem compiles (h : r.Settled limits) : ∃ c, compile limits r.definition = .ok c := by
  obtain ⟨c, prepared, same⟩ := h
  have definition : c.definition = r.definition := congrArg CustomFormula.definition same
  exact ⟨c, definition ▸ compile_of_prepare prepared⟩

theorem author {s : FormulaStore} (h : r.Settled s.limits) :
    s.author r.id r.scope r.isActive r.definition.draft = .ok r := by
  obtain ⟨c, prepared, same⟩ := h
  rw [FormulaStore.author, prepared]
  exact congrArg Except.ok same

end CustomFormula.Settled

namespace FormulaStore

variable {s t : FormulaStore}

theorem get?_put (s : FormulaStore) (r : CustomFormula) (k : String) :
    (s.put r).get? k = if r.id = k then some r else s.get? k := by
  simp [get?, put, Std.TreeMap.getElem?_insert, Std.LawfulEqCmp.compare_eq_iff_eq]

theorem settled_empty (limits : Limits) : FormulaStore.Settled { limits } := by
  intro k r found
  simp [get?] at found

theorem Settled.put (h : s.Settled) (settled : r.Settled s.limits) : (s.put r).Settled := by
  intro k other found
  rw [get?_put] at found
  split at found
  · cases found
    exact ⟨by assumption, settled⟩
  · exact h k other found

/-- Insertion leaves a settled record as it is. -/
theorem insert_of_settled (settled : r.Settled s.limits) (free : s.get? r.id = none) :
    s.insert r = .ok (s.put r) := by
  rw [insert, settled.author]
  simp [bind, Except.bind, free, pure, Except.pure]

theorem settled_of_author {scope : String} {isActive : Bool}
    (h : s.author id scope isActive d = .ok r) : r.Settled s.limits ∧ r.id = id := by
  obtain ⟨c, prepared, h⟩ := bind_eq_ok.mp h
  cases h
  have prepared := ok_of_mapError prepared
  exact ⟨settled_of_prepare prepared scope isActive, id_of_prepare prepared⟩

theorem create_eq_error_iff {scope : String} {fault : StoreFault} : s.create id scope d = .error fault ↔
    ∃ cause, fault = .invalid cause ∧ d.prepare s.limits id = .error cause := by
  rw [create, author]
  cases d.prepare s.limits id with
  | error cause =>
    change Except.error (StoreFault.invalid cause) = .error fault ↔ _
    simp [eq_comm]
  | ok c => simp [bind, Except.bind, Except.mapError, pure, Except.pure]

theorem create_eq_ok {scope : String} (h : s.create id scope d = .ok (r, t)) :
    ∃ c, d.prepare s.limits id = .ok c ∧ r.definition = c.definition ∧ r.scope = scope ∧
      r.isActive = true ∧ t = s.put r := by
  obtain ⟨_, authored, h⟩ := bind_eq_ok.mp h
  cases h
  obtain ⟨c, prepared, authored⟩ := bind_eq_ok.mp authored
  cases authored
  exact ⟨c, ok_of_mapError prepared, rfl, rfl, rfl, rfl⟩

theorem put_of_create {scope : String} (h : s.create id scope d = .ok (r, t)) :
    r.Settled s.limits ∧ r.id = id ∧ t = s.put r := by
  obtain ⟨_, authored, h⟩ := bind_eq_ok.mp h
  cases h
  obtain ⟨settled, named⟩ := settled_of_author authored
  exact ⟨settled, named, rfl⟩

theorem insert_eq_ok (h : s.insert r = .ok t) :
    ∃ r', r'.Settled s.limits ∧ r'.id = r.id ∧ s.get? r.id = none ∧ t = s.put r' := by
  obtain ⟨r', authored, h⟩ := bind_eq_ok.mp h
  obtain ⟨settled, named⟩ := settled_of_author authored
  by_cases taken : (s.get? r'.id).isSome
  · rw [if_pos taken] at h
    cases h
  · rw [if_neg taken] at h
    cases h
    exact ⟨r', settled, named, by simpa [named] using taken, rfl⟩

theorem Settled.of_foldlM_insert (settled : s.Settled) {rs : List CustomFormula}
    (h : rs.foldlM insert s = .ok t) : t.limits = s.limits ∧ t.Settled := by
  induction rs generalizing s with
  | nil =>
    cases h
    exact ⟨rfl, settled⟩
  | cons r rs ih =>
    rw [List.foldlM_cons] at h
    obtain ⟨u, inserted, h⟩ := bind_eq_ok.mp h
    obtain ⟨r', kept, _, _, rfl⟩ := insert_eq_ok inserted
    exact ih (s := s.put r') (settled.put kept) h

theorem update_eq_ok (h : s.update id d = .ok (r, t)) : ∃ old, s.get? id = some old ∧
    r.Settled s.limits ∧ r.id = id ∧ r.scope = old.scope ∧ r.isActive = old.isActive ∧ t = s.put r := by
  obtain ⟨c, prepared, h⟩ := bind_eq_ok.mp h
  have prepared := ok_of_mapError prepared
  cases found : s.get? id with
  | none =>
    rw [found] at h
    cases h
  | some old =>
    rw [found] at h
    cases h
    exact ⟨old, rfl, settled_of_prepare prepared old.scope old.isActive, id_of_prepare prepared,
      rfl, rfl, rfl⟩

theorem put_of_update (h : s.update id d = .ok (r, t)) : r.Settled s.limits ∧ t = s.put r := by
  obtain ⟨_, _, settled, _, _, _, put⟩ := update_eq_ok h
  exact ⟨settled, put⟩

theorem Settled.deactivate_eq_ok (settled : s.Settled) (h : s.deactivate id = .ok t) :
    ∃ old r, s.get? id = some old ∧ r.Settled s.limits ∧ r.id = id ∧ r.scope = old.scope ∧
      r.isActive = false ∧ t = s.put r := by
  cases found : s.get? id with
  | none =>
    rw [deactivate, found] at h
    cases h
  | some old =>
    rw [deactivate, found] at h
    cases h
    -- The record stands under its own id, so it goes back to where it was.
    obtain ⟨rfl, kept⟩ := settled id old found
    exact ⟨old, { old with isActive := false }, rfl, kept.withActive false, rfl, rfl, rfl, rfl⟩

end FormulaStore
end

end BuildingCode.Store

namespace BuildingCode.Service
open Formula Expression Store

theorem source_cached (s : Service) (scope id : String) :
    ∃ loads, (s.cached scope id).2.source = { s.source with loads } := by
  rw [cached]
  cases s.cache with
  | none => exact ⟨s.source.loads, rfl⟩
  | some c => exact c.source_get s.source scope id

/-- The id whose record an event may write. -/
def Event.target : Event → Option String
  | .create id _ _ | .update id _ | .deactivate id => some id
  | .insert r => some r.id
  | _ => none

/-- Creates nothing under an id that is taken. -/
def Event.Fresh (store : FormulaStore) : Event → Prop
  | .create id _ _ => store.get? id = none
  | _ => True

/-- The event is not refused, and all that it does to the store is to put the record under the event's id. -/
structure Puts (s : Service) (e : Event) (r : CustomFormula) : Prop where
  accepted : ∀ fault, (s.step e).1 ≠ .refused fault
  target : e.target = some r.id
  settled : r.Settled s.store.limits
  put : (s.step e).2.store = s.store.put r
  succeeds : e.Fresh s.store → ∀ old, s.store.get? r.id = some old → r.Succeeds old

section
variable {s : Service}

theorem store_step_of_untargeted {e : Event} (idle : e.target = none) : (s.step e).2.store = s.store := by
  have gets (t : Service) (scope id : String) : (t.step (.cached scope id)).2.store = t.store := by
    obtain ⟨loads, counted⟩ := t.source_cached scope id
    rw [step_cached, store, counted]
    rfl
  -- Whatever finds formulas comes down to gets.
  have finds (lookup : ∀ e' ∈ s.plain e, ∃ scope id, e' = .cached scope id) :
      (s.step e).2.store = s.store := by
    rw [step_eq_after_plain]
    refine after_of_forall (P := fun t => t.store = s.store) rfl ?_ lookup
    rintro t _ ⟨scope, id, rfl⟩ same
    exact (gets t scope id).trans same
  cases e with
  | create | insert | update | deactivate => cases idle
  | cached scope id => exact gets s scope id
  | resolve | compute | request | batch =>
    exact finds fun e' mem => (plain_cases mem).resolve_left fun plain => plain.2
  | _ => rfl

/-- All that an event may do to a settled store. -/
theorem store_step_cases (settled : s.store.Settled) (e : Event) :
    (s.step e).2.store = s.store ∨ ∃ r, s.Puts e r := by
  cases e with
  | create id scope d =>
    cases h : s.store.create id scope d with
    | error fault => exact .inl (by rw [step, h]; rfl)
    | ok w =>
      obtain ⟨kept, rfl, put⟩ := FormulaStore.put_of_create h
      refine .inr ⟨w.1, ?_, rfl, kept, by rw [step, h]; exact put, fun free old found => ?_⟩
      · rw [step, h]
        intro fault refused
        cases refused
      · cases found.symm.trans free
  | insert r =>
    cases h : s.store.insert r with
    | error fault => exact .inl (by rw [step, h]; rfl)
    | ok t =>
      obtain ⟨r', kept, named, free, put⟩ := FormulaStore.insert_eq_ok h
      refine .inr ⟨r', ?_, congrArg some named.symm, kept, by rw [step, h]; exact put,
        fun _ old found => ?_⟩
      · rw [step, h]
        intro fault refused
        cases refused
      · cases (named ▸ found).symm.trans free
  | update id d =>
    cases h : s.store.update id d with
    | error fault => exact .inl (by rw [step, h]; rfl)
    | ok w =>
      obtain ⟨old, here, kept, rfl, scope, active, put⟩ := FormulaStore.update_eq_ok h
      refine .inr ⟨w.1, ?_, rfl, kept, by rw [step, h]; exact put, fun _ old' found => ?_⟩
      · rw [step, h]
        intro fault refused
        cases refused
      · cases here.symm.trans found
        exact ⟨scope, fun idle => active.trans idle⟩
  | deactivate id =>
    cases h : s.store.deactivate id with
    | error fault => exact .inl (by rw [step, h]; rfl)
    | ok t =>
      obtain ⟨old, r, here, kept, rfl, scope, idle, put⟩ := settled.deactivate_eq_ok h
      refine .inr ⟨r, ?_, rfl, kept, by rw [step, h]; exact put, fun _ old' found => ?_⟩
      · rw [step, h]
        intro fault refused
        cases refused
      · cases here.symm.trans found
        exact ⟨scope, fun _ => idle⟩
  | _ => exact .inl (store_step_of_untargeted rfl)

theorem settled_after (settled : s.store.Settled) (es : List Event) :
    (s.after es).store.limits = s.store.limits ∧ (s.after es).store.Settled := by
  refine after_induction (P := fun t => t.store.limits = s.store.limits ∧ t.store.Settled)
    ⟨rfl, settled⟩ ?_ es
  rintro t e _ ⟨limits, settled⟩
  rcases store_step_cases settled e with same | ⟨r, puts⟩
  · rw [same]
    exact ⟨limits, settled⟩
  · rw [puts.put]
    exact ⟨limits, settled.put puts.settled⟩

end

/-- After every session that began with an empty store, a record stands under its id and is what
authoring makes of it, so it compiles, and every store with the same limits that lacks its id takes
it as it is. -/
theorem stored_after_session {s : Service} {limits : Limits} (empty : s.store = { limits })
    (es : List Event) {k : String} {r : CustomFormula}
    (found : (s.after es).store.get? k = some r) :
    r.id = k ∧
      (∃ c, r.definition.draft.prepare limits k = .ok c ∧ ⟨c.definition, r.scope, r.isActive⟩ = r) ∧
      (∃ c, compile limits r.definition = .ok c) ∧
      ∀ other : FormulaStore, other.limits = limits → other.get? k = none →
        other.insert r = .ok (other.put r) ∧
          ∀ k', (other.put r).get? k' = if k = k' then some r else other.get? k' := by
  obtain ⟨limits', settled⟩ := settled_after (empty ▸ FormulaStore.settled_empty limits) es
  obtain ⟨rfl, kept⟩ := settled k r found
  rw [limits', empty] at kept
  refine ⟨rfl, kept, kept.compiles, ?_⟩
  rintro other rfl free
  exact ⟨FormulaStore.insert_of_settled kept free, other.get?_put r⟩

theorem stored_after_session_deactivated :
    ∃ (s : Service) (d : Draft) (r : CustomFormula), s.store = { limits := {} } ∧
      d.title = " Area " ∧ d.expression = "a * a\n" ∧ d.resultLabel = some "  " ∧
      (s.after [.create "a1" "deck" d, .deactivate "a1"]).store.get? "a1" = some r ∧
      (r.title, r.definition.resultLabel, r.isActive) = ("Area", "Result", false) ∧ r.id = "a1" ∧
      (∃ c, r.definition.draft.prepare {} "a1" = .ok c ∧
        ⟨c.definition, r.scope, r.isActive⟩ = r) ∧
      ∃ other : FormulaStore, other.limits = {} ∧ other.get? "a1" = none ∧
        other.insert r = .ok (other.put r) ∧ (other.put r).get? "a1" = some r := by
  let d : Draft :=
    { title := " Area ", displayExpression := "a^2", expression := "a * a\n"
      params := [{ name := "a", label := "Width" }], resultLabel := some "  " }
  let s : Service := ⟨[], none, { store := { limits := {} } }⟩
  have read : ((s.after [.create "a1" "deck" d, .deactivate "a1"]).store.get? "a1").map
      (fun r => (r.title, r.definition.resultLabel, r.isActive)) =
        some ("Area", "Result", false) := by
    decide +kernel
  obtain ⟨r, found, shown⟩ := Option.map_eq_some_iff.mp read
  obtain ⟨id, settled, _, moved⟩ :=
    stored_after_session (s := s) rfl [.create "a1" "deck" d, .deactivate "a1"] found
  obtain ⟨inserted, back⟩ := moved { limits := {} } rfl rfl
  exact ⟨s, d, r, rfl, rfl, rfl, rfl, found, shown, id, settled,
    { limits := {} }, rfl, rfl, inserted, (back "a1").trans (if_pos rfl)⟩

end BuildingCode.Service

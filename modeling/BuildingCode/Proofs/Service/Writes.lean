import BuildingCode.Proofs.Store.Listing

/-! Writes to the store over a session. A write that is refused leaves the store as it was, and one that is
not concerns a single id. Records stay for good, each in its scope, and none that is inactive is used again. -/
namespace BuildingCode.Store

theorem CustomFormula.Succeeds.trans {q r old : CustomFormula} (qr : q.Succeeds r) (rold : r.Succeeds old) :
    q.Succeeds old :=
  ⟨qr.scope.trans rold.scope, fun idle => qr.inactive (rold.inactive idle)⟩

namespace FormulaStore

variable {s t u : FormulaStore} {r : CustomFormula}

/-- Every record of the store has a successor in the later one. -/
def Keeps (t s : FormulaStore) : Prop :=
  ∀ k old, s.get? k = some old → ∃ r, t.get? k = some r ∧ r.Succeeds old

theorem Keeps.refl (s : FormulaStore) : s.Keeps s := fun _ old found => ⟨old, found, rfl, fun idle => idle⟩

theorem Keeps.trans (ut : u.Keeps t) (ts : t.Keeps s) : u.Keeps s := by
  intro k old found
  obtain ⟨r, stored, after⟩ := ts k old found
  obtain ⟨q, stored', after'⟩ := ut k r stored
  exact ⟨q, stored', after'.trans after⟩

theorem keeps_put (succeeds : ∀ old, s.get? r.id = some old → r.Succeeds old) : (s.put r).Keeps s := by
  intro k old found
  by_cases same : r.id = k
  · subst same
    exact ⟨r, by rw [get?_put, if_pos rfl], succeeds old found⟩
  · exact ⟨old, by rw [get?_put, if_neg same, found], rfl, fun idle => idle⟩

end FormulaStore
end BuildingCode.Store

namespace BuildingCode.Service
open Formula Store Expression

/-- Every id that is generated in a session is free when its formula is created. -/
def Fresh (s : Service) : List Event → Prop
  | [] => True
  | e :: es => e.Fresh s.store ∧ (s.step e).2.Fresh es

variable {s : Service}

theorem keeps_after (settled : s.store.Settled) {es : List Event} (fresh : s.Fresh es) :
    (s.after es).store.Keeps s.store := by
  induction es generalizing s with
  | nil => exact .refl s.store
  | cons e es ih =>
    obtain ⟨first, rest⟩ := fresh
    have later : (s.step e).2.store.Settled := (settled_after settled [e]).2
    refine (ih later rest).trans ?_
    rcases store_step_cases settled e with same | ⟨r, puts⟩
    · rw [same]
      exact .refl s.store
    · rw [puts.put]
      exact FormulaStore.keeps_put (puts.succeeds first)

theorem store_of_refused (settled : s.store.Settled) {e : Event} {fault : StoreFault}
    (refused : (s.step e).1 = .refused fault) : (s.step e).2.store = s.store := by
  rcases store_step_cases settled e with same | ⟨r, puts⟩
  · exact same
  · exact absurd refused (puts.accepted fault)

theorem get?_step_of_ne_target (settled : s.store.Settled) {e : Event} {k : String}
    (other : e.target ≠ some k) : (s.step e).2.store.get? k = s.store.get? k := by
  rcases store_step_cases settled e with same | ⟨r, puts⟩
  · rw [same]
  · have apart : r.id ≠ k := by
      rintro rfl
      exact other puts.target
    rw [puts.put, FormulaStore.get?_put, if_neg apart]

theorem insert_refused {r old : CustomFormula} (taken : s.store.get? r.id = some old) :
    ∃ fault, (s.step (.insert r)).1 = .refused fault := by
  rw [step]
  cases h : s.store.insert r with
  | error fault => exact ⟨fault, rfl⟩
  | ok t =>
    obtain ⟨_, _, _, free, _⟩ := FormulaStore.insert_eq_ok h
    cases taken.symm.trans free

theorem succeeds_of_stored {id : String} {d : Draft} {r : CustomFormula}
    (stored : (s.step (.update id d)).1 = .stored r) :
    ∃ old, s.store.get? id = some old ∧ (s.step (.update id d)).2.store.get? id = some r ∧
      r.id = id ∧ r.scope = old.scope ∧ r.isActive = old.isActive := by
  rw [step] at stored ⊢
  cases h : s.store.update id d with
  | error fault =>
    rw [h] at stored
    cases stored
  | ok w =>
    rw [h] at stored
    cases stored
    obtain ⟨old, found, _, named, scope, active, put⟩ := FormulaStore.update_eq_ok h
    refine ⟨old, found, ?_, named, scope, active⟩
    rw [after_writtenRecord]
    change w.2.get? id = _
    rw [put, FormulaStore.get?_put, if_pos named]

theorem unlisted_of_inactive (settled : s.store.Settled) {k : String} {r : CustomFormula}
    (found : s.store.get? k = some r) (idle : r.isActive = false) (scope : String) :
    ∀ q ∈ s.store.active scope, q.id ≠ k := by
  rintro q listed rfl
  obtain ⟨here, active, _⟩ := settled.mem_active_iff.mp listed
  cases here.symm.trans found
  cases active.symm.trans idle

/-- After every session that began with an empty store: a refused write changes nothing, and any write only the
record of its id; no insertion replaces a record, and an update keeps id, scope and activity. Whatever comes
later, a record stays in its scope, and is never listed again once it is inactive. And the list of a scope
is its active records, each once, by title and then by id. -/
theorem writes_in_session {limits : Limits} (empty : s.store = { limits }) (es : List Event) :
    let t := s.after es
    (∀ e fault, (t.step e).1 = .refused fault → (t.step e).2.store = t.store) ∧
    (∀ e k, e.target ≠ some k → (t.step e).2.store.get? k = t.store.get? k) ∧
    (∀ r old, t.store.get? r.id = some old → ∃ fault, (t.step (.insert r)).1 = .refused fault) ∧
    (∀ id d r, (t.step (.update id d)).1 = .stored r → ∃ old, t.store.get? id = some old ∧
      (t.step (.update id d)).2.store.get? id = some r ∧
        r.id = id ∧ r.scope = old.scope ∧ r.isActive = old.isActive) ∧
    (∀ fs, t.Fresh fs → ∀ k r, t.store.get? k = some r →
      ∃ r', (t.after fs).store.get? k = some r' ∧ r'.scope = r.scope ∧
        (r.isActive = false → r'.isActive = false ∧
          ∀ scope, ∀ q ∈ (t.after fs).store.active scope, q.id ≠ k)) ∧
    ∀ scope, ((t.store.active scope).map (·.id)).Nodup ∧
      ((t.store.active scope).Pairwise fun a b =>
        a.title < b.title ∨ a.title = b.title ∧ a.id < b.id) ∧
      ∀ r, r ∈ t.store.active scope ↔
        t.store.get? r.id = some r ∧ r.isActive = true ∧ r.scope = scope := by
  intro t
  have settled : t.store.Settled := (settled_after (empty ▸ FormulaStore.settled_empty limits) es).2
  refine ⟨fun e fault => store_of_refused settled, fun e k => get?_step_of_ne_target settled,
    fun r old => insert_refused, fun id d r => succeeds_of_stored, ?_, ?_⟩
  · intro fs fresh k r found
    obtain ⟨r', found', succeeds⟩ := keeps_after settled fresh k r found
    refine ⟨r', found', succeeds.scope, fun idle => ⟨succeeds.inactive idle, ?_⟩⟩
    exact unlisted_of_inactive (settled_after settled fs).2 found' (succeeds.inactive idle)
  · intro scope
    exact ⟨settled.nodup_map_id_active scope, settled.pairwise_active scope,
      fun r => settled.mem_active_iff⟩

theorem writes_in_session_updated :
    let d : Draft := { title := "Area", displayExpression := "a^2", expression := "a * a"
                       params := [{ name := "a", label := "Width" }] }
    let again : CustomFormula := ⟨d.definition "a1", "hall", true⟩
    let s : Service := ⟨[], none, { store := { limits := {} } }⟩
    let t := s.after [.create "a1" "deck" d, .create "a2" "deck" d, .deactivate "a1"]
    let fs : List Event := [.update "a1" { d with title := "Square" }, .insert again, .create "a3" "hall" d]
    t.Fresh fs ∧ (∃ fault, (t.step (.insert again)).1 = .refused fault) ∧
      ∃ r, t.store.get? "a1" = some r ∧ r.scope = "deck" ∧ r.isActive = false ∧
        ∃ r', (t.after fs).store.get? "a1" = some r' ∧ r'.title = "Square" ∧
          r'.scope = "deck" ∧ r'.isActive = false ∧
            ∀ scope, ∀ q ∈ (t.after fs).store.active scope, q.id ≠ "a1" := by
  intro d again s t fs
  have stored : (t.store.get? "a1").map (fun r => (r.scope, r.isActive)) = some ("deck", false) := by
    decide +kernel
  have retitled : ((t.after fs).store.get? "a1").map (·.title) = some "Square" := by decide +kernel
  have fresh : t.Fresh fs :=
    ⟨trivial, trivial, Option.isNone_iff_eq_none.mp (by decide +kernel), trivial⟩
  obtain ⟨r, found, shown⟩ := Option.map_eq_some_iff.mp stored
  obtain ⟨scope, idle⟩ := Prod.mk.inj shown
  obtain ⟨_, _, taken, _, persists, _⟩ := writes_in_session (s := s) rfl
    [.create "a1" "deck" d, .create "a2" "deck" d, .deactivate "a1"]
  obtain ⟨r', found', same, gone⟩ := persists fs fresh "a1" r found
  rw [found'] at retitled
  exact ⟨fresh, taken again r found, r, found, scope, idle, r', found', Option.some.inj retitled,
    same.trans scope, gone idle⟩

end BuildingCode.Service

import BuildingCode.Proofs.Formula.DryRun
import BuildingCode.Proofs.Service.Serving

/-! A dry run says beforehand whether a draft can be stored, and what the formula will then compute
from the same values, which takes another way there: through the store, the cache and a lookup. -/
namespace BuildingCode.Service
open Formula Store Expression Outcome

/-- A formula that can be computed does on its values what a dry run has said. -/
structure Foretells (dry : Except AuthoringFault Float) (outcome : Except ComputeFault Result) :
    Prop where
  value : ∀ v, dry = .ok v ↔ ∃ r, outcome = .ok r ∧ r.result.value = v
  invalid : ∀ vs, dry = .error (.invalidValues vs) ↔ outcome = .error (.invalidParameters vs)
  evaluation : ∀ fault, dry = .error (.evaluation fault) ↔ outcome = .error (.evaluation fault)
  found : ∀ id, outcome ≠ .error (.unknownFormula id)
  compiled : ∀ fault, outcome ≠ .error (.compilation fault)

theorem foretells_evaluate (c : Compiled) (values : Values) :
    Foretells (c.trial values) (evaluate c values) := by
  simp only [Compiled.trial, evaluate]
  cases bindAll c.definition.params values with
  | error vs => constructor <;> simp [bind, Except.bind, Except.mapError]
  | ok bound =>
    simp only [Except.mapError, bind, Except.bind]
    cases c.evaluate bound with
    | error fault => constructor <;> simp
    | ok e => constructor <;> simp [pure, Except.pure]

/-- After every session a dry run fails over the draft exactly if creating fails, and with the same
fault; otherwise it has said what the created formula computes. -/
theorem dryRun_foretells (builtins : List Compiled) (limits : Limits) {es : List Event}
    (authored : ∀ e ∈ es, e.Authored) (id scope : String) (named : Text.trim id = id)
    (outside : ∀ c ∈ builtins, c.definition.id ≠ id) (trimmed : Text.trim scope = scope)
    (filled : Text.isBlank scope = false) (d : Draft) (values : Values) :
    let s := (overStore builtins limits).after es
    (∀ fault, s.store.create id scope d = .error fault ↔
      ∃ cause, fault = .invalid cause ∧ cause.IsOfDraft ∧ d.dryRun limits values = .error cause) ∧
    ∀ r store, s.store.create id scope d = .ok (r, store) →
      Foretells (d.dryRun limits values)
        ((s.withStore store).compute ⟨r.id, values, some scope⟩).1 := by
  intro s
  have same : s.store.limits = limits := (current_after authored).limits_eq
  constructor
  · intro fault
    simp only [FormulaStore.create_eq_error_iff, same, prepare_eq_error_iff id values]
  · intro r store created
    have current : (s.withStore store).Current limits := by
      have left : (s.step (.create id scope d)).2 = s.withStore store := by
        rw [step, created, writtenRecord]
      rw [← left, ← after_singleton, ← after_append]
      refine current_after (List.forall_mem_append.mpr ⟨authored, ?_⟩)
      simp [Event.Authored]
    obtain ⟨c, prepared, made, rfl, active, rfl⟩ := FormulaStore.create_eq_ok created
    rw [same] at prepared
    have compiled : compile limits r.definition = .ok c := made ▸ compile_of_prepare prepared
    have name : r.id = id := by
      rw [CustomFormula.id, made, id_of_prepare prepared]
    have listed : r ∈ (s.store.put r).active r.scope :=
      current.settled.mem_active_iff.mpr
        ⟨(s.store.get?_put r r.id).trans (if_pos rfl), active, rfl⟩
    have absent : (s.withStore (s.store.put r)).builtin? r.id = none := by
      refine (builtin?_after (overStore builtins limits) es r.id).trans ?_
      exact List.find?_eq_none.mpr (by simpa [name, overStore] using outside)
    rw [dryRun_of_prepare prepared, current.compute_of_trimmed trimmed filled listed
      (by rwa [name]) absent compiled]
    exact foretells_evaluate c values

theorem dryRun_foretells_missing :
    let d : Draft :=
      { title := " Area ", displayExpression := "a^2", expression := "a * a"
        params := [{ name := "a", label := "Width" }] }
    let s := (overStore [] {}).after [.create "a1" "deck" d, .deactivate "a1"]
    ∃ r store, s.store.create "a2" "deck" d = .ok (r, store) ∧
      d.dryRun {} [] = .error (.invalidValues [⟨"a", .notANumber "Width"⟩]) ∧
      ((s.withStore store).compute ⟨r.id, [], some "deck"⟩).1 =
        .error (.invalidParameters [⟨"a", .notANumber "Width"⟩]) := by
  intro d s
  have authored : ∀ e ∈ [Event.create "a1" "deck" d, .deactivate "a1"], e.Authored := by
    simp [Event.Authored]
  obtain ⟨refused, foretold⟩ := dryRun_foretells [] {} authored "a2" "deck"
    (by decide) (by simp) (by decide) (by decide) d []
  have dry : d.dryRun {} [] = .error (.invalidValues [⟨"a", .notANumber "Width"⟩]) := by
    decide +kernel
  cases created : s.store.create "a2" "deck" d with
  | error fault =>
    obtain ⟨cause, _, ofDraft, same⟩ := (refused fault).mp created
    rw [dry] at same
    cases same
    exact ofDraft.elim
  | ok stored =>
    obtain ⟨r, store⟩ := stored
    exact ⟨r, store, rfl, dry, ((foretold r store created).invalid _).mp dry⟩

end BuildingCode.Service

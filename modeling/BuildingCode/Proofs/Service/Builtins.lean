import BuildingCode.Proofs.Formula.Authoring
import BuildingCode.Proofs.Service.Batch

/-! A formula that is built in is found before anyone asks for a scope, the cache or the source. So it
stays what it was when the service began, whatever is stored under its id since, and finding it leaves
no trace. -/
namespace BuildingCode.Service
open Formula Store Expression Outcome

section
variable {s : Service} {c : Compiled} {id : String} {r : Request}

theorem resolve_of_builtin (found : s.builtin? id = some c) (scope : Option String) :
    s.resolve id scope = (some (.ok c), s) := by
  unfold resolve
  rw [found]

theorem formulaFor_of_builtin (found : s.builtin? (Text.trim r.blockId) = some c) :
    s.formulaFor r = (.ok c, s) := by
  unfold formulaFor
  simp only [resolve_of_builtin found]

theorem compute_of_builtin (found : s.builtin? (Text.trim r.blockId) = some c) :
    s.compute r = (evaluate c r.values, s) := by
  unfold compute
  rw [formulaFor_of_builtin found]
  rfl

theorem builtin?_compute (s : Service) (r : Request) (id : String) :
    (s.compute r).2.builtin? id = s.builtin? id :=
  builtin?_after s [.compute r] id

/-- Requests for a formula that is built in may be struck from a batch: it leaves the same service. -/
theorem computeBatch_filter_of_builtin (found : s.builtin? id = some c) (rs : List Request) :
    (s.computeBatch (rs.filter (Text.trim ·.blockId ≠ id))).2 = (s.computeBatch rs).2 := by
  induction rs generalizing s with
  | nil => rfl
  | cons r rs ih =>
    by_cases named : Text.trim r.blockId = id
    · rw [List.filter_cons_of_neg (by simpa using named), ih found, computeBatch_cons,
        compute_of_builtin (named ▸ found)]
    · rw [List.filter_cons_of_pos (by simpa using named), computeBatch_cons, computeBatch_cons]
      exact ih ((builtin?_compute s r id).trans found)

end

theorem find?_of_mapM {limits : Limits} {ds : List Definition} {cs : List Compiled} {d : Definition}
    (compiled : ds.mapM (compile limits) = .ok cs) (distinct : (ds.map (·.id)).Nodup) (known : d ∈ ds) :
    ∃ c, compile limits d = .ok c ∧ cs.find? (·.definition.id == d.id) = some c := by
  induction ds generalizing cs with
  | nil => cases known
  | cons e ds ih =>
    rw [List.mapM_cons] at compiled
    obtain ⟨c, first, compiled⟩ := bind_eq_ok.mp compiled
    obtain ⟨rest, others, compiled⟩ := bind_eq_ok.mp compiled
    cases compiled
    have id_eq : c.definition.id = e.id := by rw [definition_of_compile first]
    rw [List.map_cons, List.nodup_cons] at distinct
    rcases List.mem_cons.mp known with rfl | later
    · exact ⟨c, first, List.find?_cons_of_pos (by simpa using id_eq)⟩
    · have apart : e.id ≠ d.id := fun same => distinct.1 (same ▸ List.mem_map_of_mem later)
      rw [List.find?_cons_of_neg (by simpa [id_eq] using apart)]
      exact ih others distinct.2 later

theorem nodup_builtin_ids : (builtinDefinitions.map (·.id)).Nodup := by decide +kernel

theorem builtin?_of_compileBuiltins {s : Service} {limits : Limits}
    (built : compileBuiltins limits = .ok s.builtins) {d : Definition} (known : d ∈ builtinDefinitions) :
    ∃ c, compile limits d = .ok c ∧ s.builtin? d.id = some c :=
  find?_of_mapM built nodup_builtin_ids known

/-- The formula that a service has compiled for a built-in id is the one that is found and computed
under it at every point of every session, in whatever scope, alone or in a batch, and neither the
cache nor the source is asked for it. -/
theorem builtin_throughout {s : Service} {limits : Limits}
    (built : compileBuiltins limits = .ok s.builtins) {d : Definition} (known : d ∈ builtinDefinitions) :
    ∃ c, compile limits d = .ok c ∧ ∀ es : List Event,
      let t := s.after es
      (∀ scope, t.resolve d.id scope = (some (.ok c), t)) ∧
      (∀ r : Request, Text.trim r.blockId = d.id → t.compute r = (evaluate c r.values, t)) ∧
      ∀ rs : List Request,
        (∀ (i : Nat) (r : Request), rs[i]? = some r → Text.trim r.blockId = d.id →
          (t.computeBatch rs).1[i]? = some (evaluate c r.values)) ∧
        (t.computeBatch rs).2 = (t.computeBatch (rs.filter (Text.trim ·.blockId ≠ d.id))).2 := by
  obtain ⟨c, compiled, found⟩ := builtin?_of_compileBuiltins built known
  refine ⟨c, compiled, ?_⟩
  intro es t
  have stays : ∀ fs, (t.after fs).builtin? d.id = some c := by
    intro fs
    rw [builtin?_after, builtin?_after, found]
  refine ⟨resolve_of_builtin (stays []), fun r named => compute_of_builtin (named ▸ stays []), ?_⟩
  intro rs
  refine ⟨?_, (computeBatch_filter_of_builtin (stays []) rs).symm⟩
  intro i r listed named
  rw [getElem?_computeBatch, listed, Option.map_some,
    compute_of_builtin (named ▸ stays _)]

theorem builtin_throughout_shadowed :
    ∃ (s : Service) (shadow : CustomFormula) (c : Compiled), compileBuiltins {} = .ok s.builtins ∧
      shadow.id = rectArea.id ∧ shadow.definition.expression ≠ rectArea.expression ∧
      compile {} rectArea = .ok c ∧
      let t := s.after [.raw shadow, .cached shadow.scope shadow.id, .down true]
      t.source.loads = 1 ∧ t.resolve shadow.id (some shadow.scope) = (some (.ok c), t) ∧
        t.compute ⟨" rect-area ", [], some shadow.scope⟩ = (evaluate c [], t) := by
  obtain ⟨builtins, built⟩ : ∃ cs, compileBuiltins {} = .ok cs := by
    have compiles : (compileBuiltins {}).isOk = true := by decide +kernel
    cases built : compileBuiltins {} with
    | error fault =>
      rw [built] at compiles
      cases compiles
    | ok cs => exact ⟨cs, rfl⟩
  let shadow : CustomFormula := ⟨{ rectArea with expression := "1" }, "deck", true⟩
  let s : Service :=
    ⟨builtins, some { lifetime := .endless, limits := {} }, { store := { limits := {} } }⟩
  obtain ⟨c, compiled, throughout⟩ :=
    builtin_throughout (s := s) built (d := rectArea) (by simp [builtinDefinitions])
  obtain ⟨resolved, computed, _⟩ :=
    throughout [.raw shadow, .cached shadow.scope shadow.id, .down true]
  exact ⟨s, shadow, c, built, rfl, by decide, compiled, rfl, resolved (some "deck"),
    computed ⟨" rect-area ", [], some "deck"⟩ (by decide)⟩

end BuildingCode.Service

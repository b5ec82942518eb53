import BuildingCode.CommandLine.Run
import BuildingCode.Proofs.Service.Bodies
import BuildingCode.Proofs.Service.Seeding

/-! The two ways in which a computation is printed: as a response, and as a trace that looks the
formula up once more. -/
namespace BuildingCode.CommandLine
open Service Store Formula Expression BuildingCode.Outcome

theorem line_injective {a b : String} (same : line a = line b) : a = b := by
  unfold line at same
  exact (String.append_left_inj "\n").mp same

theorem areTexts_of_mapM_entry {words : List String} {values : Values}
    (read : words.mapM entry = .ok values) : values.AreTexts := by
  induction words generalizing values with
  | nil =>
    cases read
    intro v member
    cases member
  | cons word words ih =>
    rw [List.mapM_cons] at read
    obtain ⟨v, first, read⟩ := bind_eq_ok.mp read
    obtain ⟨vs, others, read⟩ := bind_eq_ok.mp read
    cases read
    refine List.forall_mem_cons.mpr ⟨?_, ih others⟩
    unfold entry at first
    split at first <;> cases first
    exact ⟨_, rfl⟩

section
variable {s : Surroundings} {config : Config} {custom : Option String} {service : Service}

theorem seeded_of_seededStore {records : List CustomFormula} {store : FormulaStore}
    (stored : seededStore config records = .ok store) (builtins : List Compiled) (lifetime : Lifetime) :
    Service.Seeded ⟨builtins, some { lifetime, limits := config.limits }, { store }⟩ config.limits := by
  obtain ⟨limits, settled⟩ := (FormulaStore.settled_empty config.limits).of_foldlM_insert
    (ok_of_mapError stored)
  refine ⟨limits, settled, ?_, rfl, _, rfl, rfl, Cache.Reflects.empty rfl _⟩
  funext scope
  exact List.append_nil _

theorem seeded_of_startService (started : startService s config custom = .ok service) :
    service.cache = none ∨ service.Seeded config.limits := by
  obtain ⟨builtins, _, started⟩ := bind_eq_ok.mp started
  cases custom with
  | none =>
    cases started
    exact .inl rfl
  | some path =>
    obtain ⟨text, _, started⟩ := bind_eq_ok.mp started
    obtain ⟨records, _, started⟩ := bind_eq_ok.mp started
    obtain ⟨store, stored, started⟩ := bind_eq_ok.mp started
    cases started
    exact .inr (seeded_of_seededStore stored builtins _)

variable {blockId : String} {words : List String} {scope : Option String} {values : Values}
  {configFile : Option String}

theorem run_compute (loaded : loadConfig s configFile = .ok config)
    (started : startService s config custom = .ok service) (read : words.mapM entry = .ok values) :
    Invocation.run s ⟨configFile, custom, .compute blockId words scope false⟩ = .printed (line
      (service.respond config.displayDigits ⟨blockId, values, scope⟩).1.encode.render) := by
  rw [← answerBody_encode service (areTexts_of_mapM_entry read)]
  unfold Invocation.run runCommand
  simp only [loaded, started, read, bind, Except.bind, pure, Except.pure]
  rfl

theorem run_computeTrace (loaded : loadConfig s configFile = .ok config)
    (started : startService s config custom = .ok service) (read : words.mapM entry = .ok values) :
    Invocation.run s ⟨configFile, custom, .compute blockId words scope true⟩ =
      match computeTrace service ⟨blockId, values, scope⟩ config.displayDigits with
      | .ok text => .printed text
      | .error message => .failed message := by
  unfold Invocation.run runCommand
  simp only [loaded, started, read, bind, Except.bind]
  rfl

theorem exists_run_eq_success (loaded : loadConfig s configFile = .ok config)
    (started : startService s config custom = .ok service) (read : words.mapM entry = .ok values)
    (answers : ((service.respond config.displayDigits ⟨blockId, values, scope⟩).1 matches
      .success _) = true) :
    ∃ shown, Invocation.run s ⟨configFile, custom, .compute blockId words scope false⟩ =
      .printed (line (Response.success shown).encode.render) := by
  rw [run_compute loaded started read]
  split at answers
  · rename_i shown answered
    rw [answered]
    exact ⟨shown, rfl⟩
  · cases answers

theorem read_of_run_compute {text : String} (printed : Invocation.run s
      ⟨configFile, custom, .compute blockId words scope false⟩ = .printed text) :
    ∃ config service values, loadConfig s configFile = .ok config ∧
      startService s config custom = .ok service ∧ words.mapM entry = .ok values := by
  unfold Invocation.run at printed
  dsimp only at printed
  split at printed
  · rename_i came
    obtain ⟨config, loaded, came⟩ := bind_eq_ok.mp came
    obtain ⟨service, started, came⟩ := bind_eq_ok.mp came
    obtain ⟨values, read, _⟩ := bind_eq_ok.mp came
    exact ⟨config, service, values, loaded, started, read⟩
  · cases printed

theorem computeTrace_of_found {r : Request} {digits : UInt32} {c : Compiled} {result : Result}
    (serves : service.cache = none ∨ service.Seeded config.limits)
    (found : (service.formulaFor r).1 = .ok c) (evaluated : evaluate c r.values = .ok result) :
    computeTrace service r digits =
      if (service.builtin? (Text.trim r.blockId)).isSome ∨ r.scope.map Text.trim = r.scope then
        .ok (Display.trace c.definition result digits)
      else .error s!"formula '{r.blockId}' is no longer available" := by
  have given := resolve_as_given serves found
  have computed : service.compute r = (.ok result, (service.formulaFor r).2) := by
    unfold compute
    dsimp only
    rw [found, ← evaluated]
    rfl
  simp only [computeTrace, computed, Except.mapError, bind, Except.bind, given]
  split_ifs <;> rfl

end

/-- A computation that is answered with a success prints as a trace what was computed, from the
definition that it was computed by, if the formula is built in or the scope was given without blanks
around it. Otherwise the second look-up goes by another scope and finds nothing. -/
theorem trace_of_success {s : Surroundings} {configFile custom scope : Option String}
    {blockId : String} {words : List String} {shown : Result}
    (printed : Invocation.run s ⟨configFile, custom, .compute blockId words scope false⟩ =
      .printed (line (Response.success shown).encode.render)) :
    ∃ config service values c result, loadConfig s configFile = .ok config ∧
      startService s config custom = .ok service ∧ words.mapM entry = .ok values ∧
      (service.formulaFor ⟨blockId, values, scope⟩).1 = .ok c ∧ evaluate c values = .ok result ∧
      Invocation.run s ⟨configFile, custom, .compute blockId words scope false⟩ =
        .printed (line (Response.success (result.rounded config.displayDigits)).encode.render) ∧
      Invocation.run s ⟨configFile, custom, .compute blockId words scope true⟩ =
        if (service.builtin? (Text.trim blockId)).isSome ∨ scope.map Text.trim = scope then
          .printed (Display.trace c.definition result config.displayDigits)
        else .failed s!"formula '{blockId}' is no longer available" := by
  obtain ⟨config, service, values, loaded, started, read⟩ := read_of_run_compute printed
  have answer : Invocation.run s ⟨configFile, custom, .compute blockId words scope false⟩ = _ :=
    run_compute loaded started read
  rw [answer] at printed
  obtain ⟨other, answered⟩ := Response.eq_success_of_render (line_injective (Outcome.printed.inj printed))
  obtain ⟨c, result, found, evaluated, rfl⟩ := found_of_respond answered
  refine ⟨config, service, values, c, result, loaded, started, read, found, evaluated, ?_, ?_⟩
  · rw [answer, answered]
  · rw [run_computeTrace loaded started read,
      computeTrace_of_found (seeded_of_startService started) found evaluated]
    split_ifs <;> rfl

theorem trace_of_success_seeded :
    let r : CustomFormula :=
      ⟨{ id := "a1", title := "Area", displayExpression := "A", params := [], expression := "2",
         resultLabel := "A" }, "deck", true⟩
    let s : Surroundings := { file := fun _ => (Json.list [r.encode]).render, input := none }
    ∃ shown c result, c.definition = r.definition ∧ evaluate c [] = .ok result ∧
      Invocation.run s ⟨none, some "custom.json", .compute " a1 " [] (some "deck") false⟩ =
        .printed (line (Response.success shown).encode.render) ∧
      Invocation.run s ⟨none, some "custom.json", .compute " a1 " [] (some "deck") true⟩ =
        .printed (Display.trace c.definition result Display.defaultDigits) := by
  intro r s
  let q : Request := ⟨" a1 ", [], some "deck"⟩
  have computed : (startService s {} (some "custom.json")).map (fun service =>
      ((service.respond Display.defaultDigits q).1 matches .success _,
        (service.formulaFor q).1.map (·.definition))) = .ok (true, .ok r.definition) := by
    decide +kernel
  cases begun : startService s {} (some "custom.json") with
  | error message =>
    rw [begun] at computed
    cases computed
  | ok service =>
    rw [begun] at computed
    obtain ⟨answers, defined⟩ := Prod.mk.inj (Except.ok.inj computed)
    obtain ⟨shown, printed⟩ : ∃ shown, Invocation.run s
        ⟨none, some "custom.json", .compute " a1 " [] (some "deck") false⟩ =
          .printed (line (Response.success shown).encode.render) :=
      exists_run_eq_success rfl begun (show [].mapM entry = .ok [] from rfl) answers
    obtain ⟨config, service', values, c, result, loaded, started, read, found, evaluated, _, traced⟩ :=
      trace_of_success printed
    cases loaded
    obtain rfl : [] = values := Except.ok.inj read
    obtain rfl : service = service' := Except.ok.inj (begun.symm.trans started)
    rw [show (service.formulaFor q).1 = .ok c from found] at defined
    rw [if_pos (.inr (by decide))] at traced
    exact ⟨shown, c, result, Except.ok.inj defined, evaluated, printed, traced⟩

/-- The scope of a request may have blanks around it, and the response counts them for nothing. -/
theorem trace_withheld :
    let r : CustomFormula :=
      ⟨{ id := "a1", title := "Area", displayExpression := "A", params := [], expression := "2",
         resultLabel := "A" }, "deck", true⟩
    let s : Surroundings := { file := fun _ => (Json.list [r.encode]).render, input := none }
    let words := ["--custom", "custom.json", "compute", "a1", "--scope", " deck "]
    (∃ shown, run s none words = .printed (line (Response.success shown).encode.render)) ∧
      run s none (words ++ ["--trace"]) = .failed "formula 'a1' is no longer available" := by
  intro r s words
  let q : Request := ⟨"a1", [], some " deck "⟩
  have computed : (startService s {} (some "custom.json")).map (fun service =>
      ((service.respond Display.defaultDigits q).1 matches .success _,
        computeTrace service q Display.defaultDigits)) =
      .ok (true, .error "formula 'a1' is no longer available") := by
    decide +kernel
  have reads (trace : Bool) : Invocation.ofWords none (words ++ if trace then ["--trace"] else []) =
      .ok ⟨none, some "custom.json", .compute "a1" [] (some " deck ") trace⟩ := by
    cases trace <;> decide +kernel
  have none_read : [].mapM entry = .ok [] := rfl
  cases started : startService s {} (some "custom.json") with
  | error message =>
    rw [started] at computed
    cases computed
  | ok service =>
    rw [started] at computed
    obtain ⟨answers, withheld⟩ := Prod.mk.inj (Except.ok.inj computed)
    unfold run
    constructor
    · rw [show Invocation.ofWords none words = _ from reads false]
      exact exists_run_eq_success rfl started none_read answers
    · rw [show Invocation.ofWords none (words ++ ["--trace"]) = _ from reads true]
      change Invocation.run s _ = _
      rw [run_computeTrace rfl started none_read,
        show computeTrace service _ ({} : Config).displayDigits = _ from withheld]

end BuildingCode.CommandLine

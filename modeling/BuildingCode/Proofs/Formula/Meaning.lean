import BuildingCode.Proofs.Expression.Naming
import BuildingCode.Proofs.Formula.Safety
import BuildingCode.Proofs.Machine.Budget

/-! What a formula means: its definitions evaluated by name, one after another, each in the
environment that those before it have made. Evaluation by slots gives the same, because a scope and
a ledger that grow together stay aligned. -/
namespace BuildingCode.Formula
open Expression Machine Outcome

/-- The outcome of intermediates in an environment, which the value of each extends for those
behind it. The first that fails is the one reported. -/
inductive StepsGive (A : Arithmetic) :
    Environment → List Intermediate → Except EvaluationFault (List Float) → Prop
  | nil {env} : StepsGive A env [] (.ok [])
  | stop {env i is failure} : env.Gives A i.expression (.error failure) →
      StepsGive A env (i :: is) (.error (.intermediate i.name failure))
  | cons {env i is v r} : env.Gives A i.expression (.ok v) →
      StepsGive A (env ++ [(i.name, v)]) is r → StepsGive A env (i :: is) (r.map (v :: ·))

namespace Definition

/-- The parameters by name. -/
def environment (d : Definition) (params : List Float) : Environment :=
  (d.params.map (·.name)).zip params

/-- The outcome of a formula: the ledger holds the parameters and then the values of the
intermediates, and the result is evaluated in the environment of them all. -/
inductive Gives (A : Arithmetic) (d : Definition) (params : List Float) :
    Except EvaluationFault Evaluation → Prop
  | stop {fault} : StepsGive A (d.environment params) d.intermediates (.error fault) →
      Gives A d params (.error fault)
  | finish {vs r} : StepsGive A (d.environment params) d.intermediates (.ok vs) →
      Environment.Gives (d.environment params ++ (d.intermediates.map (·.name)).zip vs) A
        d.expression r →
        Gives A d params ((r.mapError .expression).map fun v => ⟨v, ⟨params, vs⟩⟩)

end Definition

theorem StepsGive.unique {A : Arithmetic} {env : Environment} {is : List Intermediate}
    {r r' : Except EvaluationFault (List Float)} (h : StepsGive A env is r)
    (h' : StepsGive A env is r') : r = r' := by
  induction h generalizing r' with
  | nil =>
    cases h'
    rfl
  | stop failed =>
    cases h' with
    | stop failed' =>
      cases failed.unique failed'
      rfl
    | cons given _ => cases failed.unique given
  | cons given _ ih =>
    cases h' with
    | stop failed => cases given.unique failed
    | cons given' rest =>
      cases given.unique given'
      rw [ih rest]

theorem Definition.Gives.unique {A : Arithmetic} {d : Definition} {params : List Float}
    {r r' : Except EvaluationFault Evaluation} (h : d.Gives A params r) (h' : d.Gives A params r') :
    r = r' := by
  cases h with
  | stop failed =>
    cases h' with
    | stop failed' =>
      cases failed.unique failed'
      rfl
    | finish given _ => cases failed.unique given
  | finish given result =>
    cases h' with
    | stop failed => cases given.unique failed
    | finish given' result' =>
      cases given.unique given'
      rw [result.unique result']

def WithinBudget (r : Except EvaluationFault α) : Prop :=
  ∀ fault, r = .error fault → ∀ limit, fault.cause ≠ .budgetExceeded limit

namespace WithinBudget

theorem ok (a : α) : WithinBudget (.ok a) := by
  intro fault h
  cases h

theorem bind {x : Except EvaluationFault α} {f : α → Except EvaluationFault β}
    (first : WithinBudget x) (rest : ∀ a, x = .ok a → WithinBudget (f a)) :
    WithinBudget (x >>= f) := by
  intro fault h limit spent
  refine bind_ne_error ?_ ?_ h
  · exact fun failed => first fault failed limit spent
  · exact fun a done failed => rest a done fault failed limit spent

theorem of_bind {x : Except EvaluationFault α} {f : α → Except EvaluationFault β}
    (within : WithinBudget (x >>= f)) : WithinBudget x := by
  rintro fault rfl
  exact within fault rfl

theorem of_map {x : Except EvaluationFault α} {f : α → β} (within : WithinBudget (x.map f)) :
    WithinBudget x := by
  rintro fault rfl
  exact within fault rfl

theorem mapError_iff {x : Except Failure α} (told : Failure → EvaluationFault)
    (keeps : ∀ failure, (told failure).cause = failure) :
    WithinBudget (x.mapError told) ↔ Timely x := by
  cases x with
  | ok a => exact ⟨fun _ => .ok a, fun _ => .ok a⟩
  | error failure =>
    constructor
    · rintro within limit ⟨⟩
      exact within _ rfl limit (keeps _)
    · rintro timely fault ⟨⟩ limit spent
      rw [keeps] at spent
      exact timely limit (congrArg Except.error spent)

end WithinBudget

section
variable {scope : Scope} {limits : Limits} {text : String} {p : Program} {slots : List Float}

/-- A program that was compiled over names gives, within its budget, what the text gives by them. -/
theorem gives_of_ofText (h : Program.ofText scope limits text = .ok p)
    (aligned : scope.names.length = slots.length) {A : Arithmetic} {limit : Nat}
    (within : Timely (p.run A slots limit)) :
    Environment.Gives (scope.names.zip slots) A text (p.run A slots limit) := by
  obtain ⟨e, read, lowered⟩ := bind_eq_ok.mp h
  cases lowered
  have covered : e.slotCount ≤ slots.length :=
    aligned ▸ (resolved_of_ofText read).slotCount_le
  rw [Program.run_eq_value covered within]
  exact (scope.agree_zip aligned).gives read A

theorem timely_of_ofText (h : Program.ofText scope limits text = .ok p)
    (aligned : scope.names.length = slots.length) (A : Arithmetic) {limit : Nat}
    (enough : p.code.size ≤ limit) : Timely (p.run A slots limit) := by
  obtain ⟨e, read, lowered⟩ := bind_eq_ok.mp h
  cases lowered
  exact Program.timely_run (aligned ▸ (resolved_of_ofText read).slotCount_le) enough

theorem unmentioned_of_ofText (h : Program.ofText scope limits text = .ok p) :
    ∃ ls, lexemes text = .ok ls ∧ ∀ name, isReserved name = false → name ∉ scope.names →
      .name name ∉ ls.map (·.token) := by
  obtain ⟨e, read, _⟩ := bind_eq_ok.mp h
  obtain ⟨ls, scanned, derives⟩ := derives_of_ofText read
  refine ⟨ls, scanned, fun name unreserved free member => ?_⟩
  rcases derives.bound_or_reserved member with bound | reserved
  · exact free bound
  · rw [unreserved] at reserved
    cases reserved

end

section
variable {limits : Limits} {is : List Intermediate} {scope scope' : Scope}
  {steps : List (String × Program)}

theorem exists_of_compileSteps_cons {i : Intermediate}
    (h : compileSteps limits scope (i :: is) = .ok (steps, scope')) :
    ∃ p next more, Program.ofText scope limits i.expression = .ok p ∧
      scope.push i.name = .ok next ∧ compileSteps limits next is = .ok (more, scope') ∧
      steps = (i.name, p) :: more := by
  obtain ⟨p, compiled, h⟩ := bind_eq_ok.mp h
  obtain ⟨next, pushed, h⟩ := bind_eq_ok.mp h
  obtain ⟨⟨more, last⟩, rest, h⟩ := bind_eq_ok.mp h
  cases h
  exact ⟨p, next, more, ok_of_mapError compiled, ok_of_mapError pushed, rest, rfl⟩

theorem names_of_compileSteps (h : compileSteps limits scope is = .ok (steps, scope')) :
    scope'.names = scope.names ++ is.map (·.name) := by
  induction is generalizing scope steps with
  | nil =>
    cases h
    simp
  | cons i is ih =>
    obtain ⟨_, _, _, _, pushed, rest, rfl⟩ := exists_of_compileSteps_cons h
    rw [ih rest, (names_of_push pushed).1, List.map_cons, List.append_assoc,
      List.singleton_append]

theorem fresh_of_compileSteps (h : compileSteps limits scope is = .ok (steps, scope'))
    {i : Intermediate} (member : i ∈ is) : isReserved i.name = false ∧ i.name ∉ scope.names := by
  have names := names_of_compileSteps h
  have listed : i.name ∈ is.map (·.name) := List.mem_map_of_mem member
  constructor
  · exact scope'.unreserved _ (names ▸ List.mem_append_right _ listed)
  · intro bound
    have distinct := scope'.distinct
    rw [names, List.nodup_append] at distinct
    exact distinct.2.2 _ bound _ listed rfl

/-- An intermediate mentions neither itself nor one behind it, because their names are still free
when it is compiled. -/
theorem unmentioned_of_compileSteps (h : compileSteps limits scope is = .ok (steps, scope'))
    {before after : List Intermediate} {i : Intermediate} (split : is = before ++ i :: after) :
    ∃ ls, lexemes i.expression = .ok ls ∧ ∀ j ∈ i :: after, .name j.name ∉ ls.map (·.token) := by
  induction before generalizing is scope steps with
  | nil =>
    subst split
    obtain ⟨_, _, _, compiled, _⟩ := exists_of_compileSteps_cons h
    obtain ⟨ls, scanned, unmentioned⟩ := unmentioned_of_ofText compiled
    refine ⟨ls, scanned, fun j member => ?_⟩
    obtain ⟨unreserved, free⟩ := fresh_of_compileSteps h member
    exact unmentioned _ unreserved free
  | cons first before ih =>
    subst split
    obtain ⟨_, _, _, _, _, rest, rfl⟩ := exists_of_compileSteps_cons h
    exact ih rest rfl

/-- Over names whose values are in the ledger, intermediates give by slots what they give by
name, unless the budget ends their run. -/
theorem stepsGive_of_compileSteps (h : compileSteps limits scope is = .ok (steps, scope'))
    {budget : Nat} {l : Ledger} (aligned : scope.names.length = l.size)
    (within : WithinBudget (runSteps budget steps l)) :
    ∃ r, StepsGive .standard (scope.names.zip l.values) is r ∧
      runSteps budget steps l = r.map fun vs => ⟨l.params, l.intermediates ++ vs⟩ := by
  -- Scope and ledger are as long as each other at every step, so their pairs are the environment.
  induction is generalizing scope steps l with
  | nil =>
    cases h
    exact ⟨.ok [], .nil, by simp [runSteps, Except.map]⟩
  | cons i is ih =>
    obtain ⟨p, next, more, compiled, pushed, rest, rfl⟩ := exists_of_compileSteps_cons h
    rw [runSteps] at within ⊢
    have timely : Timely (p.run .standard l.values budget) :=
      (WithinBudget.mapError_iff (.intermediate i.name) fun _ => rfl).mp within.of_bind
    have given := gives_of_ofText compiled aligned timely
    cases ran : p.run .standard l.values budget with
    | error failure =>
      rw [ran] at given
      exact ⟨_, .stop given, rfl⟩
    | ok v =>
      rw [ran] at within given
      have names := (names_of_push pushed).1
      have extended : next.names.zip (l.push v).values =
          scope.names.zip l.values ++ [(i.name, v)] := by
        rw [names, Ledger.values_push, List.zip_append aligned]
        rfl
      have grown : next.names.length = (l.push v).size := by
        rw [names, Ledger.size_push, List.length_append, aligned, List.length_singleton]
      obtain ⟨r, gives, run⟩ := ih rest grown within
      rw [extended] at gives
      refine ⟨_, .cons given gives, run.trans ?_⟩
      cases r <;> simp [Except.map, Ledger.push]

theorem size_of_runSteps (h : compileSteps limits scope is = .ok (steps, scope')) {budget : Nat}
    {l l' : Ledger} (aligned : scope.names.length = l.size)
    (filled : runSteps budget steps l = .ok l') : scope'.names.length = l'.size := by
  induction is generalizing scope steps l with
  | nil =>
    cases h
    cases filled
    exact aligned
  | cons i is ih =>
    obtain ⟨_, _, _, _, pushed, rest, rfl⟩ := exists_of_compileSteps_cons h
    obtain ⟨v, _, filled⟩ := bind_eq_ok.mp filled
    refine ih rest ?_ filled
    rw [length_of_push pushed, Ledger.size_push, aligned]

theorem withinBudget_runSteps (h : compileSteps limits scope is = .ok (steps, scope'))
    {budget : Nat} (enough : ∀ step ∈ steps, step.2.code.size ≤ budget) {l : Ledger}
    (aligned : scope.names.length = l.size) : WithinBudget (runSteps budget steps l) := by
  induction is generalizing scope steps l with
  | nil =>
    cases h
    exact .ok l
  | cons i is ih =>
    obtain ⟨p, next, more, compiled, pushed, rest, rfl⟩ := exists_of_compileSteps_cons h
    obtain ⟨here, later⟩ := List.forall_mem_cons.mp enough
    have timely : Timely (p.run .standard l.values budget) :=
      timely_of_ofText compiled aligned .standard here
    rw [runSteps]
    refine .bind ((WithinBudget.mapError_iff _ fun _ => rfl).mpr timely) fun v _ => ?_
    apply ih rest later
    rw [length_of_push pushed, Ledger.size_push, aligned]

end

section
variable {limits : Limits} {d : Definition} {c : Compiled} {params : List Float}

theorem parts_of_compile (h : compile limits d = .ok c) :
    ∃ scope last : Scope, scope.names = d.params.map (·.name) ∧
      compileSteps limits scope d.intermediates = .ok (c.steps, last) ∧
      Program.ofText last limits d.expression = .ok c.result ∧ c.definition = d := by
  obtain ⟨scope, named, h⟩ := bind_eq_ok.mp h
  obtain ⟨⟨steps, last⟩, compiled, h⟩ := bind_eq_ok.mp h
  obtain ⟨result, lowered, h⟩ := bind_eq_ok.mp h
  cases h
  refine ⟨scope, last, ?_, compiled, ok_of_mapError lowered, rfl⟩
  simpa [Scope.empty] using names_of_foldlM_push (ok_of_mapError named)

theorem aligned_ofParams {scope : Scope} (named : scope.names = d.params.map (·.name))
    (length : params.length = d.params.length) :
    scope.names.length = (Ledger.ofParams params).size := by
  simp [named, length]

theorem evaluate_of_length (length : params.length = c.definition.params.length) :
    c.evaluate params = (do
      let l ← runSteps c.budget c.steps (.ofParams params)
      ((c.result.run .standard l.values c.budget).mapError .expression).map fun v => ⟨v, l⟩) := by
  rw [Compiled.evaluate, if_neg (not_not.mpr length)]
  refine bind_congr fun l => ?_
  cases c.result.run .standard l.values c.budget <;> rfl

theorem gives_evaluate (h : compile limits d = .ok c) (length : params.length = d.params.length)
    (within : WithinBudget (c.evaluate params)) : d.Gives .standard params (c.evaluate params) := by
  obtain ⟨scope, last, named, compiled, lowered, rfl⟩ := parts_of_compile h
  have aligned := aligned_ofParams named length
  have environment : scope.names.zip (Ledger.ofParams params).values =
      c.definition.environment params := by
    simp [named, Definition.environment]
  rw [evaluate_of_length length] at within ⊢
  obtain ⟨r, steps, run⟩ := stepsGive_of_compileSteps compiled aligned within.of_bind
  rw [environment] at steps
  cases r with
  | error fault =>
    have failed : runSteps c.budget c.steps (.ofParams params) = .error fault := run
    rw [failed]
    exact .stop steps
  | ok vs =>
    have filled : runSteps c.budget c.steps (.ofParams params) = .ok ⟨params, vs⟩ := run
    rw [filled] at within ⊢
    have timely : Timely (c.result.run .standard (params ++ vs) c.budget) :=
      (WithinBudget.mapError_iff _ fun _ => rfl).mp within.of_map
    have result : Environment.Gives (last.names.zip (params ++ vs)) .standard
        c.definition.expression (c.result.run .standard (params ++ vs) c.budget) :=
      gives_of_ofText lowered (size_of_runSteps compiled aligned filled) timely
    rw [names_of_compileSteps compiled, named, List.zip_append (by simpa using length.symm)]
      at result
    exact .finish steps result

theorem withinBudget_evaluate (h : compile limits d = .ok c)
    (length : params.length = d.params.length)
    (enough : ∀ p ∈ c.result :: c.steps.map Prod.snd, p.code.size ≤ c.budget) :
    WithinBudget (c.evaluate params) := by
  obtain ⟨scope, last, named, compiled, lowered, rfl⟩ := parts_of_compile h
  obtain ⟨result, steps⟩ := List.forall_mem_cons.mp enough
  have aligned := aligned_ofParams named length
  have each : ∀ step ∈ c.steps, step.2.code.size ≤ c.budget :=
    fun step member => steps _ (List.mem_map_of_mem member)
  rw [evaluate_of_length length]
  refine .bind (withinBudget_runSteps compiled each aligned) fun l filled => ?_
  refine .bind ((WithinBudget.mapError_iff _ fun _ => rfl).mpr ?_) fun v _ => .ok _
  exact timely_of_ofText lowered (size_of_runSteps compiled aligned filled) .standard result

/-- A formula that compiles gives what its definitions give by name, one after another, unless the
budget ends a run; with a step for every instruction it does not. None of its intermediates
mentions itself or one behind it. -/
theorem evaluate_iff_gives (h : compile limits d = .ok c) :
    (∀ params : List Float, params.length = d.params.length →
      (WithinBudget (c.evaluate params) → ∀ r, c.evaluate params = r ↔ d.Gives .standard params r) ∧
      ((∀ p ∈ c.result :: c.steps.map Prod.snd, p.code.size ≤ c.budget) →
        WithinBudget (c.evaluate params))) ∧
    ∀ (before after : List Intermediate) (i : Intermediate),
      d.intermediates = before ++ i :: after →
        ∃ ls, lexemes i.expression = .ok ls ∧
          ∀ j ∈ i :: after, .name j.name ∉ ls.map (·.token) := by
  constructor
  · intro params length
    refine ⟨fun within r => ?_, withinBudget_evaluate h length⟩
    have gives := gives_evaluate h length within
    constructor
    · rintro rfl
      exact gives
    · exact gives.unique
  · intro before after i split
    obtain ⟨scope, last, _, compiled, _, rfl⟩ := parts_of_compile h
    exact unmentioned_of_compileSteps compiled split

theorem evaluate_iff_gives_rectangle :
    ∃ (d : Definition) (c : Compiled), d.params.map (·.name) = ["a"] ∧
      d.intermediates.map (fun i => (i.name, i.expression)) = [("b", "a + a")] ∧
      d.expression = "a * b" ∧ compile {} d = .ok c ∧
      WithinBudget (c.evaluate [0.5]) ∧ d.Gives .standard [0.5] (c.evaluate [0.5]) ∧
      ∃ ls, lexemes "a + a" = .ok ls ∧ .name "b" ∉ ls.map (·.token) := by
  let d : Definition :=
    { id := "area", title := "Area", displayExpression := "", resultLabel := "Area"
      params := [{ name := "a", label := "Width" }]
      intermediates := [{ name := "b", label := "Length", expression := "a + a" }]
      expression := "a * b" }
  have compiled : (match compile {} d with
    | .ok c => (c.result :: c.steps.map Prod.snd).all (·.code.size ≤ c.budget)
    | .error _ => false) = true := by decide +kernel
  cases lowered : compile {} d with
  | error r =>
    rw [lowered] at compiled
    cases compiled
  | ok c =>
    rw [lowered] at compiled
    have enough : ∀ p ∈ c.result :: c.steps.map Prod.snd, p.code.size ≤ c.budget :=
      fun p member => of_decide_eq_true (List.all_eq_true.mp compiled p member)
    obtain ⟨value, unmentioned⟩ := evaluate_iff_gives lowered
    have within := (value [0.5] rfl).2 enough
    obtain ⟨ls, scanned, absent⟩ := unmentioned [] [] ⟨"b", "Length", none, "a + a"⟩ rfl
    exact ⟨d, c, rfl, rfl, rfl, lowered, within, ((value [0.5] rfl).1 within _).mp rfl,
      ls, scanned, absent _ (List.mem_singleton.mpr rfl)⟩

end

end BuildingCode.Formula

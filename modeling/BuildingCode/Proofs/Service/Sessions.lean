import BuildingCode.Service.Session

/-! What a session leaves behind. Resolving and computing change a service only through the cache
they ask, so a session leaves what its plain events leave, those that do one thing each. -/
namespace BuildingCode.Service
open Formula Store Json

/-- Does not find formulas on the way to something else. -/
def Event.Plain : Event → Prop
  | .resolve .. | .compute _ | .request .. | .batch .. => False
  | _ => True

section
variable (s : Service)

/-- What finding a formula asks of the cache: nothing about one that is built in, and nothing without
a scope. -/
def lookup (id : String) : Option String → List Event
  | none => []
  | some scope => if (s.builtin? id).isSome then [] else [.cached scope id]

def lookupFor (r : Request) : List Event :=
  s.lookup (Text.trim r.blockId) (Text.nonBlank r.scope)

/-- The plain events that an event comes down to. -/
def plain : Event → List Event
  | .resolve id scope => s.lookup id scope
  | .compute r => s.lookupFor r
  | .request body _ =>
    match (Json.parse body).bind Request.decode with
    | none => []
    | some r => if r.isRunnable then s.lookupFor r else []
  | .batch body _ =>
    match (Json.parse body).bind (asListOf Request.decode) with
    | none => []
    | some rs => (rs.filter Request.isRunnable).flatMap s.lookupFor
  | e => [e]

def after (es : List Event) : Service := (s.run es).2

@[simp] theorem after_nil : s.after [] = s := rfl

theorem after_cons (e : Event) (es : List Event) : s.after (e :: es) = (s.step e).2.after es := rfl

theorem after_singleton (e : Event) : s.after [e] = (s.step e).2 := rfl

theorem after_append (es fs : List Event) : s.after (es ++ fs) = (s.after es).after fs := by
  induction es generalizing s with
  | nil => rfl
  | cons e es ih => rw [List.cons_append, after_cons, after_cons, ih]

end

section
variable {s t : Service}

theorem cached_of_mem_lookup {id : String} {scope : Option String} {e : Event}
    (member : e ∈ s.lookup id scope) : ∃ scope id, e = .cached scope id := by
  cases scope with
  | none => cases member
  | some scope =>
    rw [lookup] at member
    split at member
    · cases member
    · exact ⟨scope, id, List.mem_singleton.mp member⟩

theorem plain_cases {e e' : Event} (member : e' ∈ s.plain e) :
    e' = e ∧ e.Plain ∨ ∃ scope id, e' = .cached scope id := by
  cases e with
  | resolve id scope => exact .inr (cached_of_mem_lookup member)
  | compute r => exact .inr (cached_of_mem_lookup member)
  | request body digits =>
    rw [plain] at member
    split at member
    · cases member
    · split at member
      · exact .inr (cached_of_mem_lookup member)
      · cases member
  | batch body digits =>
    rw [plain] at member
    split at member
    · cases member
    · obtain ⟨r, _, member⟩ := List.mem_flatMap.mp member
      exact .inr (cached_of_mem_lookup member)
  | _ => exact .inl ⟨List.mem_singleton.mp member, trivial⟩

theorem plain_of_mem {e e' : Event} (member : e' ∈ s.plain e) : e'.Plain := by
  rcases plain_cases member with ⟨rfl, plain⟩ | ⟨scope, id, rfl⟩
  · exact plain
  · trivial

theorem step_cached (s : Service) (scope id : String) :
    (s.step (.cached scope id)).2 = (s.cached scope id).2 := by
  rw [step]
  split <;> simp [*]

theorem resolve_eq_after (s : Service) (id : String) (scope : Option String) :
    (s.resolve id scope).2 = s.after (s.lookup id scope) := by
  unfold resolve
  cases found : s.builtin? id with
  | some c => cases scope <;> simp [lookup, found]
  | none =>
    cases scope with
    | none => rfl
    | some scope =>
      rw [lookup, found, if_neg (by simp), after_singleton, step_cached]
      dsimp only
      split <;> simp [*]

theorem formulaFor_eq_after (s : Service) (r : Request) :
    (s.formulaFor r).2 = s.after (s.lookupFor r) := by
  rw [lookupFor, ← resolve_eq_after, formulaFor]
  split <;> simp [*]

theorem after_written (s : Service) (r : Except StoreFault FormulaStore) :
    (s.written r).2 = s.withStore (r.toOption.getD s.store) := by
  cases r <;> rfl

theorem after_writtenRecord (s : Service) (r : Except StoreFault (CustomFormula × FormulaStore)) :
    (s.writtenRecord r).2 = s.withStore ((r.toOption.map Prod.snd).getD s.store) := by
  cases r <;> rfl

theorem builtins_step_of_plain {e : Event} (plain : e.Plain) :
    (s.step e).2.builtins = s.builtins := by
  cases e with
  | create | update =>
    rw [step, after_writtenRecord]
    rfl
  | insert | deactivate =>
    rw [step, after_written]
    rfl
  | cached scope id =>
    rw [step_cached, cached]
    split <;> rfl
  | resolve | compute | request | batch => cases plain
  | _ => rfl

theorem after_of_forall {Q : Event → Prop} {P : Service → Prop} (start : P s)
    (kept : ∀ s e, Q e → P s → P (s.step e).2) {es : List Event} (all : ∀ e ∈ es, Q e) :
    P (s.after es) := by
  induction es generalizing s with
  | nil => exact start
  | cons e es ih =>
    obtain ⟨first, rest⟩ := List.forall_mem_cons.mp all
    exact ih (kept s e first start) rest

theorem builtins_after_of_plain {es : List Event} (plain : ∀ e ∈ es, e.Plain) :
    (s.after es).builtins = s.builtins :=
  after_of_forall (P := fun t => t.builtins = s.builtins) rfl
    (fun _ _ first same => (builtins_step_of_plain first).trans same) plain

theorem lookupFor_congr (h : t.builtins = s.builtins) : t.lookupFor = s.lookupFor := by
  funext r
  cases scope : Text.nonBlank r.scope <;> simp [lookupFor, scope, lookup, builtin?, h]

theorem plain_congr (h : t.builtins = s.builtins) : t.plain = s.plain := by
  funext e
  cases e with
  | resolve id scope => cases scope <;> simp [plain, lookup, builtin?, h]
  | _ => simp [plain, lookupFor_congr h]

theorem formulasFor_eq_after (s : Service) (rs : List Request) :
    (s.formulasFor rs).2 = s.after (rs.flatMap s.lookupFor) := by
  induction rs generalizing s with
  | nil => rfl
  | cons r rs ih =>
    -- The lookups are decided by the built-in formulas, which the first one leaves alone.
    have kept : (s.formulaFor r).2.builtins = s.builtins := by
      rw [formulaFor_eq_after]
      exact builtins_after_of_plain fun _ => plain_of_mem (e := .compute r)
    rw [List.flatMap_cons, after_append, ← formulaFor_eq_after, ← lookupFor_congr kept, ← ih]
    rfl

/-- An event leaves what the plain events leave that it comes down to. -/
theorem step_eq_after_plain (s : Service) (e : Event) : (s.step e).2 = s.after (s.plain e) := by
  cases e with
  | resolve id scope => exact resolve_eq_after s id scope
  | compute r => exact formulaFor_eq_after s r
  | request body digits =>
    change (s.answerBody body digits).2 = _
    rw [answerBody, plain]
    cases (parse body).bind Request.decode with
    | none => rfl
    | some r =>
      change (s.respond digits r).2 = s.after (if r.isRunnable then s.lookupFor r else [])
      rw [respond]
      split
      · exact formulaFor_eq_after s r
      · rfl
  | batch body digits =>
    change (s.answerBatch body digits).2 = _
    rw [answerBatch, plain]
    cases (parse body).bind (asListOf Request.decode) with
    | none => rfl
    | some rs => exact formulasFor_eq_after s _
  | _ => rfl

def plainly (s : Service) (es : List Event) : List Event := es.flatMap s.plain

theorem plain_of_mem_plainly {es : List Event} {e : Event} (member : e ∈ s.plainly es) :
    e.Plain := by
  obtain ⟨_, _, member⟩ := List.mem_flatMap.mp member
  exact plain_of_mem member

theorem after_plainly (s : Service) (es : List Event) : s.after (s.plainly es) = s.after es := by
  induction es generalizing s with
  | nil => rfl
  | cons e es ih =>
    have kept : (s.step e).2.builtins = s.builtins := by
      rw [step_eq_after_plain, builtins_after_of_plain fun e' => plain_of_mem]
    rw [plainly, List.flatMap_cons, after_append, ← step_eq_after_plain, after_cons, ← ih, plainly,
      plain_congr kept]

theorem builtins_after (s : Service) (es : List Event) : (s.after es).builtins = s.builtins := by
  rw [← after_plainly]
  exact builtins_after_of_plain fun e => plain_of_mem_plainly

theorem builtin?_after (s : Service) (es : List Event) (id : String) :
    (s.after es).builtin? id = s.builtin? id := by
  rw [builtin?, builtins_after, builtin?]

theorem after_induction {P : Service → Prop} (start : P s)
    (kept : ∀ s e, e.Plain → P s → P (s.step e).2) (es : List Event) : P (s.after es) := by
  rw [← after_plainly]
  exact after_of_forall start kept fun e => plain_of_mem_plainly

end

end BuildingCode.Service

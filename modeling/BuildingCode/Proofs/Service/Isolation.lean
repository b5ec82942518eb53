import BuildingCode.Proofs.Service.Batch
import BuildingCode.Proofs.Service.History

/-! Two services that differ only in what belongs to other scopes cannot be told apart from within one
scope. Whatever is done there is done on both in step: the same answers, as many loads, and nothing
changes for the other scopes. -/
namespace BuildingCode.Service
open Formula Store Json Expression

def kept (s : Service) (scope : String) : Option ScopeEntries := s.cache.bind (·.scopes[scope]?)

def setup (s : Service) : Option (Lifetime × Limits) := s.cache.map fun c => (c.lifetime, c.limits)

def answering (entries : Option ScopeEntries) : Option (String → Option Entry) :=
  entries.map fun es id => es[id]?

/-- All that anyone may ask within the scope is the same. The stores and caches may hold anything for
other scopes, and the loads counted so far may differ. -/
structure Alike (scope : String) (s t : Service) : Prop where
  builtins : s.builtins = t.builtins
  setup : s.setup = t.setup
  down : s.source.down = t.source.down
  listed : s.source.listed scope = t.source.listed scope
  kept : answering (s.kept scope) = answering (t.kept scope)

/-- What was done on `s` and on `t` had the same answer and took as many loads. The services are alike
again, and each keeps for the other scopes what it kept before. -/
structure InStep {α : Type} (scope : String) (s t : Service) (x y : α × Service) : Prop where
  answer : x.1 = y.1
  alike : x.2.Alike scope y.2
  loads : ∃ n, x.2.source.loads = s.source.loads + n ∧ y.2.source.loads = t.source.loads + n
  others : ∀ other, other ≠ scope → x.2.kept other = s.kept other ∧ y.2.kept other = t.kept other

/-- Names no scope but the given one. A request whose scope is blank names none. -/
def Request.Within (scope : String) (r : Request) : Prop :=
  ∀ named ∈ Text.nonBlank r.scope, named = scope

/-- Asks within the scope, or forgets what was loaded for it. -/
def Event.Within (scope : String) : Event → Prop
  | .builtin _ => True
  | .resolve _ asked => ∀ named ∈ asked, named = scope
  | .cached named _ | .invalidate named => named = scope
  | .compute r => r.Within scope
  | .request body _ => ∀ r ∈ (parse body).bind Request.decode, r.Within scope
  | .batch body _ => ∀ rs ∈ (parse body).bind (asListOf Request.decode), ∀ r ∈ rs, r.Within scope
  | _ => False

namespace InStep

variable {α β : Type} {scope : String} {s t : Service} {x y : α × Service}

theorem refl (alike : s.Alike scope t) (a : α) : InStep scope s t (a, s) (a, t) where
  answer := rfl
  alike := alike
  loads := ⟨0, rfl, rfl⟩
  others _ _ := ⟨rfl, rfl⟩

theorem bind (h : InStep scope s t x y) {f : α → Service → β × Service}
    (next : ∀ a s' t', s'.Alike scope t' → InStep scope s' t' (f a s') (f a t')) :
    InStep scope s t (f x.1 x.2) (f y.1 y.2) := by
  obtain ⟨a, s'⟩ := x
  obtain ⟨b, t'⟩ := y
  obtain rfl : a = b := h.answer
  have further := next a s' t' h.alike
  refine ⟨further.answer, further.alike, ?_, ?_⟩
  · obtain ⟨n, first, first'⟩ := h.loads
    obtain ⟨m, second, second'⟩ := further.loads
    refine ⟨n + m, ?_, ?_⟩
    · rw [second, first, Nat.add_assoc]
    · rw [second', first', Nat.add_assoc]
  · intro other apart
    obtain ⟨first, first'⟩ := h.others other apart
    obtain ⟨second, second'⟩ := further.others other apart
    exact ⟨second.trans first, second'.trans first'⟩

theorem map (h : InStep scope s t x y) (f : α → β) :
    InStep scope s t (f x.1, x.2) (f y.1, y.2) :=
  h.bind fun a _ _ alike => refl alike (f a)

end InStep

def foundIn : Option (Except StoreFault (Option Entry)) → Option Entry
  | some (.ok found) => found
  | _ => none

def formulaOf (id : String) : Option Entry → Except ComputeFault Compiled
  | some (.ok c) => .ok c
  | some (.error fault) => .error (.compilation fault)
  | none => .error (.unknownFormula id)

def answerOf : Option (Except StoreFault (Option Entry)) → Answer
  | none => .noCache
  | some (.ok found) => .entry found
  | some (.error fault) => .refused fault

theorem resolve_eq_cached {s : Service} {id : String} (outside : s.builtin? id = none)
    (scope : String) :
    s.resolve id (some scope) = (foundIn (s.cached scope id).1, (s.cached scope id).2) := by
  unfold resolve
  rw [outside]
  dsimp only
  rcases s.cached scope id with ⟨_ | _ | _, _⟩ <;> rfl

theorem formulaFor_eq_resolve (s : Service) (r : Request) :
    let id := Text.trim r.blockId
    let resolved := s.resolve id (Text.nonBlank r.scope)
    s.formulaFor r = (formulaOf id resolved.1, resolved.2) := by
  unfold formulaFor
  dsimp only
  rcases s.resolve (Text.trim r.blockId) (Text.nonBlank r.scope) with ⟨_ | _ | _, _⟩ <;> rfl

theorem step_cached_eq (s : Service) (scope id : String) :
    s.step (.cached scope id) = (answerOf (s.cached scope id).1, (s.cached scope id).2) := by
  unfold step
  dsimp only
  rcases s.cached scope id with ⟨_ | _ | _, _⟩ <;> rfl

namespace Alike

variable {scope : String} {s t : Service}

theorem builtin? (alike : s.Alike scope t) (id : String) : s.builtin? id = t.builtin? id := by
  unfold Service.builtin?
  rw [alike.builtins]

theorem cases_cache (alike : s.Alike scope t) : (s.cache = none ∧ t.cache = none) ∨
    ∃ c d, s.cache = some c ∧ t.cache = some d ∧ c.lifetime = d.lifetime ∧ c.limits = d.limits ∧
      answering c.scopes[scope]? = answering d.scopes[scope]? := by
  have setup := alike.setup
  have kept := alike.kept
  unfold Service.setup at setup
  unfold Service.kept at kept
  cases hs : s.cache with
  | none =>
    cases ht : t.cache with
    | none => exact .inl ⟨rfl, rfl⟩
    | some d => simp [hs, ht] at setup
  | some c =>
    cases ht : t.cache with
    | none => simp [hs, ht] at setup
    | some d =>
      simp only [hs, ht, Option.map_some, Option.some.injEq, Prod.mk.injEq] at setup
      rw [hs, ht] at kept
      exact .inr ⟨c, d, rfl, rfl, setup.1, setup.2, kept⟩

theorem answering_fresh? {c d : Cache} (lifetime : c.lifetime = d.lifetime)
    (kept : answering c.scopes[scope]? = answering d.scopes[scope]?) :
    answering (c.fresh? scope) = answering (d.fresh? scope) := by
  unfold Cache.fresh?
  rw [lifetime]
  cases d.lifetime with
  | zero => rfl
  | endless => exact kept

theorem cached (alike : s.Alike scope t) (id : String) :
    InStep scope s t (s.cached scope id) (t.cached scope id) := by
  rcases alike.cases_cache with ⟨detached, detached'⟩ | ⟨c, d, attached, attached', lifetime, limits, kept⟩
  · unfold Service.cached
    rw [detached, detached']
    exact .refl alike none
  · have fresh := answering_fresh? lifetime kept
    cases found : c.fresh? scope with
    | some entries =>
      rw [found] at fresh
      obtain ⟨entries', found', same⟩ := Option.map_eq_some_iff.mp fresh.symm
      rw [cached_of_fresh attached found, cached_of_fresh attached' found', congrFun same id]
      exact .refl alike _
    | none =>
      rw [found] at fresh
      have found' : d.fresh? scope = none := Option.map_eq_none_iff.mp fresh.symm
      cases down : s.source.down with
      | true =>
        rw [cached_of_down attached found down,
          cached_of_down attached' found' (alike.down.symm.trans down)]
        exact ⟨rfl, ⟨alike.builtins, alike.setup, alike.down, alike.listed, alike.kept⟩, ⟨1, rfl, rfl⟩,
          fun _ _ => ⟨rfl, rfl⟩⟩
      | false =>
        rw [cached_of_up attached found down,
          cached_of_up attached' found' (alike.down.symm.trans down), ← limits, ← alike.listed]
        refine ⟨rfl, ⟨alike.builtins, ?_, alike.down, alike.listed, ?_⟩, ⟨1, rfl, rfl⟩, ?_⟩
        · simp [Service.setup, Cache.keep, lifetime, limits]
        · simp [Service.kept, Cache.keep]
        · intro other apart
          simp [Service.kept, Cache.keep, attached, attached', Std.TreeMap.getElem?_insert,
            Std.LawfulEqCmp.compare_eq_iff_eq, apart.symm]

theorem resolve (alike : s.Alike scope t) (id : String) {asked : Option String}
    (within : ∀ named ∈ asked, named = scope) :
    InStep scope s t (s.resolve id asked) (t.resolve id asked) := by
  cases outside : s.builtin? id with
  | some c =>
    have outside' : t.builtin? id = some c := alike.builtin? id ▸ outside
    unfold Service.resolve
    rw [outside, outside']
    cases asked <;> exact .refl alike _
  | none =>
    have outside' : t.builtin? id = none := alike.builtin? id ▸ outside
    cases asked with
    | none =>
      unfold Service.resolve
      rw [outside, outside']
      exact .refl alike _
    | some named =>
      obtain rfl := within named rfl
      rw [resolve_eq_cached outside, resolve_eq_cached outside']
      exact (alike.cached id).map foundIn

theorem compute (alike : s.Alike scope t) {r : Request} (within : r.Within scope) :
    InStep scope s t (s.compute r) (t.compute r) := by
  unfold Service.compute
  rw [formulaFor_eq_resolve, formulaFor_eq_resolve]
  exact (alike.resolve (Text.trim r.blockId) within).map
    fun found => formulaOf (Text.trim r.blockId) found >>= fun c => evaluate c r.values

theorem computeBatch (alike : s.Alike scope t) {rs : List Request}
    (within : ∀ r ∈ rs, r.Within scope) :
    InStep scope s t (s.computeBatch rs) (t.computeBatch rs) := by
  induction rs generalizing s t with
  | nil => exact .refl alike []
  | cons r rs ih =>
    obtain ⟨first, rest⟩ := List.forall_mem_cons.mp within
    rw [computeBatch_cons, computeBatch_cons]
    refine (alike.compute first).bind
      (f := fun a s' => (a :: (s'.computeBatch rs).1, (s'.computeBatch rs).2)) ?_
    intro a s' t' alike'
    exact (ih alike' rest).map (a :: ·)

theorem answerBody (alike : s.Alike scope t) {body : String} (digits : UInt32)
    (within : ∀ r ∈ (parse body).bind Request.decode, r.Within scope) :
    InStep scope s t (s.answerBody body digits) (t.answerBody body digits) := by
  unfold Service.answerBody
  cases read : (parse body).bind Request.decode with
  | none => exact .refl alike _
  | some r =>
    dsimp only
    unfold respond
    split
    · exact (alike.compute (within r read)).map (Response.ofOutcome digits)
    · exact .refl alike _

theorem answerBatch (alike : s.Alike scope t) {body : String} (digits : UInt32)
    (within : ∀ rs ∈ (parse body).bind (asListOf Request.decode), ∀ r ∈ rs, r.Within scope) :
    InStep scope s t (s.answerBatch body digits) (t.answerBatch body digits) := by
  unfold Service.answerBatch
  cases read : (parse body).bind (asListOf Request.decode) with
  | none => exact .refl alike _
  | some rs =>
    have runnable : ∀ r ∈ rs.filter Request.isRunnable, r.Within scope := by
      intro r mem
      exact within rs read r (List.mem_filter.mp mem).1
    exact (alike.computeBatch runnable).map (pairOutcomes digits rs)

theorem kept_step_invalidate (s : Service) (scope other : String) :
    (s.step (.invalidate scope)).2.kept other = if scope = other then none else s.kept other := by
  cases attached : s.cache with
  | none => simp [step, Service.kept, attached]
  | some c =>
    simp [step, Service.kept, attached, Cache.invalidate, Std.TreeMap.getElem?_erase,
      Std.LawfulEqCmp.compare_eq_iff_eq]

theorem invalidate (alike : s.Alike scope t) :
    InStep scope s t (s.step (.invalidate scope)) (t.step (.invalidate scope)) := by
  refine ⟨rfl, ⟨alike.builtins, ?_, alike.down, alike.listed, ?_⟩, ⟨0, rfl, rfl⟩, ?_⟩
  · have setup (s : Service) : (s.step (.invalidate scope)).2.setup = s.setup := by
      cases attached : s.cache <;> simp [step, Service.setup, attached, Cache.invalidate]
    rw [setup, setup, alike.setup]
  · rw [kept_step_invalidate, kept_step_invalidate, if_pos rfl, if_pos rfl]
  · intro other apart
    rw [kept_step_invalidate, kept_step_invalidate, if_neg apart.symm, if_neg apart.symm]
    exact ⟨rfl, rfl⟩

theorem step (alike : s.Alike scope t) {e : Event} (within : e.Within scope) :
    InStep scope s t (s.step e) (t.step e) := by
  cases e with
  | builtin id =>
    change InStep scope s t (Answer.entry ((s.builtin? id).map .ok), s)
      (Answer.entry ((t.builtin? id).map .ok), t)
    rw [alike.builtin? id]
    exact .refl alike _
  | resolve id asked => exact (alike.resolve id within).map Answer.entry
  | cached named id =>
    obtain rfl : named = scope := within
    rw [step_cached_eq, step_cached_eq]
    exact (alike.cached id).map answerOf
  | invalidate named =>
    obtain rfl : named = scope := within
    exact alike.invalidate
  | compute r => exact (alike.compute within).map Answer.computed
  | request body digits => exact (alike.answerBody digits within).map Answer.response
  | batch body digits => exact (alike.answerBatch digits within).map Answer.responses
  | create | insert | update | deactivate | get | list | raw | down | clear => cases within

theorem run (alike : s.Alike scope t) {es : List Event} (within : ∀ e ∈ es, e.Within scope) :
    InStep scope s t (s.run es) (t.run es) := by
  induction es generalizing s t with
  | nil => exact .refl alike []
  | cons e es ih =>
    obtain ⟨first, rest⟩ := List.forall_mem_cons.mp within
    refine (alike.step first).bind (f := fun a s' => (a :: (s'.run es).1, (s'.run es).2)) ?_
    intro a s' t' alike'
    exact (ih alike' rest).map (a :: ·)

end Alike

/-- Sessions within one scope, and batches in the middle of them, run in step on services that are
alike for the scope, whatever the other scopes hold. -/
theorem isolated_within {scope : String} {s t : Service} (alike : s.Alike scope t) {es : List Event}
    (within : ∀ e ∈ es, e.Within scope) :
    InStep scope s t (s.run es) (t.run es) ∧
      ∀ rs : List Request, (∀ r ∈ rs, r.Within scope) →
        InStep scope (s.after es) (t.after es) ((s.after es).computeBatch rs)
          ((t.after es).computeBatch rs) := by
  have ran := alike.run within
  exact ⟨ran, fun rs each => ran.alike.computeBatch each⟩

theorem isolated_within_deck :
    ∃ (s t : Service) (es : List Event) (r : Request), s.Alike "deck" t ∧
      s.source.listed "hall" ≠ t.source.listed "hall" ∧ (s.kept "hall").isSome ∧ t.kept "hall" = none ∧
      (∀ e ∈ es, e.Within "deck") ∧ InStep "deck" s t (s.run es) (t.run es) ∧ r.Within "deck" ∧
      InStep "deck" (s.after es) (t.after es) ((s.after es).computeBatch [r])
        ((t.after es).computeBatch [r]) := by
  let formula (scope expression : String) : CustomFormula :=
    ⟨{ id := "a1", title := "Area", displayExpression := "A", params := [], expression
       resultLabel := "A" }, scope, true⟩
  let service (hall : String) : Service :=
    ⟨[], some { lifetime := .endless, limits := {} },
      { store := { limits := {} }, raw := [formula "deck" "e", formula "hall" hall] }⟩
  let s := (service "pi").after [.cached "hall" "a1"]
  let r : Request := ⟨"a1", [], some " deck "⟩
  let es : List Event :=
    [.resolve "a1" (some "deck"), .compute r, .invalidate "deck", .resolve "a1" (some "deck")]
  let t := service "2"
  have unloaded : s.kept "deck" = none := Option.isNone_iff_eq_none.mp (by decide +kernel)
  have empty (scope : String) : t.kept scope = none := by simp [t, service, kept]
  have alike : s.Alike "deck" t :=
    ⟨rfl, by decide +kernel, rfl, by decide +kernel, by rw [unloaded, empty]⟩
  have asks : r.Within "deck" := by
    intro named mem
    have trimmed : Text.nonBlank (some " deck ") = some "deck" := by decide +kernel
    rw [show r.scope = some " deck " from rfl, trimmed] at mem
    exact (Option.some.inj mem).symm
  have within : ∀ e ∈ es, e.Within "deck" := by
    simp [es, Event.Within, asks]
  obtain ⟨ran, batch⟩ := isolated_within alike within
  exact ⟨s, t, es, r, alike, by decide +kernel, by decide +kernel, empty "hall", within,
    ran, asks, batch [r] (List.forall_mem_singleton.mpr asks)⟩

end BuildingCode.Service

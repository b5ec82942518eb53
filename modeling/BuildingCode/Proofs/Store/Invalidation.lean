import BuildingCode.Proofs.Store.Settled
import BuildingCode.Store.Interleaving
import Mathlib.Data.List.Induction

/-! When an invalidation is heeded by the gets that begin after it. A get that was answered by the source
before the invalidation and keeps its entries afterwards undoes it; nothing else does. -/
namespace BuildingCode.Store
open Formula Expression

namespace Get

variable {g : Get} {c : Cache} {s : Source} {scope : String} {entries : ScopeEntries}

theorem advance_frame (g : Get) (c : Cache) (s : Source) :
    (g.advance c s).2.1.limits = c.limits ∧ ∃ loads, (g.advance c s).2.2 = { s with loads } := by
  unfold advance
  split
  · split <;> exact ⟨rfl, s.loads, rfl⟩
  · split <;> exact ⟨rfl, s.loads + 1, rfl⟩
  · exact ⟨rfl, s.loads, rfl⟩
  · exact ⟨rfl, s.loads, rfl⟩

theorem kept_of_advance (h : (g.advance c s).2.1.scopes[scope]? = some entries) :
    c.scopes[scope]? = some entries ∨ g.scope = scope ∧ g.stage = .loaded entries := by
  unfold advance at h
  split at h
  · split at h <;> exact .inl h
  · split at h <;> exact .inl h
  · rename_i stage
    simp only [Cache.keep, Std.TreeMap.getElem?_insert, Std.LawfulEqCmp.compare_eq_iff_eq] at h
    split at h
    · cases h
      exact .inr ⟨by assumption, stage⟩
    · exact .inl h
  · exact .inl h

theorem loaded_of_advance (h : (g.advance c s).1 = .loaded entries) :
    s.offer c.limits g.scope = .ok entries := by
  unfold advance at h
  split at h
  · split at h <;> cases h
  · split at h
    · cases h
    · cases h
      assumption
  · cases h
  · cases h

theorem answered_of_advance {answer : Except StoreFault (Option Entry)}
    (h : (g.advance c s).1 = .answered answer) :
    (∃ entries, c.fresh? g.scope = some entries ∧ answer = .ok entries[g.id]?) ∨
      (∃ fault, s.offer c.limits g.scope = .error fault ∧ answer = .error fault) ∨
      (∃ entries, g.stage = .loaded entries ∧ answer = .ok entries[g.id]?) ∨
      g.stage = .answered answer := by
  unfold advance at h
  split at h
  · split at h
    · cases h
      exact .inl ⟨_, by assumption, rfl⟩
    · cases h
  · split at h
    · cases h
      exact .inr (.inl ⟨_, by assumption, rfl⟩)
    · cases h
  · rename_i stage
    cases h
    exact .inr (.inr (.inl ⟨_, stage, rfl⟩))
  · rename_i stage
    exact .inr (.inr (.inr (stage.trans h)))

end Get

namespace Traffic

variable {t : Traffic} {scope : String} {limits : Limits}

theorem run_append (t : Traffic) (ms ns : List Move) : t.run (ms ++ ns) = (t.run ms).run ns := by
  induction ms generalizing t with
  | nil => rfl
  | cons m ms ih => exact ih (t.step m)

theorem step_advance {n : Nat} {g : Get} (found : t.gets[n]? = some g) :
    t.step (.advance n) = ⟨(g.advance t.cache t.source).2.1, (g.advance t.cache t.source).2.2,
      t.gets.set n { g with stage := (g.advance t.cache t.source).1 }⟩ := by
  rw [step, found]

theorem step_advance_none {n : Nat} (absent : t.gets[n]? = none) : t.step (.advance n) = t := by
  rw [step, absent]

theorem run_alone (t : Traffic) (scope id : String) :
    t.run [.start scope id, .advance t.gets.length, .advance t.gets.length,
      .advance t.gets.length] =
    ⟨(t.cache.get t.source scope id).2.1, (t.cache.get t.source scope id).2.2,
      t.gets ++ [⟨scope, id, .answered (t.cache.get t.source scope id).1⟩]⟩ := by
  have last (c : Cache) (s : Source) (g : Get) :
      (⟨c, s, t.gets ++ [g]⟩ : Traffic).step (.advance t.gets.length) =
        ⟨(g.advance c s).2.1, (g.advance c s).2.2,
          t.gets ++ [{ g with stage := (g.advance c s).1 }]⟩ := by
    rw [step_advance (g := g) (by simp)]
    simp
  simp only [run]
  rw [step, last, last, last]
  cases fresh : t.cache.fresh? scope with
  | some entries => simp [Get.advance, fresh, Cache.get]
  | none =>
    cases down : t.source.down <;>
      simp [Get.advance, fresh, Cache.get, Source.offer, Source.load, down, Except.map]

/-- All that is known of a scope was `given` by the source: what is kept, what is about to be kept, and
the answers of the gets that began behind the first `old` ones. -/
structure Upheld (t : Traffic) (limits : Limits) (scope : String) (old : Nat)
    (given : Except StoreFault ScopeEntries → Prop) : Prop where
  limits_eq : t.cache.limits = limits
  kept : ∀ entries, t.cache.scopes[scope]? = some entries → given (.ok entries)
  loaded : ∀ (n : Nat) (g : Get) entries, t.gets[n]? = some g → g.scope = scope →
    g.stage = .loaded entries → given (.ok entries)
  answered : ∀ (n : Nat) (g : Get) answer, old ≤ n → t.gets[n]? = some g → g.scope = scope →
    g.stage = .answered answer → ∃ o, given o ∧ answer = o.map (·[g.id]?)

namespace Upheld

variable {old : Nat} {given : Except StoreFault ScopeEntries → Prop}

theorem mono {given' : Except StoreFault ScopeEntries → Prop} (h : t.Upheld limits scope old given)
    (wider : ∀ o, given o → given' o) : t.Upheld limits scope old given' where
  limits_eq := h.limits_eq
  kept entries found := wider _ (h.kept entries found)
  loaded n g entries found same stage := wider _ (h.loaded n g entries found same stage)
  answered n g answer young found same stage := by
    obtain ⟨o, was, eq⟩ := h.answered n g answer young found same stage
    exact ⟨o, wider o was, eq⟩

theorem start (h : t.Upheld limits scope old given) (other id : String) :
    (t.step (.start other id)).Upheld limits scope old given := by
  have begun : ∀ (n : Nat) (g : Get), (t.gets ++ [⟨other, id, .begun⟩])[n]? = some g →
      t.gets[n]? = some g ∨ g.stage = .begun := by
    intro n g found
    rw [List.getElem?_append] at found
    split at found
    · exact .inl found
    · have last := List.mem_of_getElem? found
      rw [List.mem_singleton.mp last]
      exact .inr rfl
  refine ⟨h.limits_eq, h.kept, ?_, ?_⟩
  · intro n g entries found same stage
    rcases begun n g found with found | first
    · exact h.loaded n g entries found same stage
    · cases first.symm.trans stage
  · intro n g answer young found same stage
    rcases begun n g found with found | first
    · exact h.answered n g answer young found same stage
    · cases first.symm.trans stage

theorem advance (h : t.Upheld limits scope old given) (now : given (t.source.offer limits scope))
    (n : Nat) : (t.step (.advance n)).Upheld limits scope old given := by
  cases found : t.gets[n]? with
  | none =>
    rw [step_advance_none found]
    exact h
  | some g =>
    rw [step_advance found]
    -- Every get but the one that takes its step is as before.
    have others : ∀ (k : Nat) (g' : Get),
        (t.gets.set n { g with stage := (g.advance t.cache t.source).1 })[k]? = some g' →
        t.gets[k]? = some g' ∨ k = n ∧ g' = { g with stage := (g.advance t.cache t.source).1 } := by
      intro k g' listed
      rw [List.getElem?_set] at listed
      split at listed
      · rename_i same
        split at listed
        · cases listed
          exact .inr ⟨same.symm, rfl⟩
        · cases listed
      · exact .inl listed
    apply Upheld.mk
    · exact (g.advance_frame t.cache t.source).1.trans h.limits_eq
    · intro entries kept
      rcases Get.kept_of_advance kept with kept | ⟨same, stage⟩
      · exact h.kept entries kept
      · exact h.loaded n g entries found same stage
    · intro k g' entries listed same stage
      rcases others k g' listed with listed | ⟨rfl, rfl⟩
      · exact h.loaded k g' entries listed same stage
      · rw [← Get.loaded_of_advance stage, h.limits_eq, show g.scope = scope from same]
        exact now
    · intro k g' answer young listed same stage
      rcases others k g' listed with listed | ⟨rfl, rfl⟩
      · exact h.answered k g' answer young listed same stage
      · have same : g.scope = scope := same
        rcases Get.answered_of_advance stage with ⟨entries, fresh, rfl⟩ | ⟨fault, refused, rfl⟩ |
          ⟨entries, loaded, rfl⟩ | before
        · exact ⟨_, h.kept entries (Cache.kept_of_fresh (same ▸ fresh)), rfl⟩
        · rw [h.limits_eq, same] at refused
          exact ⟨_, refused ▸ now, rfl⟩
        · exact ⟨_, h.loaded k g entries found same loaded, rfl⟩
        · exact h.answered k g answer young found same before

/-- Each move keeps what is known within what the source has given, if what it gives now counts. -/
theorem step (h : t.Upheld limits scope old given) (now : given (t.source.offer limits scope))
    (m : Move) : (t.step m).Upheld limits scope old given := by
  cases m with
  | start other id => exact h.start other id
  | advance n => exact h.advance now n
  | write source => exact ⟨h.limits_eq, h.kept, h.loaded, h.answered⟩
  | invalidate other =>
    refine ⟨h.limits_eq, ?_, h.loaded, h.answered⟩
    intro entries kept
    rw [Traffic.step, Cache.invalidate, Std.TreeMap.getElem?_erase] at kept
    split at kept
    · cases kept
    · exact h.kept entries kept
  | clear =>
    refine ⟨h.limits_eq, ?_, h.loaded, h.answered⟩
    intro entries kept
    simp [Traffic.step, Cache.clear] at kept

end Upheld

/-- The source gave this for the scope at some point of a run. -/
def GaveIn (t : Traffic) (limits : Limits) (scope : String) (ms : List Move)
    (o : Except StoreFault ScopeEntries) : Prop :=
  ∃ before rest, ms = before ++ rest ∧ o = (t.run before).source.offer limits scope

theorem Upheld.run {old : Nat} (h : t.Upheld limits scope old (t.GaveIn limits scope []))
    (ms : List Move) : (t.run ms).Upheld limits scope old (t.GaveIn limits scope ms) := by
  induction ms using List.reverseRecOn with
  | nil => exact h
  | append_singleton ms m ih =>
    rw [run_append]
    apply Upheld.step
    · apply ih.mono
      rintro o ⟨before, rest, rfl, rfl⟩
      exact ⟨before, rest ++ [m], by simp, rfl⟩
    · exact ⟨ms, [m], rfl, rfl⟩

/-- A get that begins after the scope was invalidated answers what the source has said of the scope at
some point since. -/
def Heeds (t : Traffic) (scope : String) : Prop :=
  ∀ (ms : List Move) (n : Nat) (id : String) (answer : Except StoreFault (Option Entry)),
    t.gets.length ≤ n →
    ((t.step (.invalidate scope)).run ms).gets[n]? = some ⟨scope, id, .answered answer⟩ →
    ∃ o, (t.step (.invalidate scope)).GaveIn t.cache.limits scope ms o ∧ answer = o.map (·[id]?)

theorem heeds_of_quiet (quiet : ∀ g ∈ t.gets, g.scope = scope → ∀ entries, g.stage ≠ .loaded entries) :
    t.Heeds scope := by
  intro ms n id answer young found
  have upheld : (t.step (.invalidate scope)).Upheld t.cache.limits scope t.gets.length
      ((t.step (.invalidate scope)).GaveIn t.cache.limits scope []) := by
    refine ⟨rfl, ?_, ?_, ?_⟩
    · intro entries kept
      simp [step, Cache.invalidate] at kept
    · intro k g entries listed same stage
      exact absurd stage (quiet g (List.mem_of_getElem? listed) same entries)
    · intro k g answer young listed
      rw [step, List.getElem?_eq_none young] at listed
      cases listed
  exact (upheld.run ms).answered n _ answer young found rfl rfl

theorem get_of_loaded (endless : t.cache.lifetime = .endless) {n : Nat} {g : Get}
    {entries : ScopeEntries} (found : t.gets[n]? = some g) (same : g.scope = scope)
    (stage : g.stage = .loaded entries) (id : String) :
    ((t.step (.invalidate scope)).run
      [.advance n, .start scope id, .advance t.gets.length]).gets[t.gets.length]? =
      some ⟨scope, id, .answered (.ok entries[id]?)⟩ := by
  subst same
  have fresh : ((t.cache.invalidate g.scope).keep g.scope entries).fresh? g.scope = some entries := by
    simp [Cache.fresh?, Cache.keep, Cache.invalidate, endless]
  have advanced : (t.step (.invalidate g.scope)).step (.advance n) =
      ⟨(t.cache.invalidate g.scope).keep g.scope entries, t.source,
        t.gets.set n { g with stage := .answered (.ok entries[g.id]?) }⟩ := by
    rw [step_advance (t := t.step (.invalidate g.scope)) found, Get.advance, stage]
    rfl
  rw [run, advanced, run, step, run, step_advance (g := ⟨g.scope, id, .begun⟩) (by simp)]
  simp [run, Get.advance, fresh]

theorem offer_step (t : Traffic) {m : Move} (unwritten : ∀ source, m ≠ .write source) :
    (t.step m).source.offer limits scope = t.source.offer limits scope := by
  cases m with
  | write source => exact absurd rfl (unwritten source)
  | advance n =>
    cases found : t.gets[n]? with
    | none => rw [step_advance_none found]
    | some g =>
      obtain ⟨loads, counted⟩ := (g.advance_frame t.cache t.source).2
      rw [step_advance found, counted]
      rfl
  | _ => rfl

theorem offer_run (t : Traffic) {ms : List Move} (unwritten : ∀ m ∈ ms, ∀ source, m ≠ .write source) :
    (t.run ms).source.offer limits scope = t.source.offer limits scope := by
  induction ms generalizing t with
  | nil => rfl
  | cons m ms ih =>
    rw [List.forall_mem_cons] at unwritten
    rw [run, ih (t.step m) unwritten.2, offer_step t unwritten.1]

theorem run_before_write {c : Cache} {s : Source} (cold : c.fresh? scope = none)
    (up : s.down = false) (id : String) (written : Source) :
    (⟨c, s, []⟩ : Traffic).run [.start scope id, .advance 0, .advance 0, .write written] =
      ⟨c, written, [⟨scope, id, .loaded (compileScope c.limits (s.listed scope))⟩]⟩ := by
  simp [run, step, Get.advance, cold, Source.offer, Source.load, up, Except.map]

end Traffic

/-- An invalidation is heeded by all gets that begin after it, if at that moment no get of the scope
stands between being answered by the source and keeping the answer. If one does, it may keep what it was
given before, and the next get is answered from that, whatever has been written in between. -/
theorem invalidation_heeded (t : Traffic) (scope : String) :
    ((∀ g ∈ t.gets, g.scope = scope → ∀ entries, g.stage ≠ .loaded entries) → t.Heeds scope) ∧
    (t.cache.lifetime = .endless → ∀ (n : Nat) (g : Get) (entries : ScopeEntries),
      t.gets[n]? = some g → g.scope = scope → g.stage = .loaded entries →
      ∀ (id : String) (written : Source),
        ((t.step (.invalidate scope)).run
          [.write written, .advance n, .start scope id, .advance t.gets.length]).gets[t.gets.length]? =
          some ⟨scope, id, .answered (.ok entries[id]?)⟩) := by
  apply And.intro Traffic.heeds_of_quiet
  intro endless n g entries found same stage id written
  exact Traffic.get_of_loaded (t := { t with source := written }) endless found same stage id

/-- A get asks the source, the formula is updated and its scope invalidated, and only then the get keeps
what it was given. The next get is answered with the formula as it was before the update. -/
theorem invalidation_lost :
    let formula (expression : String) : CustomFormula :=
      ⟨{ id := "a1", title := "Area", displayExpression := "A", params := [], expression
         resultLabel := "A" }, "deck", true⟩
    let store : FormulaStore := FormulaStore.put { limits := {} } (formula "e")
    ∃ updated, store.update "a1" (formula "pi").definition.draft = .ok (formula "pi", updated) ∧
      let t := (⟨{ lifetime := .endless, limits := {} }, { store }, []⟩ : Traffic).run
        [.start "deck" "a1", .advance 0, .advance 0, .write { store := updated }]
      ((t.step (.invalidate "deck")).run [.advance 0, .start "deck" "a1", .advance 1]).gets[1]? =
          some ⟨"deck", "a1", .answered (.ok (some (compile {} (formula "e").definition)))⟩ ∧
        ¬t.Heeds "deck" := by
  intro formula store
  have done : (store.update "a1" (formula "pi").definition.draft).toOption.map Prod.fst =
      some (formula "pi") := by decide +kernel
  cases written : store.update "a1" (formula "pi").definition.draft with
  | error fault =>
    rw [written] at done
    cases done
  | ok result =>
    obtain ⟨r, updated⟩ := result
    rw [written] at done
    cases done
    obtain ⟨_, rfl⟩ := FormulaStore.put_of_update written
    refine ⟨_, rfl, ?_⟩
    intro t
    have here : t = ⟨{ lifetime := .endless, limits := {} }, { store := store.put (formula "pi") },
        [⟨"deck", "a1", .loaded (compileScope {} [formula "e"])⟩]⟩ := by
      have listed : Source.listed { store } "deck" = [formula "e"] := by decide +kernel
      rw [← listed]
      exact Traffic.run_before_write rfl rfl "a1" _
    have pending : t.gets[0]? =
        some ⟨"deck", "a1", .loaded (compileScope {} [formula "e"])⟩ := by
      rw [here]
      rfl
    have served := Traffic.get_of_loaded (t := t) (by rw [here]) pending rfl rfl "a1"
    rw [show t.gets.length = 1 by rw [here]; rfl, getElem?_compileScope] at served
    apply And.intro served
    intro heeds
    obtain ⟨o, ⟨before, rest, split, rfl⟩, answer⟩ :=
      heeds _ 1 "a1" _ (by rw [here]; exact Nat.le_refl 1) served
    have unwritten : ∀ m ∈ before, ∀ source, m ≠ .write source := by
      intro m member
      have member : m ∈ before ++ rest := List.mem_append_left rest member
      rw [← split] at member
      simp only [List.mem_cons, List.not_mem_nil, or_false] at member
      rcases member with rfl | rfl | rfl <;> simp
    have listed : t.source.listed "deck" = [formula "pi"] := by
      rw [here]
      decide +kernel
    have given : (t.step (.invalidate "deck")).source.offer t.cache.limits "deck" =
        .ok (compileScope {} [formula "pi"]) := by
      rw [← listed, here]
      rfl
    rw [Traffic.offer_run _ unwritten, given, Except.map, getElem?_compileScope] at answer
    have same := congrArg
      (fun a => (a.toOption.join.bind Except.toOption).map (·.definition.expression)) answer
    exact absurd same (by decide +kernel)

theorem invalidation_heeded_midway :
    let t : Traffic := (⟨{ lifetime := .endless, limits := {} }, { store := { limits := {} } }, []⟩ :
      Traffic).run [.start "deck" "a1", .advance 0]
    let u := t.step (.advance 0)
    t.Heeds "deck" ∧ ∀ written,
      ((u.step (.invalidate "deck")).run
        [.write written, .advance 0, .start "deck" "a1", .advance 1]).gets[1]? =
        some ⟨"deck", "a1", .answered (.ok (lastEntry {} [] "a1"))⟩ := by
  intro t u
  constructor
  · apply (invalidation_heeded t "deck").1
    intro g member _ entries
    have missed : t.gets = [⟨"deck", "a1", .missed⟩] := rfl
    rw [missed, List.mem_singleton] at member
    rw [member]
    simp
  · intro written
    have loaded : u.gets = [⟨"deck", "a1", .loaded (compileScope {}
        (Source.listed { store := { limits := {} } } "deck"))⟩] := rfl
    have listed : Source.listed { store := { limits := {} } } "deck" = [] := by decide +kernel
    rw [listed] at loaded
    rw [← getElem?_compileScope]
    exact (invalidation_heeded u "deck").2 rfl 0 _ _ (by rw [loaded]; rfl) rfl rfl "a1" written

end BuildingCode.Store

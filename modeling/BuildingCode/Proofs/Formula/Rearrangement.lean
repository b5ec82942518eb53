import BuildingCode.Proofs.Formula.Values
import BuildingCode.Proofs.Machine.Slots

/-! Parameters in another order have other slots, and so has everything that is compiled over them. It
compiles all the same and computes the same, because each value is found where its name is. -/
namespace BuildingCode.Formula
open Expression Machine Outcome

/-- Where a slot is once the parameters stand in another order. Behind them nothing moves. -/
def place (ps ps' : List Parameter) (slot : Nat) : Nat :=
  match ps[slot]? with
  | some p => ps'.idxOf p
  | none => slot

theorem getElem?_place {ps ps' : List Parameter} (perm : ps.Perm ps') (f : Parameter → α)
    (behind : List α) {slot : Nat} {a : α} (h : (ps.map f ++ behind)[slot]? = some a) :
    (ps'.map f ++ behind)[place ps ps' slot]? = some a := by
  cases found : ps[slot]? with
  | some p =>
    have inside : slot < ps.length := (List.getElem?_eq_some_iff.mp found).1
    have member : p ∈ ps' := perm.mem_iff.mp (List.mem_of_getElem? found)
    have inside' : ps'.idxOf p < ps'.length := List.idxOf_lt_length_iff.mpr member
    rw [List.getElem?_append_left (by simpa using inside), List.getElem?_map, found] at h
    rw [place, found, List.getElem?_append_left (by simpa using inside'), List.getElem?_map,
      List.getElem?_idxOf member]
    exact h
  | none =>
    have beyond : ps.length ≤ slot := List.getElem?_eq_none_iff.mp found
    have beyond' : ps'.length ≤ slot := perm.length_eq ▸ beyond
    rw [List.getElem?_append_right (by simpa using beyond), List.length_map, perm.length_eq] at h
    rw [place, found, List.getElem?_append_right (by simpa using beyond'), List.length_map]
    exact h

theorem eq_of_names {scope scope' : Scope} (h : scope.names = scope'.names) : scope = scope' := by
  cases scope
  cases scope'
  cases h
  rfl

theorem exists_scope_of_perm (scope : Scope) {names : List String} (perm : scope.names.Perm names) :
    ∃ scope' : Scope, scope'.names = names :=
  ⟨⟨names, fun name member => scope.unreserved name (perm.mem_iff.mpr member),
    perm.nodup_iff.mp scope.distinct⟩, rfl⟩

theorem push_eq_ok_iff {scope next : Scope} {name : String} :
    scope.push name = .ok next ↔ next.names = scope.names ++ [name] := by
  constructor
  · exact fun h => (names_of_push h).1
  · intro names
    have unreserved : isReserved name = false := next.unreserved name (by simp [names])
    have free : name ∉ scope.names := by
      have distinct := next.distinct
      rw [names, List.nodup_append] at distinct
      exact fun bound => distinct.2.2 name bound name (List.mem_singleton_self name) rfl
    rw [Scope.push, dif_neg (by simp [unreserved]), dif_neg free]
    exact congrArg Except.ok (eq_of_names names.symm)

theorem foldlM_push_eq_ok_iff {names : List String} {scope last : Scope} :
    names.foldlM Scope.push scope = .ok last ↔ last.names = scope.names ++ names := by
  constructor
  · exact names_of_foldlM_push
  · intro h
    induction names generalizing scope with
    | nil =>
      rw [List.append_nil] at h
      rw [eq_of_names h]
      rfl
    | cons name names ih =>
      have h : last.names = scope.names ++ [name] ++ names := h.trans (List.append_cons _ name names)
      have first : (scope.names ++ [name]).Sublist last.names := h ▸ List.sublist_append_left _ names
      let next : Scope := ⟨scope.names ++ [name],
        fun other member => last.unreserved other (first.subset member),
        last.distinct.sublist first⟩
      have pushed : scope.push name = .ok next := push_eq_ok_iff.mpr rfl
      rw [List.foldlM_cons, pushed]
      exact ih h

theorem ofNames_eq_ok_iff {names : List String} {scope : Scope} :
    Scope.ofNames names = .ok scope ↔ scope.names = names := by
  rw [Scope.ofNames, foldlM_push_eq_ok_iff]
  rfl

/-- Scopes with the parameters in front, in one order and in another, and the same names behind. -/
def Rearranged (ps ps' : List Parameter) (scope scope' : Scope) : Prop :=
  ∃ behind, scope.names = ps.map (·.name) ++ behind ∧ scope'.names = ps'.map (·.name) ++ behind

namespace Rearranged

variable {ps ps' : List Parameter} {scope scope' : Scope} (h : Rearranged ps ps' scope scope')
include h

theorem perm (order : ps.Perm ps') : scope.names.Perm scope'.names := by
  obtain ⟨behind, names, names'⟩ := h
  rw [names, names']
  exact (order.map _).append_right behind

theorem renames (order : ps.Perm ps') : scope.Renames (place ps ps') scope' := by
  obtain ⟨behind, names, names'⟩ := h
  intro name slot found
  rw [Scope.slot?_eq_some_iff, names] at found
  rw [Scope.slot?_eq_some_iff, names']
  exact getElem?_place order (·.name) behind found

theorem push (order : ps.Perm ps') {name : String} {next : Scope}
    (pushed : scope.push name = .ok next) :
    ∃ next', scope'.push name = .ok next' ∧ Rearranged ps ps' next next' := by
  have names := push_eq_ok_iff.mp pushed
  obtain ⟨next', names'⟩ := exists_scope_of_perm next
    (names ▸ (h.perm order).append_right [name] : next.names.Perm (scope'.names ++ [name]))
  obtain ⟨behind, before, before'⟩ := h
  refine ⟨next', push_eq_ok_iff.mpr names', behind ++ [name], ?_, ?_⟩
  · rw [names, before, List.append_assoc]
  · rw [names', before', List.append_assoc]

end Rearranged

section
variable {ps ps' : List Parameter} (order : ps.Perm ps') {limits : Limits}
include order

/-- A program over the rearranged scope runs alike over values that were rearranged in the same way. -/
theorem exists_ofText_rearranged {scope scope' : Scope} (between : Rearranged ps ps' scope scope')
    {text : String} {p : Program} (h : Program.ofText scope limits text = .ok p) :
    ∃ p', Program.ofText scope' limits text = .ok p' ∧
      ∀ (value : Parameter → Float) (vs : List Float),
        scope.names.length = (Ledger.mk (ps.map value) vs).size → ∀ A limit,
          p'.run A (Ledger.mk (ps'.map value) vs).values limit =
            p.run A (Ledger.mk (ps.map value) vs).values limit := by
  obtain ⟨p', compiled, alike⟩ := Program.ofText_rename (between.renames order) h
  refine ⟨p', compiled, fun value vs aligned => alike _ _ (Nat.le_of_eq aligned) ?_ ?_⟩
  · rw [← (between.perm order).length_eq, aligned]
    simp [Ledger.size, Ledger.values, order.length_eq]
  · exact fun slot v => getElem?_place order value vs

theorem exists_compileSteps_rearranged {is : List Intermediate} {scope scope' last : Scope}
    {steps : List (String × Program)} (between : Rearranged ps ps' scope scope')
    (h : compileSteps limits scope is = .ok (steps, last)) :
    ∃ steps' last', compileSteps limits scope' is = .ok (steps', last') ∧
      Rearranged ps ps' last last' ∧
      ∀ (value : Parameter → Float) (vs : List Float) (budget : Nat),
        scope.names.length = (Ledger.mk (ps.map value) vs).size →
          runSteps budget steps' ⟨ps'.map value, vs⟩ =
            (runSteps budget steps ⟨ps.map value, vs⟩).map fun l =>
              ⟨ps'.map value, l.intermediates⟩ := by
  -- Every step adds its name to both scopes and its value to both ledgers, so all stays in its place.
  induction is generalizing scope scope' steps with
  | nil =>
    cases h
    exact ⟨[], scope', rfl, between, fun value vs budget _ => rfl⟩
  | cons i is ih =>
    obtain ⟨p, next, more, compiled, pushed, rest, rfl⟩ := exists_of_compileSteps_cons h
    obtain ⟨p', compiled', alike⟩ := exists_ofText_rearranged order between compiled
    obtain ⟨next', pushed', between'⟩ := between.push order pushed
    obtain ⟨more', last', rest', end', same⟩ := ih between' rest
    refine ⟨(i.name, p') :: more', last', ?_, end', ?_⟩
    · simp only [compileSteps, compiled', pushed', Except.mapError, bind, Except.bind, rest']
      rfl
    · intro value vs budget aligned
      have grown (v : Float) : next.names.length = (Ledger.mk (ps.map value) (vs ++ [v])).size := by
        rw [length_of_push pushed, aligned]
        simp [Ledger.size, Ledger.values]
        omega
      rw [runSteps, runSteps, alike value vs aligned, Outcome.map_bind]
      exact bind_congr fun v => same value (vs ++ [v]) budget (grown v)

end

theorem evaluate_of_moved {c c' : Compiled} {xs xs' : List Float}
    (length : xs.length = c.definition.params.length)
    (length' : xs'.length = c'.definition.params.length)
    (steps : runSteps c'.budget c'.steps (.ofParams xs') =
      (runSteps c.budget c.steps (.ofParams xs)).map fun l => ⟨xs', l.intermediates⟩)
    (result : ∀ l, runSteps c.budget c.steps (.ofParams xs) = .ok l →
      c'.result.run .standard (Ledger.mk xs' l.intermediates).values c'.budget =
        c.result.run .standard l.values c.budget) :
    c'.evaluate xs' = (c.evaluate xs).map fun e => ⟨e.value, xs', e.ledger.intermediates⟩ := by
  rw [evaluate_of_length length, evaluate_of_length length', Outcome.map_bind, steps]
  cases filled : runSteps c.budget c.steps (.ofParams xs) with
  | error fault => rfl
  | ok l =>
    show ((c'.result.run .standard (Ledger.mk xs' l.intermediates).values c'.budget).mapError _).map
      _ = (((c.result.run .standard l.values c.budget).mapError _).map _).map _
    rw [result l filled]
    cases c.result.run .standard l.values c.budget <;> rfl

theorem exists_compile_rearranged {limits : Limits} {d : Definition} {ps : List Parameter}
    (order : d.params.Perm ps) {c : Compiled} (h : compile limits d = .ok c) :
    ∃ c', compile limits { d with params := ps } = .ok c' ∧
      ∀ value : Parameter → Float, c'.evaluate (ps.map value) =
        (c.evaluate (d.params.map value)).map fun e =>
          ⟨e.value, ps.map value, e.ledger.intermediates⟩ := by
  obtain ⟨scope, named, h⟩ := bind_eq_ok.mp h
  obtain ⟨⟨steps, last⟩, compiled, h⟩ := bind_eq_ok.mp h
  obtain ⟨result, lowered, h⟩ := bind_eq_ok.mp h
  cases h
  have names : scope.names = d.params.map (·.name) := ofNames_eq_ok_iff.mp (ok_of_mapError named)
  obtain ⟨scope', names'⟩ := exists_scope_of_perm scope
    (names ▸ order.map _ : scope.names.Perm (ps.map (·.name)))
  have between : Rearranged d.params ps scope scope' := ⟨[], by simp [names], by simp [names']⟩
  obtain ⟨steps', last', compiled', end', same⟩ := exists_compileSteps_rearranged order between compiled
  obtain ⟨result', lowered', alike⟩ := exists_ofText_rearranged order end' (ok_of_mapError lowered)
  refine ⟨⟨{ d with params := ps }, steps', result', limits.steps⟩, ?_, fun value => ?_⟩
  · simp only [compile, ofNames_eq_ok_iff.mpr names', Except.mapError, bind, Except.bind, compiled',
      lowered']
    rfl
  · have aligned : scope.names.length = (Ledger.ofParams (d.params.map value)).size := by
      simp [names]
    refine evaluate_of_moved (by simp) (by simp) (same value [] limits.steps aligned) ?_
    intro l filled
    obtain ⟨vs, rfl, _⟩ := exists_values_of_runSteps compiled filled
    exact alike value vs (size_of_runSteps compiled aligned filled) .standard limits.steps

end BuildingCode.Formula

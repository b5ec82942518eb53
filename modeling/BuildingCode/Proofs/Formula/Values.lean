import BuildingCode.Formula.Input
import BuildingCode.Proofs.Formula.Meaning
import Mathlib.Data.List.Forall2

/-! The values of a formula. Those of the parameters are what was entered, finite and within the bounds;
those of the intermediates and of the result are what runs have ended with, and every run that ends
well ends with a finite number. -/
namespace BuildingCode.Formula
open Expression Machine Outcome

/-- The number entered for the parameter, which is not outside its bounds. -/
structure Parameter.Admits (p : Parameter) (values : Values) (x : Float) : Prop where
  entered : (values.get? p.name).bind RawValue.number? = some x
  least : ∀ low ∈ p.min, ¬x < low
  most : ∀ high ∈ p.max, ¬high < x

/-- Something was entered for the parameter that it admits. -/
def Parameter.Usable (p : Parameter) (values : Values) : Prop := ∃ x, p.Admits values x

section
variable {p : Parameter} {ps : List Parameter} {values : Values} {x : Float} {xs : List Float}

theorem isFinite_of_number? {raw : RawValue} (h : raw.number? = some x) : x.isFinite := by
  cases raw with
  | number y =>
    rw [RawValue.number?, Option.ite_none_right_eq_some] at h
    obtain ⟨finite, same⟩ := h
    exact Option.some.inj same ▸ finite
  | text s =>
    rw [RawValue.number?, parseNumber, Option.filter_eq_some_iff] at h
    exact h.2

theorem Parameter.Admits.finite (h : p.Admits values x) : x.isFinite := by
  obtain ⟨raw, _, number⟩ := Option.bind_eq_some_iff.mp h.entered
  exact isFinite_of_number? number

theorem checkBounds_eq_ok_iff {label : String} {min max : Option Float} {y : Float} :
    checkBounds label min max x = .ok y ↔
      x = y ∧ (∀ low ∈ min, ¬x < low) ∧ ∀ high ∈ max, ¬high < x := by
  have least : min.filter (x < ·) = none ↔ ∀ low ∈ min, ¬x < low := by
    simp [Option.filter_eq_none_iff]
  have most : max.filter (· < x) = none ↔ ∀ high ∈ max, ¬high < x := by
    simp [Option.filter_eq_none_iff]
  rw [← least, ← most]
  unfold checkBounds
  split <;> simp_all

theorem Parameter.bind_eq_ok_iff : p.bind values = .ok x ↔ p.Admits values x := by
  have checked : p.bind values = .ok x ↔
      checkValue p.label p.min p.max (values.get? p.name) = .ok x := by
    unfold Parameter.bind
    split <;> simp_all
  rw [checked]
  unfold checkValue
  constructor
  · intro h
    split at h
    · next y number =>
      obtain ⟨rfl, least, most⟩ := checkBounds_eq_ok_iff.mp h
      exact ⟨number, least, most⟩
    · cases h
  · rintro ⟨entered, least, most⟩
    rw [entered]
    exact checkBounds_eq_ok_iff.mpr ⟨rfl, least, most⟩

theorem bindAll_cons_of_ok (ps : List Parameter) (h : p.bind values = .ok x) :
    bindAll (p :: ps) values = (bindAll ps values).map (x :: ·) := by
  unfold bindAll
  simp only [List.map_cons, h, List.filterMap_cons_none]
  split <;> rfl

theorem bindAll_cons_of_error (ps : List Parameter) {v : Violation} (h : p.bind values = .error v) :
    ∃ vs, bindAll (p :: ps) values = .error vs := by
  unfold bindAll
  simp only [List.map_cons, h]
  exact ⟨_, rfl⟩

/-- All parameters are bound exactly to the numbers that they admit. -/
theorem bindAll_eq_ok_iff :
    bindAll ps values = .ok xs ↔ List.Forall₂ (fun p x => p.Admits values x) ps xs := by
  induction ps generalizing xs with
  | nil => cases xs <;> simp [bindAll]
  | cons p ps ih =>
    cases first : p.bind values with
    | error v =>
      obtain ⟨vs, refused⟩ := bindAll_cons_of_error ps first
      rw [refused]
      constructor
      · intro h
        cases h
      · rintro (_ | ⟨admits, _⟩)
        cases first.symm.trans (Parameter.bind_eq_ok_iff.mpr admits)
    | ok x =>
      have admits := Parameter.bind_eq_ok_iff.mp first
      rw [bindAll_cons_of_ok ps first]
      constructor
      · intro h
        cases rest : bindAll ps values with
        | error vs =>
          rw [rest] at h
          cases h
        | ok ys =>
          rw [rest] at h
          cases h
          exact .cons admits (ih.mp rest)
      · rintro (_ | ⟨admits', rest⟩)
        cases admits.entered.symm.trans admits'.entered
        rw [ih.mpr rest]
        rfl

theorem exists_bindAll_iff : (∃ xs, bindAll ps values = .ok xs) ↔ ∀ p ∈ ps, p.Usable values := by
  simp only [bindAll_eq_ok_iff]
  induction ps with
  | nil => simp
  | cons p ps ih =>
    rw [List.forall_mem_cons, ← ih]
    constructor
    · rintro ⟨_, _ | ⟨first, rest⟩⟩
      exact ⟨⟨_, first⟩, ⟨_, rest⟩⟩
    · rintro ⟨⟨x, first⟩, ⟨xs, rest⟩⟩
      exact ⟨x :: xs, .cons first rest⟩

/-- What is wrong with the value entered for the parameter. -/
def Parameter.refusal? (values : Values) (p : Parameter) : Option Violation :=
  match p.bind values with
  | .error v => some v
  | .ok _ => none

def Parameter.entry (values : Values) (p : Parameter) : Float := (p.bind values).toOption.getD 0.0

theorem Parameter.bind_of_refusal?_eq_none (h : p.refusal? values = none) :
    p.bind values = .ok (p.entry values) := by
  unfold refusal? at h
  unfold entry
  cases bound : p.bind values with
  | error v => simp [bound] at h
  | ok x => rfl

theorem bindAll_of_refusals_eq_nil (h : ps.filterMap (·.refusal? values) = []) :
    bindAll ps values = .ok (ps.map (·.entry values)) := by
  have entries : (ps.map (·.bind values)).filterMap Except.toOption = ps.map (·.entry values) := by
    rw [List.filterMap_map, ← List.filterMap_eq_map]
    refine List.filterMap_congr fun p member => ?_
    have bound := Parameter.bind_of_refusal?_eq_none (List.filterMap_eq_nil_iff.mp h p member)
    simp [bound, Except.toOption]
  unfold bindAll
  dsimp only
  split
  · exact congrArg Except.ok entries
  · next refused => exact absurd (List.filterMap_map.trans h) refused

theorem bindAll_of_refusals_ne_nil (h : ps.filterMap (·.refusal? values) ≠ []) :
    bindAll ps values = .error (ps.filterMap (·.refusal? values)) := by
  unfold bindAll
  dsimp only
  split
  · next none => exact absurd (List.filterMap_map.symm.trans none) h
  · exact congrArg Except.error List.filterMap_map

end

theorem isFinite_of_run {A : Arithmetic} {p : Program} {slots : List Float} {limit : Nat} {v : Float}
    (h : p.run A slots limit = .ok v) : v.isFinite := by
  unfold Program.run at h
  split at h
  · cases h
  · obtain ⟨stack, _, h⟩ := bind_eq_ok.mp h
    unfold single at h
    split at h
    · unfold finite at h
      split at h
      · cases h
        assumption
      · cases h
    · cases h

section
variable {limits : Limits} {d : Definition} {c : Compiled}

theorem exists_values_of_runSteps {is : List Intermediate} {scope scope' : Scope}
    {steps : List (String × Program)}
    (h : compileSteps limits scope is = .ok (steps, scope')) {budget : Nat} {l l' : Ledger}
    (filled : runSteps budget steps l = .ok l') :
    ∃ vs, l' = ⟨l.params, l.intermediates ++ vs⟩ ∧ List.Forall₂ (fun _ v => v.isFinite) is vs := by
  induction is generalizing scope steps l with
  | nil =>
    cases h
    cases filled
    exact ⟨[], by simp, .nil⟩
  | cons i is ih =>
    obtain ⟨p, _, more, _, _, rest, rfl⟩ := exists_of_compileSteps_cons h
    obtain ⟨v, ran, filled⟩ := bind_eq_ok.mp filled
    obtain ⟨vs, rfl, finite⟩ := ih rest filled
    exact ⟨v :: vs, by simp [Ledger.push], .cons (isFinite_of_run (ok_of_mapError ran)) finite⟩

theorem finite_of_evaluate (h : compile limits d = .ok c) {params : List Float} {e : Evaluation}
    (length : params.length = d.params.length) (evaluated : c.evaluate params = .ok e) :
    e.value.isFinite ∧ e.ledger.params = params ∧
      List.Forall₂ (fun _ v => v.isFinite) d.intermediates e.ledger.intermediates := by
  obtain ⟨_, _, _, compiled, _, rfl⟩ := parts_of_compile h
  rw [evaluate_of_length length] at evaluated
  obtain ⟨l, filled, evaluated⟩ := bind_eq_ok.mp evaluated
  obtain ⟨vs, rfl, finite⟩ := exists_values_of_runSteps compiled filled
  obtain ⟨v, ran, rfl⟩ := map_eq_ok.mp evaluated
  exact ⟨isFinite_of_run (ok_of_mapError ran), rfl, finite⟩

end
end BuildingCode.Formula

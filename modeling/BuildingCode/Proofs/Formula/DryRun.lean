import BuildingCode.Proofs.Formula.Authoring

/-! A dry run authors a draft under an id of its own and evaluates what comes out. Ids have no part
in either, so it says what the draft does under whatever id it is stored. -/
namespace BuildingCode.Formula
open Expression Outcome

def AuthoringFault.IsOfDraft : AuthoringFault → Prop
  | .invalidValues _ | .evaluation _ => False
  | _ => True

def Compiled.withId (c : Compiled) (id : String) : Compiled :=
  { c with definition := { c.definition with id } }

def Compiled.trial (c : Compiled) (values : Values) : Except AuthoringFault Float := do
  let bound ← (bindAll c.definition.params values).mapError .invalidValues
  let e ← (c.evaluate bound).mapError .evaluation
  return e.value

section
variable {limits : Limits} {d : Draft} {id : String} {c : Compiled} {values : Values}

theorem compile_withId (limits : Limits) (d : Definition) (id : String) :
    compile limits { d with id } = (compile limits d).map (·.withId id) := by
  simp only [compile, map_bind]
  rfl

theorem prepare_withId (limits : Limits) (d : Draft) (id id' : String) :
    d.prepare limits id' = (d.prepare limits id).map (·.withId id') := by
  have compiled : compile limits (d.definition id') =
      (compile limits (d.definition id)).map (·.withId id') :=
    compile_withId limits (d.definition id) id'
  simp only [Draft.prepare, map_bind]
  refine bind_congr fun _ => bind_congr fun _ => bind_congr fun _ => ?_
  rw [compiled]
  split
  · rfl
  · split
    · rfl
    · cases compile limits (d.definition id) <;> rfl

theorem isOfDraft_of_requireText {name text : String} {fault : AuthoringFault}
    (h : requireText name text = .error fault) : fault.IsOfDraft := by
  unfold requireText at h
  split at h <;> cases h
  trivial

theorem isOfDraft_of_prepare {fault : AuthoringFault} (h : d.prepare limits id = .error fault) :
    fault.IsOfDraft := by
  simp only [Draft.prepare, bind_eq_error] at h
  rcases h with blank | ⟨_, _, blank | ⟨_, _, blank | ⟨_, _, h⟩⟩⟩
  · exact isOfDraft_of_requireText blank
  · exact isOfDraft_of_requireText blank
  · exact isOfDraft_of_requireText blank
  · split at h
    · cases h
      trivial
    · split at h
      · cases h
        trivial
      · obtain ⟨cause, rfl⟩ := told_of_mapError h
        trivial

theorem not_isOfDraft_of_trial {fault : AuthoringFault} (h : c.trial values = .error fault) :
    ¬fault.IsOfDraft := by
  rcases bind_eq_error.mp h with unbound | ⟨_, _, h⟩
  · obtain ⟨vs, rfl⟩ := told_of_mapError unbound
    exact id
  · rcases bind_eq_error.mp h with failed | ⟨_, _, h⟩
    · obtain ⟨cause, rfl⟩ := told_of_mapError failed
      exact id
    · cases h

theorem dryRun_of_prepare (h : d.prepare limits id = .ok c) :
    d.dryRun limits values = c.trial values := by
  rw [Draft.dryRun, prepare_withId limits d id, h]
  rfl

theorem prepare_eq_error_iff {fault : AuthoringFault} (id : String) (values : Values) :
    d.prepare limits id = .error fault ↔
      fault.IsOfDraft ∧ d.dryRun limits values = .error fault := by
  constructor
  · intro h
    refine ⟨isOfDraft_of_prepare h, ?_⟩
    rw [Draft.dryRun, prepare_withId limits d id, h]
    rfl
  · rintro ⟨ofDraft, h⟩
    cases prepared : d.prepare limits id with
    | ok c =>
      rw [dryRun_of_prepare prepared] at h
      exact absurd ofDraft (not_isOfDraft_of_trial h)
    | error cause =>
      rw [Draft.dryRun, prepare_withId limits d id, prepared] at h
      cases h
      rfl

end
end BuildingCode.Formula

import Std.Data.TreeMap
import BuildingCode.Formula.Authoring
import BuildingCode.Store.Record

/-! The store of custom formulas. Whatever is written has passed authoring under the limits of the
store, so everything in it compiles and its texts are trimmed. -/
namespace BuildingCode.Store
open Formula Expression

inductive StoreFault where
  | notFound (id : String)
  | duplicate (id : String)
  | invalid (fault : AuthoringFault)
  | unavailable (reason : String)
deriving DecidableEq

def StoreFault.message : StoreFault → String
  | .notFound id => s!"Formula '{id}' not found"
  | .duplicate id => s!"Formula '{id}' already exists"
  | .invalid fault => s!"Invalid formula: {fault.message}"
  | .unavailable reason => s!"Store unavailable: {reason}"

structure FormulaStore where
  limits : Limits
  records : Std.TreeMap String CustomFormula := ∅

namespace FormulaStore

def get? (s : FormulaStore) (id : String) : Option CustomFormula := s.records[id]?

def put (s : FormulaStore) (r : CustomFormula) : FormulaStore :=
  { s with records := s.records.insert r.id r }

def author (s : FormulaStore) (id scope : String) (isActive : Bool) (d : Draft) :
    Except StoreFault CustomFormula := do
  let compiled ← (d.prepare s.limits id).mapError .invalid
  return ⟨compiled.definition, scope, isActive⟩

/-- Stores a draft as an active formula under an id that the caller has made fresh. -/
def create (s : FormulaStore) (id scope : String) (d : Draft) :
    Except StoreFault (CustomFormula × FormulaStore) := do
  let r ← s.author id scope true d
  return (r, s.put r)

/-- Stores a record from elsewhere, authored once more, unless its id is taken. -/
def insert (s : FormulaStore) (r : CustomFormula) : Except StoreFault FormulaStore := do
  let r ← s.author r.id r.scope r.isActive r.definition.draft
  if (s.get? r.id).isSome then throw (.duplicate r.id)
  return s.put r

/-- Replaces what a formula says. Its id, scope and activity stay. -/
def update (s : FormulaStore) (id : String) (d : Draft) :
    Except StoreFault (CustomFormula × FormulaStore) := do
  let compiled ← (d.prepare s.limits id).mapError .invalid
  match s.get? id with
  | none => throw (.notFound id)
  | some old =>
    let r : CustomFormula := ⟨compiled.definition, old.scope, old.isActive⟩
    return (r, s.put r)

def deactivate (s : FormulaStore) (id : String) : Except StoreFault FormulaStore :=
  match s.get? id with
  | none => .error (.notFound id)
  | some r => .ok { s with records := s.records.insert id { r with isActive := false } }

end FormulaStore

def CustomFormula.precedes (a b : CustomFormula) : Bool :=
  ((compare a.title b.title).then (compare a.id b.id)).isLE

def FormulaStore.active (s : FormulaStore) (scope : String) : List CustomFormula :=
  (s.records.values.filter fun r => r.isActive && r.scope == scope).mergeSort
    CustomFormula.precedes

end BuildingCode.Store

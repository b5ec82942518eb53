import BuildingCode.Formula.Wire

/-! Custom formulas as they are stored: a definition that belongs to the scope of one document.
Formulas are never deleted; a formula that is no longer used becomes inactive. -/
namespace BuildingCode.Store
open Formula Json

structure CustomFormula where
  definition : Definition
  scope : String
  isActive : Bool
deriving DecidableEq

namespace CustomFormula

def id (r : CustomFormula) : String := r.definition.id

def title (r : CustomFormula) : String := r.definition.title

def encode (r : CustomFormula) : Json :=
  record (("id", some (.text r.id)) :: ("scope", some (.text r.scope)) ::
    r.definition.fields ++ [("isActive", some (.bool r.isActive))])

def decode (j : Json) : Option CustomFormula := do
  match (← slots ([["id"], ["scope"]] ++ Definition.fieldNames ++ [["isActive"]]) j).values with
  | id :: scope :: rest =>
    let definition ← Definition.ofSlots (← required asText id) rest.dropLast
    return ⟨definition, ← required asText scope, ← required asBool (rest.getLast?.getD none)⟩
  | _ => none

end CustomFormula
end BuildingCode.Store

import BuildingCode.Json.Value

/-! Records in documents. A record is written as an object, in any field order and with unknown
fields passed over, or as a list of its fields in their fixed order. -/
namespace BuildingCode.Json

structure Slots where
  positional : Bool
  values : List (Option Json)

def single (fields : List (String × Json)) (names : List String) : Option (Option Json) :=
  match fields.filter fun f => names.contains f.1 with
  | [] => some none
  | [(_, value)] => some (some value)
  | _ => none

def slots (names : List (List String)) : Json → Option Slots
  | .object fields => (names.mapM (single fields)).map (⟨false, ·⟩)
  | .list items =>
    if items.length ≤ names.length then
      some ⟨true, items.map some ++ List.replicate (names.length - items.length) none⟩
    else none
  | _ => none

def required (read : Json → Option α) (slot : Option Json) : Option α := slot.bind read

def defaulted (fallback : α) (read : Json → Option α) : Option Json → Option α
  | none => some fallback
  | some j => read j

def nullable (read : Json → Option α) : Option Json → Option (Option α)
  | none | some .null => some none
  | some j => (read j).map some

def record (fields : List (String × Option Json)) : Json :=
  .object (fields.filterMap fun (name, value) => value.map (name, ·))

end BuildingCode.Json

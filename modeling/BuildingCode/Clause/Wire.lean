import BuildingCode.Clause.Forest
import BuildingCode.Json.Fields
import BuildingCode.Json.Reader
import BuildingCode.Json.Writer

/-! Clauses in documents: numbers as texts, records and whole forests as objects. A clause without
a parent says so with null. -/
namespace BuildingCode.Clause
open Json

/-- Documents hold numbers under the default bound; nothing but a text is one. -/
def decodeId (j : Json) : Option (Except ClauseFault ClauseId) :=
  j.asText.map (ClauseId.parse defaultTopSegment)

def encodeId (id : ClauseId) : Json := .text id.text

def encodeParent : Option String → Json
  | some p => .text p
  | none => .null

def Record.fields (r : Record) : List (String × Json) :=
  [("id", .text r.id), ("parentId", encodeParent r.parent), ("title", .text r.title)]

def Record.encode (r : Record) : Json := .object r.fields

/-- The parent may be left out of an object, but not out of a list. -/
def decodeParent (positional : Bool) (slot : Option Json) : Option (Option String) :=
  if positional && slot.isNone then none else nullable asText slot

def Record.decode (j : Json) : Option Record := do
  let found ← slots [["id"], ["parentId"], ["title"]] j
  match found.values with
  | [id, parent, title] =>
    return ⟨← required asText id, ← decodeParent found.positional parent, ← required asText title⟩
  | _ => none

mutual
def Node.encode : Node → Json
  | .mk r cs => .object (r.fields ++ [("children", .list (Forest.encodeEach cs))])
def Forest.encodeEach : Forest → List Json
  | [] => []
  | n :: ns => n.encode :: Forest.encodeEach ns
end

def Forest.encode (f : Forest) : Json := .list (Forest.encodeEach f)

def decodeNode : (levels : Nat) → Json → Option Node
  | 0, _ => none
  | levels + 1, j => do
    let found ← slots [["id"], ["parentId"], ["title"], ["children"]] j
    match found.values with
    | [id, parent, title, children] =>
      let r : Record :=
        ⟨← required asText id, ← decodeParent found.positional parent, ← required asText title⟩
      return .mk r (← required (asListOf (decodeNode levels)) children)
    | _ => none

def Forest.decode (j : Json) : Option Forest := asListOf (decodeNode j.height) j

def encodeRecords (rs : List Record) : Json := .list (rs.map Record.encode)

end BuildingCode.Clause

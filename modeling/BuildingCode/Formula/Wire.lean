import BuildingCode.Formula.Input
import BuildingCode.Json.Fields
import BuildingCode.Json.Reader
import BuildingCode.Json.Writer

/-! Formulas in documents. Absent options and empty lists of intermediates are left out. A draft
may come from a client that spells some of its fields differently. -/
namespace BuildingCode.Formula
open Json

def encodeText? (s : Option String) : Option Json := s.map .text

def encodeFloat? (x : Option Float) : Option Json := x.map Json.ofFloat

def encodeDigits? (n : Option UInt32) : Option Json := n.map fun n => Json.ofNat n.toNat

def decodeText? (slot : Option Json) : Option (Option String) := nullable asText slot

namespace Parameter

def encode (p : Parameter) : Json :=
  record [("name", some (.text p.name)), ("label", some (.text p.label)),
    ("unit", encodeText? p.unit), ("min", encodeFloat? p.min), ("max", encodeFloat? p.max),
    ("placeholder", encodeText? p.placeholder)]

def decode (j : Json) : Option Parameter := do
  match (← slots [["name"], ["label"], ["unit"], ["min"], ["max"], ["placeholder"]] j).values with
  | [name, label, unit, min, max, placeholder] =>
    return ⟨← required asText name, ← required asText label, ← decodeText? unit,
      ← nullable asFloat min, ← nullable asFloat max, ← decodeText? placeholder⟩
  | _ => none

end Parameter

namespace Intermediate

def encode (i : Intermediate) : Json :=
  record [("name", some (.text i.name)), ("label", some (.text i.label)),
    ("unit", encodeText? i.unit), ("expression", some (.text i.expression))]

def decode (j : Json) : Option Intermediate := do
  match (← slots [["name"], ["label"], ["unit"], ["expression"]] j).values with
  | [name, label, unit, expression] =>
    return ⟨← required asText name, ← required asText label, ← decodeText? unit,
      ← required asText expression⟩
  | _ => none

end Intermediate

def encodeParams (ps : List Parameter) : Json := .list (ps.map Parameter.encode)

def encodeIntermediates? : List Intermediate → Option Json
  | [] => none
  | is => some (.list (is.map Intermediate.encode))

def decodeParams : Json → Option (List Parameter) := asListOf Parameter.decode

def decodeIntermediates : Json → Option (List Intermediate) := asListOf Intermediate.decode

namespace Definition

def fields (d : Definition) : List (String × Option Json) :=
  [("title", some (.text d.title)), ("description", encodeText? d.description),
    ("displayExpression", some (.text d.displayExpression)),
    ("params", some (encodeParams d.params)),
    ("intermediates", encodeIntermediates? d.intermediates),
    ("expression", some (.text d.expression)), ("resultLabel", some (.text d.resultLabel)),
    ("resultUnit", encodeText? d.resultUnit), ("resultDigits", encodeDigits? d.resultDigits)]

def encode (d : Definition) : Json := record (("id", some (.text d.id)) :: d.fields)

def fieldNames : List (List String) :=
  [["title"], ["description"], ["displayExpression"], ["params"], ["intermediates"],
    ["expression"], ["resultLabel"], ["resultUnit"], ["resultDigits"]]

def ofSlots (id : String) : List (Option Json) → Option Definition
  | [title, description, displayExpression, params, intermediates, expression, resultLabel,
      resultUnit, resultDigits] => do
    return {
      id
      title := ← required asText title
      description := ← decodeText? description
      displayExpression := ← required asText displayExpression
      params := ← required decodeParams params
      intermediates := ← defaulted [] decodeIntermediates intermediates
      expression := ← required asText expression
      resultLabel := ← required asText resultLabel
      resultUnit := ← decodeText? resultUnit
      resultDigits := ← nullable asWord resultDigits }
  | _ => none

def decode (j : Json) : Option Definition := do
  match (← slots (["id"] :: fieldNames) j).values with
  | id :: rest => ofSlots (← required asText id) rest
  | [] => none

end Definition

namespace Draft

def encode (d : Draft) : Json :=
  record [("title", some (.text d.title)), ("description", encodeText? d.description),
    ("displayExpression", some (.text d.displayExpression)),
    ("params", some (encodeParams d.params)),
    ("intermediates", encodeIntermediates? d.intermediates),
    ("expression", some (.text d.expression)), ("resultLabel", encodeText? d.resultLabel),
    ("resultUnit", encodeText? d.resultUnit), ("resultDigits", encodeDigits? d.resultDigits)]

def fieldNames : List (List String) :=
  [["title"], ["description"], ["displayExpression", "latex", "display_expression"], ["params"],
    ["intermediates"], ["expression"], ["resultLabel", "result_label"],
    ["resultUnit", "result_unit"], ["resultDigits", "result_digits"]]

def decode (j : Json) : Option Draft := do
  match (← slots fieldNames j).values with
  | [title, description, displayExpression, params, intermediates, expression, resultLabel,
      resultUnit, resultDigits] =>
    return {
      title := ← defaulted "" asText title
      description := ← decodeText? description
      displayExpression := ← defaulted "" asText displayExpression
      params := ← defaulted [] decodeParams params
      intermediates := ← defaulted [] decodeIntermediates intermediates
      expression := ← defaulted "" asText expression
      resultLabel := ← decodeText? resultLabel
      resultUnit := ← decodeText? resultUnit
      resultDigits := ← nullable asWord resultDigits }
  | _ => none

end Draft

namespace RawValue

def encode : RawValue → Json
  | .number x => Json.ofFloat x
  | .text s => .text s

def decode : Json → Option RawValue
  | .text s => some (.text s)
  | .number n => (numeralValue n).map .number
  | _ => none

end RawValue

def Values.encode (vs : Values) : Json := .object (vs.map fun (name, v) => (name, v.encode))

def Values.decode : Json → Option Values
  | .object fields => fields.mapM fun (name, j) => (RawValue.decode j).map (name, ·)
  | _ => none

end BuildingCode.Formula

import BuildingCode.Clause.Id

/-! The order of clause labels as they come out of storage. A stray label must not break a table
of contents, so malformed ones are ordered as well: after all numbers, as plain text. -/
namespace BuildingCode.Clause

def number? (label : String) : Option ClauseId :=
  (ClauseId.parse 0xFFFFFFFF label).toOption

def compareLabels (a b : String) : Ordering :=
  match number? a, number? b with
  | some x, some y => x.order y
  | some _, none => .lt
  | none, some _ => .gt
  | none, none => compare a b

def sortLabels (labels : List String) : List String :=
  labels.mergeSort fun a b => (compareLabels a b).isLE

end BuildingCode.Clause

import BuildingCode.Json.Token

/-! Reading a document: a machine over its tokens with the open lists and objects on a stack.
It has no bound on nesting and needs none, since each step takes one token. -/
namespace BuildingCode.Json

inductive Open where
  | list (items : List Json)
  /-- `readable` is lost when a field name has no meaning. -/
  | object (fields : List (String × Json)) (readable : Bool) (name : String)

inductive Awaiting where
  | value
  | itemOrEnd
  | nameOrEnd
  | name
  | colon
  | commaOrEnd
  | nothing (document : Json)

structure Machine where
  stack : List Open
  awaiting : Awaiting

def Machine.start : Machine := ⟨[], .value⟩

def Machine.put (j : Json) : List Open → Machine
  | [] => ⟨[], .nothing j⟩
  | .list items :: rest => ⟨.list (j :: items) :: rest, .commaOrEnd⟩
  | .object fields readable name :: rest =>
    ⟨.object ((name, j) :: fields) readable name :: rest, .commaOrEnd⟩

def Machine.close (list : Bool) : List Open → Option Machine
  | .list items :: rest => if list then some (put (.list items.reverse) rest) else none
  | .object fields readable _ :: rest =>
    if list then none
    else some (put (if readable then .object fields.reverse else .unreadable) rest)
  | [] => none

def Machine.beginValue (stack : List Open) : Token → Option Machine
  | .openList => some ⟨.list [] :: stack, .itemOrEnd⟩
  | .openObject => some ⟨.object [] true "" :: stack, .nameOrEnd⟩
  | .null => some (put .null stack)
  | .bool b => some (put (.bool b) stack)
  | .number n => some (put (.number n) stack)
  | .text (some s) => some (put (.text s) stack)
  | .text none => some (put .unreadable stack)
  | _ => none

def Machine.beginField : List Open → Option String → Option Machine
  | .object fields readable _ :: rest, some s => some ⟨.object fields readable s :: rest, .colon⟩
  | .object fields _ _ :: rest, none => some ⟨.object fields false "" :: rest, .colon⟩
  | _, _ => none

def Machine.step (m : Machine) (t : Token) : Option Machine :=
  match m.awaiting, t with
  | .value, t => beginValue m.stack t
  | .itemOrEnd, .closeList => close true m.stack
  | .itemOrEnd, t => beginValue m.stack t
  | .nameOrEnd, .closeObject => close false m.stack
  | .nameOrEnd, .text s => beginField m.stack s
  | .name, .text s => beginField m.stack s
  | .colon, .colon => some ⟨m.stack, .value⟩
  | .commaOrEnd, .comma =>
    match m.stack with
    | .list _ :: _ => some ⟨m.stack, .value⟩
    | .object .. :: _ => some ⟨m.stack, .name⟩
    | [] => none
  | .commaOrEnd, .closeList => close true m.stack
  | .commaOrEnd, .closeObject => close false m.stack
  | _, _ => none

def Machine.run (m : Machine) : List Token → Option Machine
  | [] => some m
  | t :: ts => match m.step t with
    | some m => m.run ts
    | none => none

def Machine.document (m : Machine) : Option Json :=
  match m.awaiting with
  | .nothing j => some j
  | _ => none

def parseChars (cs : List Char) : Option Json := do
  (← Machine.start.run (← scan 0 cs)).document

def parse (s : String) : Option Json := parseChars s.toList

end BuildingCode.Json

import BuildingCode.Formula.Definition
import BuildingCode.Formula.Violation
import BuildingCode.Number.Reading

/-! Values as clients enter them: numbers, or text that writes one. Nothing is evaluated before
every parameter has a finite number within its bounds. -/
namespace BuildingCode.Formula
open Number

inductive RawValue where
  | number (x : Float)
  | text (s : String)
deriving DecidableEq

/-- Entered values by name. Of two values under one name the last counts. -/
abbrev Values := List (String × RawValue)

def Values.get? (vs : Values) (name : String) : Option RawValue := vs.reverse.lookup name

def commaToPoint : List Char → List Char
  | [] => []
  | ',' :: cs => '.' :: cs
  | c :: cs => c :: commaToPoint cs

def parseNumber (s : String) : Option Float :=
  (ofText (String.ofList (commaToPoint (Text.trimmed s.toList)))).filter Float.isFinite

def checkBounds (label : String) (min max : Option Float) (x : Float) : Except Rule Float :=
  match min.filter (x < ·), max.filter (· < x) with
  | some low, _ => .error (.belowMinimum label low)
  | none, some high => .error (.aboveMaximum label high)
  | none, none => .ok x

def RawValue.number? : RawValue → Option Float
  | .number x => if x.isFinite then some x else none
  | .text s => parseNumber s

def checkValue (label : String) (min max : Option Float) (raw : Option RawValue) :
    Except Rule Float :=
  match raw.bind RawValue.number? with
  | some x => checkBounds label min max x
  | none => .error (.notANumber label)

def Parameter.bind (p : Parameter) (values : Values) : Except Violation Float :=
  match checkValue p.label p.min p.max (values.get? p.name) with
  | .ok x => .ok x
  | .error rule => .error ⟨p.name, rule⟩

/-- The values of all parameters in their order, or a violation for each that has none. -/
def bindAll (params : List Parameter) (values : Values) : Except (List Violation) (List Float) :=
  let outcomes := params.map (·.bind values)
  match outcomes.filterMap fun o => match o with | .error v => some v | .ok _ => none with
  | [] => .ok (outcomes.filterMap Except.toOption)
  | vs => .error vs

end BuildingCode.Formula

import BuildingCode.Display.Rounding
import BuildingCode.Number.Layout

/-! A calculation in readable lines: the formula, the result and every step that led to it. -/
namespace BuildingCode.Display
open Formula Number Service

def stepLine (digits : UInt32) (s : Step) : String :=
  let value := plainText (roundFor digits s.value)
  match s.unit with
  | some unit => s!"{s.label} = {value} {unit}"
  | none => s!"{s.label} = {value}"

def stepLines (digits : UInt32) : List Step → List String
  | [] => []
  | [s] => ["\x60-- " ++ stepLine digits s]
  | s :: rest => ("|-- " ++ stepLine digits s) :: stepLines digits rest

def headerLines (d : Definition) : List String :=
  [s!"CALCULATION TRACE for '{d.id}' ({d.title}):",
    "--------------------------------------------------",
    s!"Formula: {d.displayExpression}"] ++
    d.intermediates.map (fun i => s!"  {i.name} = {i.expression}") ++
    [s!"  {d.resultLabel} = {d.expression}", ""]

def traceLines (d : Definition) (r : Result) (digits : UInt32) : List String :=
  headerLines d ++ [stepLine (d.resultDigits.getD digits) r.result] ++ stepLines digits r.steps

def trace (d : Definition) (r : Result) (digits : UInt32) : String :=
  String.join ((traceLines d r digits).map (· ++ "\n"))

end BuildingCode.Display

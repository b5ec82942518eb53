import BuildingCode.Expression.Vocabulary
import BuildingCode.Formula.Definition
import BuildingCode.Formula.Violation
import BuildingCode.Text.Space

/-! The rules for declarations. They are checked when a formula is authored, all of them. -/
namespace BuildingCode.Formula

def isIdentifier (name : String) : Bool :=
  match name.toList with
  | [] => false
  | c :: cs => (Text.isLetter c || c == '_') && cs.all Text.isWordChar

def nameRule? (name : String) : Option Rule :=
  if !isIdentifier name then some (.invalidName name)
  else if Expression.isReserved name then some (.reservedName name)
  else none

/-- The faults of one declaration after those that bear the names in `seen`. -/
def declarationRules (seen : List String) (name label : String) : List Rule :=
  (match nameRule? name with
    | some r => [r]
    | none => if name ∈ seen then [.duplicateName name] else []) ++
  if Text.isBlank label then [.missingLabel name] else []

def declarationsFrom (seen : List String) : List (String × String) → List Violation
  | [] => []
  | (name, label) :: rest =>
    (declarationRules seen name label).map (⟨name, ·⟩) ++ declarationsFrom (name :: seen) rest

def Parameter.boundsViolation? (p : Parameter) : Option Violation :=
  match p.min, p.max with
  | some low, some high => if high < low then some ⟨p.name, .invertedBounds p.label low high⟩ else none
  | _, _ => none

def declarationViolations (params : List Parameter) (intermediates : List Intermediate) :
    List Violation :=
  declarationsFrom [] (params.map (fun p => (p.name, p.label)) ++
    intermediates.map fun i => (i.name, i.label)) ++ params.filterMap Parameter.boundsViolation?

end BuildingCode.Formula

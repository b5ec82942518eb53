import BuildingCode.Formula.Authoring
import BuildingCode.Formula.Wire

/-! Formulas that a text generator writes. Its answer may wrap the object in prose; the object is
what stands between the first opening and the last closing brace. -/
namespace BuildingCode.Formula
open Expression

def upToLastBrace (cs : List Char) : List Char :=
  (cs.reverse.dropWhile (· != '\x7d')).reverse

def bracedPart (text : String) : Option String :=
  match upToLastBrace (text.toList.dropWhile (· != '\x7b')) with
  | [] => none
  | cs => some (String.ofList cs)

def Draft.ofProse (text : String) : Except AuthoringFault Draft := do
  let some part := bracedPart text | throw .noObject
  let some d := (Json.parse part).bind Draft.decode | throw .malformedObject
  requireText "title" d.title
  requireText "latex" d.displayExpression
  requireText "expression" d.expression
  return d

/-- Asks the generator once, with the trimmed prompt, and accepts only what could be stored. Asking may
have effects of its own. -/
def Draft.generate {m : Type → Type} [Monad m] [MonadExcept AuthoringFault m] (limits : Limits)
    (ask : String → m String) (prompt : String) : m Draft := do
  let prompt := Text.trim prompt
  MonadExcept.ofExcept (requireText "prompt" prompt)
  let text ← ask prompt
  let d ← MonadExcept.ofExcept (Draft.ofProse text)
  let _ ← MonadExcept.ofExcept (d.prepare limits "generated")
  return d

end BuildingCode.Formula

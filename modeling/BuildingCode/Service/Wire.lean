import BuildingCode.Display.Rounding
import BuildingCode.Service.Basic

/-! The service in documents: a body holds one request or a list of them, and each is answered by
one response with rounded values or with a word for what went wrong. -/
namespace BuildingCode.Service
open Formula Json Store

namespace Request

def encode (r : Request) : Json :=
  record [("blockId", some (.text r.blockId)), ("values", some r.values.encode),
    ("scope", encodeText? r.scope)]

def decode (j : Json) : Option Request := do
  match (← slots [["blockId"], ["values"], ["scope", "spCode"]] j).values with
  | [blockId, values, scope] =>
    return ⟨← defaulted "" asText blockId, ← defaulted [] Values.decode values,
      ← decodeText? scope⟩
  | _ => none

def isRunnable (r : Request) : Bool := !Text.isBlank r.blockId

end Request

def Step.encode (s : Step) : Json :=
  record [("label", some (.text s.label)), ("value", some (Json.ofFloat s.value)),
    ("unit", encodeText? s.unit)]

def Result.encode (r : Result) : Json :=
  .object [("result", Step.encode r.result), ("steps", .list (r.steps.map Step.encode))]

inductive Response where
  | success (result : Result)
  | failure (code : String) (messages : List String)
deriving DecidableEq

namespace Response

def invalidBody : Response := failure "invalid_json" ["the body is not a compute request"]

def blockIdRequired : Response := failure "block_id_required" []

def ofOutcome (digits : UInt32) : Except ComputeFault Result → Response
  | .ok r => success (r.rounded digits)
  | .error fault => failure fault.code fault.messages

def encode : Response → Json
  | success r => .object [("ok", .bool true), ("result", r.encode)]
  | failure code messages =>
    record [("ok", some (.bool false)), ("error", some (.text code)),
      ("messages", if messages.isEmpty then none else some (.list (messages.map .text)))]

end Response

def respond (s : Service) (digits : UInt32) (r : Request) : Response × Service :=
  if r.isRunnable then
    let (outcome, s) := s.compute r
    (.ofOutcome digits outcome, s)
  else (.blockIdRequired, s)

def answerBody (s : Service) (body : String) (digits : UInt32) : Response × Service :=
  match (Json.parse body).bind Request.decode with
  | none => (.invalidBody, s)
  | some r => s.respond digits r

/-- Gives each request its outcome; those that cannot run have none. -/
def pairOutcomes (digits : UInt32) :
    List Request → List (Except ComputeFault Result) → List Response
  | [], _ => []
  | r :: rs, outcomes =>
    if r.isRunnable then
      match outcomes with
      | outcome :: outcomes => .ofOutcome digits outcome :: pairOutcomes digits rs outcomes
      | [] => .blockIdRequired :: pairOutcomes digits rs []
    else .blockIdRequired :: pairOutcomes digits rs outcomes

def answerBatch (s : Service) (body : String) (digits : UInt32) : List Response × Service :=
  match (Json.parse body).bind (asListOf Request.decode) with
  | none => ([.invalidBody], s)
  | some rs =>
    let (outcomes, s) := s.computeBatch (rs.filter Request.isRunnable)
    (pairOutcomes digits rs outcomes, s)

end BuildingCode.Service

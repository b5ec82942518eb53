import BuildingCode.Display.Rounding
import BuildingCode.Expression.Limits
import BuildingCode.Clause.Id
import BuildingCode.Formula.Authoring
import BuildingCode.Json.Fields
import BuildingCode.Json.Reader

/-! The configuration of a service, read from a document. Every field has a default, so an empty
object is a whole configuration. -/
namespace BuildingCode
open Expression Json

structure Config where
  limits : Limits := {}
  maxTopSegment : UInt32 := defaultTopSegment
  displayDigits : UInt32 := Display.defaultDigits
  cacheSeconds : Nat := 300
deriving DecidableEq

inductive ConfigFault where
  | unreadable
  | malformed
  | limit (fault : LimitFault)
  | noTopSegment
  | displayDigits (digits : UInt32)
deriving DecidableEq

def ConfigFault.message : ConfigFault → String
  | .unreadable => "Failed to read config"
  | .malformed => "Failed to parse config"
  | .limit f => s!"Invalid config: limits.{f.name} must be between 1 and {f.ceiling}, got {f.value}"
  | .noTopSegment => "Invalid config: maxTopSegment must be at least 1"
  | .displayDigits digits =>
    s!"Invalid config: displayDigits must be at most {Formula.maxDisplayDigits}, got {digits}"

namespace Expression.Limits

def encode (l : Limits) : Json :=
  .object [("maxLength", .ofNat l.length), ("maxDepth", .ofNat l.depth),
    ("maxNodes", .ofNat l.nodes), ("maxSteps", .ofNat l.steps)]

def decode (j : Json) : Option Limits := do
  match (← slots [["maxLength"], ["maxDepth"], ["maxNodes"], ["maxSteps"]] j).values with
  | [length, depth, nodes, steps] =>
    let initial : Limits := {}
    return ⟨← defaulted initial.length (asNat UInt64.size) length,
      ← defaulted initial.depth (asNat UInt64.size) depth,
      ← defaulted initial.nodes (asNat UInt64.size) nodes,
      ← defaulted initial.steps (asNat UInt64.size) steps⟩
  | _ => none

end Expression.Limits

namespace Config

def encode (c : Config) : Json :=
  .object [("limits", c.limits.encode), ("maxTopSegment", .ofNat c.maxTopSegment.toNat),
    ("displayDigits", .ofNat c.displayDigits.toNat), ("cacheTtlSecs", .ofNat c.cacheSeconds)]

def decode (j : Json) : Option Config := do
  match (← slots [["limits"], ["maxTopSegment"], ["displayDigits"], ["cacheTtlSecs"]] j).values with
  | [limits, maxTopSegment, displayDigits, cacheSeconds] =>
    let initial : Config := {}
    return ⟨← defaulted initial.limits Limits.decode limits,
      ← defaulted initial.maxTopSegment asWord maxTopSegment,
      ← defaulted initial.displayDigits asWord displayDigits,
      ← defaulted initial.cacheSeconds (asNat UInt64.size) cacheSeconds⟩
  | _ => none

def fault? (c : Config) : Option ConfigFault :=
  match c.limits.fault? with
  | some f => some (.limit f)
  | none =>
    if c.maxTopSegment = 0 then some .noTopSegment
    else if Formula.maxDisplayDigits < c.displayDigits then some (.displayDigits c.displayDigits)
    else none

def ofFile (text : Option String) : Except ConfigFault Config := do
  let some text := text | throw .unreadable
  let some c := (Json.parse text).bind decode | throw .malformed
  match c.fault? with
  | some f => throw f
  | none => return c

end Config
end BuildingCode

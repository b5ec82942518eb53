import BuildingCode.Formula.Builtin
import BuildingCode.Service.Result
import BuildingCode.Store.Source

/-! The service: built-in formulas, compiled once, and behind them the custom formulas of a scope.
A built-in id is never looked up anywhere else. -/
namespace BuildingCode
open Formula Store Expression

structure Service where
  builtins : List Compiled
  cache : Option Cache
  source : Source

namespace Service

structure Request where
  blockId : String := ""
  values : Values := []
  scope : Option String := none
deriving DecidableEq

def compileBuiltins (limits : Limits) : Except CompileFault (List Compiled) :=
  builtinDefinitions.mapM (compile limits)

def builtin? (s : Service) (id : String) : Option Compiled :=
  s.builtins.find? (·.definition.id == id)

def cached (s : Service) (scope id : String) :
    Option (Except StoreFault (Option Entry)) × Service :=
  match s.cache with
  | none => (none, s)
  | some c =>
    let (found, c, source) := c.get s.source scope id
    (some found, { s with cache := some c, source })

/-- Finds a formula, a custom one only within a scope. A source that fails has found nothing. -/
def resolve (s : Service) (id : String) (scope : Option String) : Option Entry × Service :=
  match s.builtin? id, scope with
  | some c, _ => (some (.ok c), s)
  | none, none => (none, s)
  | none, some scope =>
    match s.cached scope id with
    | (some (.ok found), s) => (found, s)
    | (_, s) => (none, s)

/-- Finds the formula that a request names. Blanks around id and scope do not count. -/
def formulaFor (s : Service) (r : Request) : Except ComputeFault Compiled × Service :=
  let id := Text.trim r.blockId
  match s.resolve id (Text.nonBlank r.scope) with
  | (some (.ok c), s) => (.ok c, s)
  | (some (.error fault), s) => (.error (.compilation fault), s)
  | (none, s) => (.error (.unknownFormula id), s)

def compute (s : Service) (r : Request) : Except ComputeFault Result × Service :=
  let (found, s) := s.formulaFor r
  (found >>= fun c => evaluate c r.values, s)

def formulasFor (s : Service) : List Request → List (Except ComputeFault Compiled) × Service
  | [] => ([], s)
  | r :: rs =>
    let (found, s) := s.formulaFor r
    let (more, s) := s.formulasFor rs
    (found :: more, s)

/-- Finds all formulas first and evaluates them afterwards. -/
def computeBatch (s : Service) (rs : List Request) : List (Except ComputeFault Result) × Service :=
  let (found, s) := s.formulasFor rs
  (List.zipWith (fun found r => found >>= fun c => evaluate c r.values) found rs, s)

end Service
end BuildingCode

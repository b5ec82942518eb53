import BuildingCode.Store.Basic

/-! Compiled custom formulas, kept by scope. A scope is loaded and compiled as a whole, also the
formulas that do not compile, and the source stays the authority. -/
namespace BuildingCode.Store
open Formula Expression

abbrev Entry := Except CompileFault Compiled

abbrev ScopeEntries := Std.TreeMap String Entry

/-- Of two records with one id the last counts. -/
def compileScope (limits : Limits) (records : List CustomFormula) : ScopeEntries :=
  records.foldl (fun entries r => entries.insert r.id (compile limits r.definition)) ∅

inductive Lifetime where
  | zero
  | endless
deriving DecidableEq

structure Cache where
  lifetime : Lifetime
  limits : Limits
  scopes : Std.TreeMap String ScopeEntries := ∅

namespace Cache

def fresh? (c : Cache) (scope : String) : Option ScopeEntries :=
  match c.lifetime with
  | .zero => none
  | .endless => c.scopes[scope]?

def keep (c : Cache) (scope : String) (entries : ScopeEntries) : Cache :=
  { c with scopes := c.scopes.insert scope entries }

def invalidate (c : Cache) (scope : String) : Cache := { c with scopes := c.scopes.erase scope }

def clear (c : Cache) : Cache := { c with scopes := ∅ }

end Cache
end BuildingCode.Store

import BuildingCode.Store.Cache

/-! Where the cache loads custom formulas from: the store, and behind it records that have never
been authored. Every load is counted, also one that fails. -/
namespace BuildingCode.Store

structure Source where
  store : FormulaStore
  /-- Records from elsewhere, listed whatever their activity. -/
  raw : List CustomFormula := []
  down : Bool := false
  loads : Nat := 0

def Source.listed (s : Source) (scope : String) : List CustomFormula :=
  s.store.active scope ++ s.raw.filter (·.scope == scope)

def Source.load (s : Source) (scope : String) :
    Except StoreFault (List CustomFormula) × Source :=
  (if s.down then .error (.unavailable "down") else .ok (s.listed scope),
    { s with loads := s.loads + 1 })

/-- Answers from the cache if it may, else loads the scope. A load that fails changes nothing but
the count. -/
def Cache.get (c : Cache) (s : Source) (scope id : String) :
    Except StoreFault (Option Entry) × Cache × Source :=
  match c.fresh? scope with
  | some entries => (.ok entries[id]?, c, s)
  | none =>
    match s.load scope with
    | (.error fault, s) => (.error fault, c, s)
    | (.ok records, s) =>
      let entries := compileScope c.limits records
      (.ok entries[id]?, c.keep scope entries, s)

end BuildingCode.Store

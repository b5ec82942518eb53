import BuildingCode.Store.Source

/-! Gets that run side by side. The map of the cache is locked only while a get looks at it or writes to
it, not while the source is asked. So a get is made of steps, and between two of them others may store
formulas, invalidate scopes and take steps of their own. -/
namespace BuildingCode.Store
open Expression

def Source.offer (s : Source) (limits : Limits) (scope : String) :
    Except StoreFault ScopeEntries :=
  (s.load scope).1.map (compileScope limits)

inductive Stage where
  | begun
  | missed
  | loaded (entries : ScopeEntries)
  | answered (answer : Except StoreFault (Option Entry))

structure Get where
  scope : String
  id : String
  stage : Stage

def Get.advance (g : Get) (c : Cache) (s : Source) : Stage × Cache × Source :=
  match g.stage with
  | .begun =>
    match c.fresh? g.scope with
    | some entries => (.answered (.ok entries[g.id]?), c, s)
    | none => (.missed, c, s)
  | .missed =>
    match s.offer c.limits g.scope with
    | .error fault => (.answered (.error fault), c, (s.load g.scope).2)
    | .ok entries => (.loaded entries, c, (s.load g.scope).2)
  | .loaded entries => (.answered (.ok entries[g.id]?), c.keep g.scope entries, s)
  | .answered answer => (.answered answer, c, s)

structure Traffic where
  cache : Cache
  source : Source
  gets : List Get := []

inductive Move where
  | start (scope id : String)
  | advance (get : Nat)
  /-- Formulas were written, or the source failed or came back: from now on it is another. -/
  | write (source : Source)
  | invalidate (scope : String)
  | clear

namespace Traffic

def step (t : Traffic) : Move → Traffic
  | .start scope id => { t with gets := t.gets ++ [⟨scope, id, .begun⟩] }
  | .advance n =>
    match t.gets[n]? with
    | none => t
    | some g =>
      let (stage, cache, source) := g.advance t.cache t.source
      ⟨cache, source, t.gets.set n { g with stage }⟩
  | .write source => { t with source }
  | .invalidate scope => { t with cache := t.cache.invalidate scope }
  | .clear => { t with cache := t.cache.clear }

def run (t : Traffic) : List Move → Traffic
  | [] => t
  | m :: ms => (t.step m).run ms

end Traffic
end BuildingCode.Store

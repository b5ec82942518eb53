import BuildingCode.Service.Wire

/-! A session: one service and what is done with it, event by event. Writes go to the store behind
the service, so the cache may answer from an older list until it is told. -/
namespace BuildingCode.Service
open Formula Store

inductive Event where
  /-- The id is one that no earlier event has used. -/
  | create (id scope : String) (draft : Draft)
  | insert (record : CustomFormula)
  | update (id : String) (draft : Draft)
  | deactivate (id : String)
  | get (id : String)
  | list (scope : String)
  /-- A record that skips authoring. -/
  | raw (record : CustomFormula)
  | down (value : Bool)
  | builtin (id : String)
  | resolve (id : String) (scope : Option String)
  | cached (scope id : String)
  | invalidate (scope : String)
  | clear
  | compute (request : Request)
  | request (body : String) (digits : UInt32)
  | batch (body : String) (digits : UInt32)

inductive Answer where
  | done
  | stored (record : CustomFormula)
  | found (record : Option CustomFormula)
  | listed (records : List CustomFormula)
  | entry (entry : Option Entry)
  | noCache
  | refused (fault : StoreFault)
  | computed (outcome : Except ComputeFault Result)
  | response (response : Response)
  | responses (responses : List Response)

def store (s : Service) : FormulaStore := s.source.store

def withStore (s : Service) (store : FormulaStore) : Service :=
  { s with source := { s.source with store } }

def written (s : Service) : Except StoreFault FormulaStore → Answer × Service
  | .ok store => (.done, s.withStore store)
  | .error fault => (.refused fault, s)

def writtenRecord (s : Service) : Except StoreFault (CustomFormula × FormulaStore) → Answer × Service
  | .ok (r, store) => (.stored r, s.withStore store)
  | .error fault => (.refused fault, s)

def step (s : Service) : Event → Answer × Service
  | .create id scope draft => s.writtenRecord (s.store.create id scope draft)
  | .insert r => s.written (s.store.insert r)
  | .update id draft => s.writtenRecord (s.store.update id draft)
  | .deactivate id => s.written (s.store.deactivate id)
  | .get id => (.found (s.store.get? id), s)
  | .list scope => (.listed (s.store.active scope), s)
  | .raw r => (.done, { s with source := { s.source with raw := s.source.raw ++ [r] } })
  | .down value => (.done, { s with source := { s.source with down := value } })
  | .builtin id => (.entry ((s.builtin? id).map .ok), s)
  | .resolve id scope =>
    let (found, s) := s.resolve id scope
    (.entry found, s)
  | .cached scope id =>
    match s.cached scope id with
    | (none, s) => (.noCache, s)
    | (some (.ok found), s) => (.entry found, s)
    | (some (.error fault), s) => (.refused fault, s)
  | .invalidate scope => (.done, { s with cache := s.cache.map (·.invalidate scope) })
  | .clear => (.done, { s with cache := s.cache.map Cache.clear })
  | .compute r =>
    let (outcome, s) := s.compute r
    (.computed outcome, s)
  | .request body digits =>
    let (r, s) := s.answerBody body digits
    (.response r, s)
  | .batch body digits =>
    let (rs, s) := s.answerBatch body digits
    (.responses rs, s)

def run (s : Service) : List Event → List Answer × Service
  | [] => ([], s)
  | e :: es =>
    let (a, s) := s.step e
    let (answers, s) := s.run es
    (a :: answers, s)

end BuildingCode.Service

import BuildingCode.Clause.Loop
import BuildingCode.Text.Quoted

/-! Assembling flat records into a forest. The walk goes down from the roots and meets every
malformation that it can reach; records that it never reaches are accounted for afterwards. -/
namespace BuildingCode.Clause

inductive AssemblyError where
  | cycleDetected (ids : List String)
  | duplicateId (id : String)
  | danglingParent (id parent : String)
deriving DecidableEq

def AssemblyError.message : AssemblyError → String
  | .cycleDetected ids => s!"Cycle detected among clauses {Text.quotedList ids}"
  | .duplicateId id => s!"Clause '{id}' appears more than once in the tree"
  | .danglingParent id parent => s!"Clause '{id}' references missing parent '{parent}'"

abbrev Entered := Std.TreeSet String

def growAll (grow : Record → Entered → Except AssemblyError (Node × Entered)) :
    List Record → Entered → Except AssemblyError (Forest × Entered)
  | [], seen => .ok ([], seen)
  | r :: rs, seen => do
    let (node, seen) ← grow r seen
    let (nodes, seen) ← growAll grow rs seen
    return (node :: nodes, seen)

def loopFrom (path : List String) (id : String) : List String :=
  path.reverse.dropWhile (· ≠ id)

/-- Enters a record below `path` and grows everything under it. An id is entered once, so no path
is longer than the number of records and `levels` is never used up. -/
def grow (children : String → List Record) : (levels : Nat) → (path : List String) →
    Record → Entered → Except AssemblyError (Node × Entered)
  | 0, path, r, _ => .error (.cycleDetected (loopFrom path r.id))
  | levels + 1, path, r, seen =>
    if seen.contains r.id then
      if r.id ∈ path then .error (.cycleDetected (loopFrom path r.id))
      else .error (.duplicateId r.id)
    else do
      let (nodes, seen) ←
        growAll (grow children levels (r.id :: path)) (children r.id) (seen.insert r.id)
      return (.mk r nodes, seen)

def isReached (root : Option String) (seen : Entered) (r : Record) : Bool :=
  r.parent == root || (r.parent.map seen.contains).getD false

/-- What is wrong with the records that the walk did not reach. Without a loop among them they
hang under a missing parent, which only a whole document has to answer for. -/
def unreachedFault (records unreached : List Record) (whole : Bool) : Option AssemblyError :=
  match unreached with
  | [] => none
  | first :: _ =>
    match firstLoop? unreached with
    | some ids => some (.cycleDetected ids)
    | none =>
      if whole then
        let known : Std.TreeSet String := records.foldl (fun s r => s.insert r.id) ∅
        let r := (unreached.find? fun r => !known.contains (r.parent.getD "")).getD first
        some (.danglingParent r.id (r.parent.getD ""))
      else none

def assemble (records : List Record) (root : Option String) : Except AssemblyError Forest := do
  let below := grouped (records.filterMap fun r => r.parent.map (·, r))
  let roots := records.filter (·.parent == root)
  let (forest, seen) ←
    growAll (grow (fun id => below.getD id []) records.length []) roots ∅
  match unreachedFault records (records.filter fun r => !isReached root seen r) root.isNone with
  | some e => throw e
  | none => return forest

end BuildingCode.Clause

import BuildingCode.Clause.Label

/-! Clauses as a forest. Walks over a forest keep the nodes still to visit on a list, so deep
documents cost no call stack; what they visit is said by recursion on the forest. -/
namespace BuildingCode.Clause

structure Record where
  id : String
  parent : Option String
  title : String
deriving DecidableEq

inductive Node where
  | mk (record : Record) (children : List Node)

abbrev Forest := List Node

def Node.record : Node → Record
  | .mk r _ => r

def Node.children : Node → Forest
  | .mk _ cs => cs

def Node.id (n : Node) : String := n.record.id

mutual
def Node.size : Node → Nat
  | .mk _ cs => Forest.size cs + 1
def Forest.size : Forest → Nat
  | [] => 0
  | n :: ns => Node.size n + Forest.size ns
end

theorem Forest.size_append (a b : Forest) : Forest.size (a ++ b) = Forest.size a + Forest.size b := by
  induction a with
  | nil => simp [Forest.size]
  | cons n ns ih => simp only [List.cons_append, Forest.size, ih]; omega

theorem Forest.size_reverse (f : Forest) : Forest.size f.reverse = Forest.size f := by
  induction f with
  | nil => rfl
  | cons n ns ih => simp only [List.reverse_cons, Forest.size_append, ih, Forest.size]; omega

def Forest.atDepth (depth : Nat) (f : Forest) : List (Nat × Node) := f.map (depth, ·)

theorem Forest.map_atDepth (depth : Nat) (f : Forest) : (f.atDepth depth).map (·.2) = f := by
  simp [Forest.atDepth, Function.comp_def]

/-- The records with their depths, every one before those inside it, siblings in order. -/
def Forest.rowsFrom (done : List (Nat × Record)) : (todo : List (Nat × Node)) → List (Nat × Record)
  | [] => done.reverse
  | (depth, .mk r cs) :: rest =>
    rowsFrom ((depth, r) :: done) (Forest.atDepth (depth + 1) cs ++ rest)
termination_by todo => Forest.size (todo.map (·.2))
decreasing_by
  simp only [List.map_append, List.map_cons, Forest.map_atDepth, Forest.size_append, Forest.size,
    Node.size]
  omega

def Forest.rows (f : Forest) : List (Nat × Record) := rowsFrom [] (f.atDepth 0)

def Forest.flattenFrom (done : List Record) : (todo : Forest) → List Record
  | [] => done.reverse
  | .mk r cs :: rest => flattenFrom (r :: done) (cs ++ rest)
termination_by todo => Forest.size todo
decreasing_by
  simp only [Forest.size_append, Forest.size, Node.size]
  omega

def Forest.flatten (f : Forest) : List Record := flattenFrom [] f

def Forest.findFrom (id : String) : (todo : Forest) → Option Node
  | [] => none
  | .mk r cs :: rest => if r.id = id then some (.mk r cs) else findFrom id (cs.reverse ++ rest)
termination_by todo => Forest.size todo
decreasing_by
  simp only [List.unattach_reverse, List.unattach_attach, Forest.size_append,
    Forest.size_reverse, Forest.size, Node.size]
  omega

/-- Looks for a clause anywhere in the forest, last siblings first. -/
def Forest.find? (f : Forest) (id : String) : Option Node := findFrom id f.reverse

def Node.precedes (a b : Node) : Bool := (compareLabels a.id b.id).isLE

mutual
def Node.sorted : Node → Node
  | .mk r cs => .mk r ((Forest.sortedEach cs).mergeSort Node.precedes)
def Forest.sortedEach : Forest → Forest
  | [] => []
  | n :: ns => n.sorted :: Forest.sortedEach ns
end

/-- Orders siblings at every level by clause number. Equal labels keep their order. -/
def Forest.sorted (f : Forest) : Forest := (Forest.sortedEach f).mergeSort Node.precedes

def Forest.outline (f : Forest) : List String :=
  f.rows.map fun (depth, r) => String.join (List.replicate depth "  ") ++ r.id ++ " " ++ r.title

end BuildingCode.Clause

import Std.Data.TreeMap
import Std.Data.TreeSet
import Std.Data.TreeSet.Lemmas
import BuildingCode.Clause.Forest

/-! Loops among the parent links of records. A walk numbers the ids by when it leaves them; a
link that does not go down in these numbers is the only kind that can close a loop, so a document
without loops is cleared in one walk. The links left over are tried in an order that comes from the
same numbers, and the first that closes a loop gives it. -/
namespace BuildingCode.Clause

structure Link where
  parent : String
  child : String
deriving DecidableEq

abbrev Ids := Std.TreeSet String

def mentioned (records : List Record) : List String :=
  records.flatMap fun r => r.id :: r.parent.toList

def links (records : List Record) : List Link :=
  records.filterMap fun r => r.parent.map (⟨·, r.id⟩)

def grouped (pairs : List (String × α)) : Std.TreeMap String (List α) :=
  pairs.foldr (fun (key, value) m => m.insert key (value :: m.getD key [])) ∅

structure Walk where
  seen : Ids
  left : List String

/-- Visits what can be reached from `v`, leaving every id after all below it. No path is longer
than the number of ids, so `levels` is never used up. -/
def Walk.visit (next : String → List String) : (levels : Nat) → Walk → String → Walk
  | 0, w, _ => w
  | levels + 1, w, v =>
    if w.seen.contains v then w
    else
      let w := (next v).foldl (fun w u => visit next levels w u) { w with seen := w.seen.insert v }
      { w with left := v :: w.left }

def numbered (ids : List String) : Std.TreeMap String Nat :=
  ids.foldr (fun v m => m.insert v m.size) ∅

theorem size_erase_lt {ids : Ids} {v : String} (h : ids.contains v = true) :
    (ids.erase v).size < ids.size := by
  have filled := Std.TreeSet.isEmpty_eq_false_of_contains h
  rw [Std.TreeSet.isEmpty_eq_size_eq_zero, beq_eq_false_iff_ne] at filled
  rw [Std.TreeSet.size_erase, if_pos h]
  omega

def reach (next : String → List String) (remaining : Ids) : (pending : List String) → List String
  | [] => []
  | v :: pending =>
    if _found : remaining.contains v then v :: reach next (remaining.erase v) (next v ++ pending)
    else reach next remaining pending
termination_by pending => (remaining.size, pending.length)
decreasing_by
  · exact Prod.Lex.left _ _ (size_erase_lt _found)
  · exact Prod.Lex.right _ (Nat.lt_succ_self _)

structure Ranking where
  remaining : Ids
  ranks : Std.TreeMap String Nat

/-- Ranks `v` and all that lead to it by the number of `v`, unless they have a rank. -/
def Ranking.add (up : String → List String) (number : String → Nat) (r : Ranking) (v : String) :
    Ranking :=
  let members := reach up r.remaining [v]
  ⟨members.foldl (fun ids u => ids.erase u) r.remaining,
    members.foldl (fun ranks u => ranks.insert u (number v)) r.ranks⟩

def loopThrough? (ids : Ids) (down up : String → List String) (l : Link) : Option (List String) :=
  let below := reach down ids [l.child]
  if below.contains l.parent then some (reach up (.ofList below) [l.parent]) else none

/-- The loop that the walk leaves first, as a sorted list of ids. Ranked from the id left last
on, the ids of a loop share the number of the one that the walk leaves last. -/
def firstLoop? (records : List Record) : Option (List String) :=
  let ids := Std.TreeSet.ofList (mentioned records)
  let ls := links records
  let below := grouped (ls.map fun l => (l.parent, l.child))
  let down := fun v => below.getD v []
  let left := ((mentioned records).foldl (Walk.visit down (ids.size + 1)) ⟨∅, []⟩).left
  let numbers := numbered left
  let number := fun v => numbers.getD v 0
  match ls.filter fun l => number l.parent ≤ number l.child with
  | [] => none
  | rising =>
    let above := grouped (ls.map fun l => (l.child, l.parent))
    let up := fun v => above.getD v []
    let ranks := (left.foldl (Ranking.add up number) ⟨ids, ∅⟩).ranks
    let rank := fun (l : Link) => ranks.getD l.parent 0
    let loop := (rising.mergeSort fun a b => rank a ≤ rank b).findSome? (loopThrough? ids down up)
    loop.map fun ids => ids.mergeSort fun a b => (compare a b).isLE

end BuildingCode.Clause

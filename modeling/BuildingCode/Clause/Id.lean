import BuildingCode.Text.Space

/-! Clause numbers such as `6.2.1`: one to four positive segments. A number is written in one way
only, so parsing refuses leading zeros and everything else that it would not print. -/
namespace BuildingCode

inductive ClauseFault where
  | empty
  | emptySegment (position : Nat)
  | nonDigit (segment : String)
  | zeroSegment
  | leadingZero (segment : String)
  | tooManySegments (count : Nat)
  | overflow
  | topSegmentOutOfRange (value bound : UInt32)
deriving DecidableEq

def maxSegments : Nat := 4

def defaultTopSegment : UInt32 := 50

def ClauseFault.message (input : String) : ClauseFault → String
  | .empty => "clause id is empty"
  | .emptySegment position => s!"clause id '{input}' has an empty segment at position {position}"
  | .nonDigit segment => s!"clause id '{input}' has a non-digit segment '{segment}'"
  | .zeroSegment => s!"clause id '{input}' has a zero segment"
  | .leadingZero segment => s!"clause id '{input}' has a segment with a leading zero '{segment}'"
  | .tooManySegments count =>
    s!"clause id '{input}' has {count} segments, at most {maxSegments} allowed"
  | .overflow => s!"clause id '{input}' has a segment too large to represent"
  | .topSegmentOutOfRange value bound =>
    s!"clause id '{input}' starts with {value}, which exceeds the bound {bound}"

abbrev Segment := {n : UInt32 // 0 < n}

structure ClauseId where
  segments : List Segment
  nonempty : segments ≠ []
  length_le : segments.length ≤ maxSegments
deriving DecidableEq

namespace ClauseId

def values (id : ClauseId) : List UInt32 := id.segments.map (·.val)

def depth (id : ClauseId) : Nat := id.segments.length

def parts : List Char → List (List Char)
  | [] => [[]]
  | '.' :: cs => [] :: parts cs
  | c :: cs => match parts cs with
    | p :: ps => (c :: p) :: ps
    | [] => [[c]]

def parseSegment (position : Nat) (part : List Char) : Except ClauseFault Segment :=
  if part = [] then .error (.emptySegment position)
  else if !part.all Text.isDigit then .error (.nonDigit (String.ofList part))
  else if part = ['0'] then .error .zeroSegment
  else if part.head? = some '0' then .error (.leadingZero (String.ofList part))
  else
    let n := Text.digitsValue part
    if n < UInt32.size then
      if h : 0 < UInt32.ofNat n then .ok ⟨UInt32.ofNat n, h⟩ else .error .zeroSegment
    else .error .overflow

/-- Reads the parts from `position` on; the first fault counts, and a part too many is one. -/
def parseParts (count : Nat) : (position : Nat) → List (List Char) →
    Except ClauseFault (List Segment)
  | _, [] => .ok []
  | position, part :: rest =>
    if maxSegments ≤ position then .error (.tooManySegments count)
    else do
      let segment ← parseSegment position part
      let segments ← parseParts count (position + 1) rest
      return segment :: segments

def parse (bound : UInt32) (text : String) : Except ClauseFault ClauseId := do
  if text = "" then throw .empty
  let ps := parts text.toList
  let segments ← parseParts ps.length 0 ps
  if h : segments ≠ [] ∧ segments.length ≤ maxSegments then
    let top := (segments.head h.1).val
    if bound < top then throw (.topSegmentOutOfRange top bound)
    return ⟨segments, h.1, h.2⟩
  else throw (.tooManySegments ps.length)

def text (id : ClauseId) : String :=
  String.intercalate "." (id.values.map fun n => String.ofList (Text.digitsOf n.toNat))

def parent (id : ClauseId) : Option ClauseId :=
  if h : id.segments.dropLast ≠ [] then
    some ⟨id.segments.dropLast, h, by
      have := id.length_le
      simp only [List.length_dropLast]
      omega⟩
  else none

theorem parent_depth_lt {id p : ClauseId} (h : id.parent = some p) : p.depth < id.depth := by
  unfold parent at h
  split at h
  · cases h
    have := List.length_pos_iff.2 id.nonempty
    simp only [depth, List.length_dropLast]
    omega
  · contradiction

def ancestors (id : ClauseId) : List ClauseId :=
  match _h : id.parent with
  | some p => p :: p.ancestors
  | none => []
termination_by id.depth
decreasing_by exact parent_depth_lt _h

def isAbove (id other : ClauseId) : Bool :=
  id.values.length < other.values.length && id.values.isPrefixOf other.values

def order (a b : ClauseId) : Ordering := List.compareLex compare a.values b.values

end ClauseId
end BuildingCode

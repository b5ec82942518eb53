import BuildingCode.Expression.Rejection

/-! The names that an expression may use. A name stands for the slot at its position. -/
namespace BuildingCode.Expression

structure Scope where
  names : List String
  unreserved : ∀ name ∈ names, isReserved name = false
  distinct : names.Nodup

namespace Scope

def empty : Scope := ⟨[], by simp, by simp⟩

def push (s : Scope) (name : String) : Except Rejection Scope :=
  if reserved : isReserved name then .error (.reservedName name)
  else if bound : name ∈ s.names then .error (.duplicateName name)
  else .ok {
    names := s.names ++ [name]
    unreserved := by
      intro other member
      rcases List.mem_append.mp member with old | new
      · exact s.unreserved other old
      · simpa [List.mem_singleton.mp new] using reserved
    distinct := by
      rw [List.nodup_append]
      exact ⟨s.distinct, by simp, by rintro a ha b hb rfl; exact bound (List.mem_singleton.mp hb ▸ ha)⟩
  }

/-- Adds names in their order; the first that cannot be added is the one reported. -/
def ofNames (names : List String) : Except Rejection Scope := names.foldlM push empty

def slot? (s : Scope) (name : String) : Option Nat := s.names.idxOf? name

end Scope
end BuildingCode.Expression

import BuildingCode.Expression.Reading
import BuildingCode.Proofs.Outcome
import Mathlib.Data.List.Basic

/-! What the readers of single tokens do to the cursor, as equations. Grammar readers are opened
through these and never further down. -/
namespace BuildingCode.Expression

namespace Cursor

def tokens (s : Cursor) : List Token := s.rest.map (·.token)

def tail (s : Cursor) : Cursor := ⟨s.rest.tail, s.nodes⟩

def counted (s : Cursor) : Cursor := ⟨s.rest, s.nodes + 1⟩

@[simp] theorem tokens_tail (s : Cursor) : s.tail.tokens = s.tokens.tail := by
  simp [tokens, tail]

@[simp] theorem nodes_tail (s : Cursor) : s.tail.nodes = s.nodes := rfl

@[simp] theorem tokens_counted (s : Cursor) : s.counted.tokens = s.tokens := rfl

@[simp] theorem nodes_counted (s : Cursor) : s.counted.nodes = s.nodes + 1 := rfl

theorem length_rest (s : Cursor) : s.rest.length = s.tokens.length := by
  simp [tokens]

theorem head?_tokens (s : Cursor) : s.rest.head?.map (·.token) = s.tokens.head? := by
  simp [tokens]

theorem tokens_of_head? {s : Cursor} {t : Token} (h : s.tokens.head? = some t) :
    s.tokens = t :: s.tail.tokens := by
  rw [tokens_tail]
  exact (List.cons_head?_tail h).symm

theorem head?_of_tokens {s : Cursor} {t : Token} {ts : List Token} (h : s.tokens = t :: ts) :
    s.tokens.head? = some t := by
  rw [h]
  rfl

theorem tail_of_tokens {s : Cursor} {t : Token} {ts : List Token} (h : s.tokens = t :: ts) :
    s.tail.tokens = ts := by
  rw [tokens_tail, h]
  rfl

end Cursor

namespace Reader

variable {x : Reader α} {f : α → Reader β} {s s' : Cursor}

theorem bind_apply : (x >>= f) s = (x s).bind fun (a, s') => f a s' := rfl

theorem pure_apply (a : α) : (pure a : Reader α) s = .ok (a, s) := rfl

theorem get_apply : (get : Reader Cursor) s = .ok (s, s) := rfl

theorem bind_eq_ok {b : β} : (x >>= f) s = .ok (b, s') ↔
    ∃ a t, x s = .ok (a, t) ∧ f a t = .ok (b, s') := by
  constructor
  · intro h
    obtain ⟨⟨a, t⟩, first, rest⟩ := Outcome.bind_eq_ok.mp h
    exact ⟨a, t, first, rest⟩
  · rintro ⟨a, t, first, rest⟩
    exact Outcome.bind_eq_ok.mpr ⟨(a, t), first, rest⟩

theorem bind_of_ok {a : α} (h : x s = .ok (a, s')) : (x >>= f) s = f a s' := by
  rw [bind_apply, h]
  rfl

theorem next_apply : next s = .ok (s.rest.head?, s.tail) := by
  obtain ⟨rest, nodes⟩ := s
  cases rest <;> rfl

theorem peek_apply : peek s = .ok (s.tokens.head?, s) := by
  rw [← Cursor.head?_tokens]
  rfl

theorem sees_apply (t : Token) : sees t s = .ok (decide (s.tokens.head? = some t), s) := by
  rw [sees, bind_of_ok peek_apply, pure_apply]
  by_cases same : s.tokens.head? = some t <;> simp [same]

theorem eat_of_eq {t : Token} (h : s.tokens.head? = some t) : eat t s = .ok (true, s.tail) := by
  rw [eat, bind_of_ok (sees_apply t), h, decide_eq_true rfl, if_pos rfl, bind_of_ok next_apply]
  rfl

theorem eat_of_ne {t : Token} (h : s.tokens.head? ≠ some t) : eat t s = .ok (false, s) := by
  rw [eat, bind_of_ok (sees_apply t), decide_eq_false h]
  rfl

theorem expect_of_eq {t : Token} (h : s.tokens.head? = some t) (expected : Expected) :
    expect t expected s = .ok ((), s.tail) := by
  rw [← Cursor.head?_tokens, Option.map_eq_some_iff] at h
  obtain ⟨l, first, same⟩ := h
  rw [expect, bind_of_ok next_apply, first]
  simp only [same, if_true]
  rfl

theorem of_expect {t : Token} {expected : Expected} {u : Unit}
    (h : expect t expected s = .ok (u, s')) : s.tokens.head? = some t ∧ s' = s.tail := by
  rw [← Cursor.head?_tokens]
  rw [expect, bind_of_ok next_apply] at h
  cases first : s.rest.head? with
  | none =>
    rw [first] at h
    cases h
  | some l =>
    rw [first] at h
    by_cases same : l.token = t
    · simp only [same, if_true] at h
      cases h
      exact ⟨congrArg some same, rfl⟩
    · simp only [same, if_false] at h
      cases h

theorem node_of_le {limit : Nat} (h : s.nodes + 1 ≤ limit) (e : Expr) :
    node limit e s = .ok (e, s.counted) := by
  rw [node, bind_of_ok get_apply, if_neg (Nat.not_lt.mpr h)]
  rfl

theorem of_node {limit : Nat} {e e' : Expr} (h : node limit e s = .ok (e', s')) :
    s.nodes + 1 ≤ limit ∧ e' = e ∧ s' = s.counted := by
  rw [node, bind_of_ok get_apply] at h
  by_cases beyond : limit < s.nodes + 1
  · rw [if_pos beyond] at h
    cases h
  · rw [if_neg beyond] at h
    cases h
    exact ⟨Nat.not_lt.mp beyond, rfl, rfl⟩

section
variable {y z : Reader α} {t : Token}

theorem eat_then (h : s.tokens.head? = some t) :
    (do if ← eat t then y else z) s = y s.tail := by
  rw [bind_of_ok (eat_of_eq h)]
  rfl

theorem eat_else (h : s.tokens.head? ≠ some t) : (do if ← eat t then y else z) s = z s := by
  rw [bind_of_ok (eat_of_ne h)]
  rfl

theorem sees_then (h : s.tokens.head? = some t) :
    (do if ← sees t then y else z) s = y s := by
  rw [bind_of_ok (sees_apply t), decide_eq_true h]
  rfl

theorem sees_else (h : s.tokens.head? ≠ some t) : (do if ← sees t then y else z) s = z s := by
  rw [bind_of_ok (sees_apply t), decide_eq_false h]
  rfl

end

section
variable {limit : Nat} {op? : Token → Option BinaryOp} {operand : Reader Expr} {a : Expr}

theorem chainFrom_of_none (h : s.tokens.head?.bind op? = none) (rounds : List Lexeme) :
    chainFrom limit op? operand rounds a s = .ok (a, s) := by
  cases rounds with
  | nil => rfl
  | cons l rounds =>
    rw [chainFrom, bind_of_ok peek_apply, h]
    rfl

theorem chainFrom_of_some {op : BinaryOp} (h : s.tokens.head?.bind op? = some op) (l : Lexeme)
    (rounds : List Lexeme) : chainFrom limit op? operand (l :: rounds) a s =
      (do
        let b ← operand
        let e ← node limit (.binary op a b)
        chainFrom limit op? operand rounds e) s.tail := by
  rw [chainFrom, bind_of_ok peek_apply, h]
  exact bind_of_ok next_apply

end

end Reader
end BuildingCode.Expression

import BuildingCode.Proofs.Expression.Cursor

/-! Limits only ever turn a result into a rejection that names a limit: with lower limits a text
is read as with higher ones, or one of the lower limits is what rejects it. -/
namespace BuildingCode.Expression

/-- The rejections that higher limits could lift. -/
def Rejection.IsLimit : Rejection → Prop
  | .tooLong _ _ | .tooDeep _ | .tooManyNodes _ => True
  | _ => False

/-- The first outcome is the second one or a rejection that names a limit. -/
def Lowered (x y : Except Rejection α) : Prop := x = y ∨ ∃ r, x = .error r ∧ r.IsLimit

namespace Lowered

theorem refl (x : Except Rejection α) : Lowered x x := .inl rfl

theorem bind {x y : Except Rejection α} {f g : α → Except Rejection β} (h : Lowered x y)
    (next : ∀ a, Lowered (f a) (g a)) : Lowered (x >>= f) (y >>= g) := by
  rcases h with rfl | ⟨r, rfl, limit⟩
  · cases x with
    | error r => exact .inl rfl
    | ok a => exact next a
  · exact .inr ⟨r, rfl, limit⟩

end Lowered

namespace Reader

/-- The first reader does what the second does, as long as no limit stops it. -/
def Restricts (x y : Reader α) : Prop := ∀ s, Lowered (x s) (y s)

theorem Restricts.refl (x : Reader α) : Restricts x x := fun s => .refl (x s)

theorem Restricts.bind {x y : Reader α} {f g : α → Reader β} (h : Restricts x y)
    (next : ∀ a, Restricts (f a) (g a)) : Restricts (x >>= f) (y >>= g) :=
  fun s => (h s).bind fun (a, t) => next a t

theorem restricts_throw {r : Rejection} (h : r.IsLimit) (y : Reader α) : Restricts (throw r) y :=
  fun _ => .inr ⟨r, rfl, h⟩

section
variable {limit limit' : Nat} (le : limit ≤ limit')
include le

theorem restricts_node (e : Expr) : Restricts (node limit e) (node limit' e) := by
  intro s
  by_cases within : s.nodes + 1 ≤ limit
  · rw [node_of_le within, node_of_le (Nat.le_trans within le)]
    exact .refl _
  · refine .inr ⟨.tooManyNodes limit, ?_, trivial⟩
    rw [node, bind_of_ok get_apply, if_pos (Nat.lt_of_not_le within)]
    rfl

variable {x y : Reader Expr}

theorem restricts_chainFrom (operands : Restricts x y) (op? : Token → Option BinaryOp)
    (rounds : List Lexeme) (a : Expr) :
    Restricts (chainFrom limit op? x rounds a) (chainFrom limit' op? y rounds a) := by
  induction rounds generalizing a with
  | nil => exact .refl _
  | cons l rounds ih =>
    rw [chainFrom, chainFrom]
    refine .bind (.refl _) fun token => ?_
    cases token.bind op? with
    | none => exact .refl _
    | some op =>
      exact .bind (.refl _) fun _ => .bind operands fun b => .bind (restricts_node le _) ih

theorem restricts_chain (operands : Restricts x y) (op? : Token → Option BinaryOp) :
    Restricts (chain limit op? x) (chain limit' op? y) :=
  .bind operands fun a => .bind (.refl _) fun s => restricts_chainFrom le operands op? s.rest a

variable {whole whole' sign sign' : Reader Expr}

theorem restricts_conditional (wholes : Restricts whole whole') (signs : Restricts sign sign') :
    Restricts (conditional limit whole sign) (conditional limit' whole' sign') := by
  have operators : Restricts (operators limit sign) (operators limit' sign') :=
    restricts_chain le (restricts_chain le (restricts_chain le (restricts_chain le signs _) _) _) _
  refine .bind operators fun c => .bind (.refl _) fun asks => ?_
  cases asks with
  | false => exact .refl _
  | true =>
    exact .bind wholes fun t => .bind (.refl _) fun _ => .bind wholes fun e => restricts_node le _

omit le in
theorem restricts_argumentsFrom (wholes : Restricts whole whole') (rounds : List Lexeme) :
    Restricts (argumentsFrom whole rounds) (argumentsFrom whole' rounds) := by
  induction rounds with
  | nil => exact .refl _
  | cons l rounds ih =>
    refine .bind wholes fun e => .bind (.refl _) fun comma => ?_
    cases comma with
    | false => exact .refl _
    | true => exact .bind ih fun es => .refl _

theorem restricts_mathWord (wholes : Restricts whole whole') (asMember : Bool)
    (word shown : String) (position : Nat) :
    Restricts (mathWord limit whole asMember word shown position)
      (mathWord limit' whole' asMember word shown position) := by
  have arguments : Restricts (arguments whole) (arguments whole') := by
    refine .bind (.refl _) fun s => .bind (.refl _) fun _ => .bind (.refl _) fun closed => ?_
    cases closed with
    | false => exact restricts_argumentsFrom wholes _
    | true => exact .refl _
  refine .bind (.refl _) fun opened => ?_
  cases opened with
  | true =>
    cases function? word with
    | none => exact .refl _
    | some f =>
      refine .bind arguments fun args => ?_
      by_cases arity : f.arity.accepts args.length = true
      · simp only [if_pos arity]
        exact restricts_node le _
      · simp only [if_neg arity]
        exact .refl _
  | false =>
    cases constant? asMember word with
    | none => exact .refl _
    | some v => exact restricts_node le _

theorem restricts_boundName (slot : Nat) (shown : String) (position : Nat) :
    Restricts (boundName limit slot shown position) (boundName limit' slot shown position) := by
  refine .bind (.refl _) fun opened => ?_
  cases opened with
  | true => exact .refl _
  | false => exact restricts_node le _

variable (scope : Scope)

theorem restricts_member (wholes : Restricts whole whole') (root : String) (position : Nat) :
    Restricts (member scope limit whole root position) (member scope limit' whole' root position) := by
  refine .bind (.refl _) fun m => .bind (.refl _) fun dotted => ?_
  cases dotted with
  | true => exact .refl _
  | false =>
    by_cases values : root = valuesRoot
    · simp only [if_pos values]
      cases scope.slot? m with
      | none => exact .refl _
      | some i => exact restricts_boundName le i _ _
    · by_cases math : root = mathRoot
      · simp only [if_neg values, if_pos math]
        exact restricts_mathWord le wholes _ _ _ _
      · simp only [if_neg values, if_neg math]
        exact .refl _

theorem restricts_named (wholes : Restricts whole whole') (name : String) (position : Nat) :
    Restricts (named scope limit whole name position) (named scope limit' whole' name position) := by
  refine .bind (.refl _) fun dotted => ?_
  cases dotted with
  | true => exact restricts_member le scope wholes name position
  | false =>
    by_cases root : name = valuesRoot ∨ name = mathRoot
    · simp only [if_pos root]
      exact .refl _
    · simp only [if_neg root]
      cases scope.slot? name with
      | none => exact restricts_mathWord le wholes _ _ _ _
      | some i => exact restricts_boundName le i _ _

theorem restricts_primary (wholes : Restricts whole whole') :
    Restricts (primary scope limit whole) (primary scope limit' whole') := by
  refine .bind (.refl _) fun first => ?_
  match first with
  | none => exact .refl _
  | some ⟨token, start, width⟩ =>
    cases token with
    | number v => exact restricts_node le _
    | openParen => exact .bind wholes fun e => .refl _
    | name n => exact restricts_named le scope wholes n start
    | _ => exact .refl _

theorem restricts_signed (wholes : Restricts whole whole') (signs : Restricts sign sign') :
    Restricts (signed scope limit whole sign) (signed scope limit' whole' sign') := by
  have power : Restricts (power scope limit whole sign) (power scope limit' whole' sign') := by
    refine .bind (restricts_primary le scope wholes) fun a => .bind (.refl _) fun raised => ?_
    cases raised with
    | true => exact .bind signs fun b => restricts_node le _
    | false => exact .refl _
  refine .bind (.refl _) fun minus => ?_
  cases minus with
  | true => exact .bind signs fun e => restricts_node le _
  | false =>
    refine .bind (.refl _) fun plus => ?_
    cases plus with
    | true => exact signs
    | false => exact power

end

theorem restricts_whole_and_sign (scope : Scope) {limits limits' : Limits}
    (nodes : limits.nodes ≤ limits'.nodes) {room room' : Nat} (le : room ≤ room') :
    Restricts (whole scope limits room) (whole scope limits' room') ∧
      Restricts (sign scope limits room) (sign scope limits' room') := by
  induction room generalizing room' with
  | zero => 
    have deep : (Rejection.tooDeep limits.depth).IsLimit := trivial
    exact ⟨restricts_throw deep _, restricts_throw deep _⟩
  | succ room ih =>
    obtain ⟨room', rfl⟩ := Nat.exists_eq_add_of_lt (Nat.lt_of_succ_le le)
    obtain ⟨wholes, signs⟩ := ih (Nat.le_add_right room room')
    rw [whole, whole, sign, sign]
    exact ⟨restricts_conditional nodes wholes signs, restricts_signed nodes scope wholes signs⟩

end Reader

theorem lowered_ofLexemes (scope : Scope) {limits limits' : Limits}
    (depth : limits.depth ≤ limits'.depth) (nodes : limits.nodes ≤ limits'.nodes)
    (ls : List Lexeme) :
    Lowered (Expr.ofLexemes scope limits ls) (Expr.ofLexemes scope limits' ls) :=
  .bind ((Reader.restricts_whole_and_sign scope nodes depth).1 ⟨ls, 0⟩) fun _ => .refl _

end BuildingCode.Expression

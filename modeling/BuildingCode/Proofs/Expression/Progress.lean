import BuildingCode.Proofs.Expression.Limits
import BuildingCode.Proofs.Expression.Soundness

/-! No limit stops a reader for which the tokens left are few enough. Every node has a token of its
own, and between two tokens the readers nest at most twice. -/
namespace BuildingCode.Expression
namespace Reader

/-- If the reader is rejected at the cursor, then not by a limit. -/
def Free (r : Reader α) (s : Cursor) : Prop := ∀ j, r s = .error j → ¬j.IsLimit

section
variable {x : Reader α} {f : α → Reader β} {s s' : Cursor}

theorem Free.bind (h : Free x s) (next : ∀ a t, x s = .ok (a, t) → Free (f a) t) :
    Free (x >>= f) s := by
  intro j rejected
  rcases Outcome.bind_eq_error.mp rejected with rejected | ⟨⟨a, t⟩, run, rejected⟩
  · exact h j rejected
  · exact next a t run j rejected

theorem free_of_ok {a : α} (h : x s = .ok (a, s')) : Free x s := by
  intro j rejected
  rw [h] at rejected
  cases rejected

theorem Free.bind_of_ok {a : α} (h : x s = .ok (a, s')) (next : Free (f a) s') :
    Free (x >>= f) s := by
  intro j rejected
  rw [Reader.bind_of_ok h] at rejected
  exact next j rejected

theorem free_throw {j : Rejection} (h : ¬j.IsLimit) : Free (throw j : Reader α) s := by
  intro i rejected
  cases rejected
  exact h

theorem free_node {limit : Nat} (h : s.nodes < limit) (e : Expr) : Free (node limit e) s :=
  free_of_ok (node_of_le h e)

theorem free_expect (t : Token) (expected : Expected) : Free (expect t expected) s := by
  refine .bind_of_ok next_apply ?_
  cases s.rest.head? with
  | none => exact free_throw id
  | some l =>
    by_cases same : l.token = t
    · simp only [if_pos same]
      exact free_of_ok rfl
    · simp only [if_neg same]
      exact free_throw id

theorem Free.eat {y z : Reader α} {t : Token} (then_ : s.tokens.head? = some t → Free y s.tail)
    (else_ : s.tokens.head? ≠ some t → Free z s) :
    Free (do if ← Reader.eat t then y else z) s := by
  by_cases first : s.tokens.head? = some t
  · exact .bind_of_ok (eat_of_eq first) (then_ first)
  · exact .bind_of_ok (eat_of_ne first) (else_ first)

theorem Free.sees {y z : Reader α} {t : Token} (then_ : s.tokens.head? = some t → Free y s)
    (else_ : Free z s) : Free (do if ← Reader.sees t then y else z) s := by
  refine .bind_of_ok (sees_apply t) ?_
  by_cases first : s.tokens.head? = some t
  · rw [decide_eq_true first]
    exact then_ first
  · rw [decide_eq_false first]
    exact else_

end

/-- No limit rejects where fewer than `n` tokens are left and a node for each is allowed. -/
def FreeBelow (limit n : Nat) (r : Reader α) : Prop :=
  ∀ s, s.tokens.length < n → s.nodes + s.tokens.length ≤ limit → Free r s

theorem length_tail {s : Cursor} {t : Token} (h : s.tokens.head? = some t) :
    s.tokens.length = s.tail.tokens.length + 1 := by
  rw [Cursor.tokens_of_head? h, List.length_cons]

section
variable {scope : Scope} {limit room n : Nat}

theorem Sound.progress {level : Level} {r : Reader Expr}
    (sound : Sound limit (Derives scope room level) r) {s t : Cursor} {e : Expr}
    (h : r s = .ok (e, t)) : t.tokens.length < s.tokens.length ∧
      t.nodes + t.tokens.length ≤ s.nodes + s.tokens.length := by
  obtain ⟨xs, taken⟩ := sound s e t h
  have nodes := taken.derives.nodeCount_le
  have node := e.nodeCount_pos
  rw [taken.tokens, taken.nodes, List.length_append]
  omega

theorem freeBelow_chain {operand : Reader Expr} (tier : Tier)
    (sound : Sound limit (Derives scope room tier.operand) operand)
    (operands : FreeBelow limit n operand) :
    FreeBelow limit n (chain limit (opOf tier) operand) := by
  -- A round takes its operator and an operand, so both bounds hold again where it ends.
  have rounds_free : ∀ rounds a s, s.tokens.length < n → s.nodes + s.tokens.length ≤ limit →
      Free (chainFrom limit (opOf tier) operand rounds a) s := by
    intro rounds
    induction rounds with
    | nil => exact fun a s _ _ => free_of_ok rfl
    | cons l rounds ih =>
      intro a s few nodes
      rw [chainFrom]
      refine .bind_of_ok peek_apply ?_
      cases found : s.tokens.head?.bind (opOf tier) with
      | none => exact free_of_ok rfl
      | some op =>
        obtain ⟨token, first, _⟩ := Option.bind_eq_some_iff.mp found
        have taken := length_tail first
        have counted := s.nodes_tail
        refine .bind_of_ok next_apply (.bind (operands s.tail (by omega) (by omega)) ?_)
        intro b t right
        have moved := sound.progress right
        refine .bind_of_ok (node_of_le (by omega) _) (ih _ t.counted ?_ ?_)
        · rw [Cursor.tokens_counted]
          omega
        · rw [Cursor.tokens_counted, Cursor.nodes_counted]
          omega
  intro s few nodes
  refine .bind (operands s few nodes) fun a t left => ?_
  have moved := sound.progress left
  exact .bind_of_ok get_apply (rounds_free t.rest a t (by omega) (by omega))

variable {whole sign : Reader Expr}

theorem freeBelow_conditional (wholes : Sound limit (Derives scope room .whole) whole)
    (signs : Sound limit (Derives scope room .sign) sign) (free : FreeBelow limit n whole)
    (free' : FreeBelow limit (n + 1) sign) :
    FreeBelow limit (n + 1) (conditional limit whole sign) := by
  intro s few nodes
  have products := freeBelow_chain .product signs free'
  have sums := freeBelow_chain .sum (sound_chain .product signs) products
  have comparisons := freeBelow_chain .comparison (sound_chain .sum (sound_chain .product signs)) sums
  have operators := freeBelow_chain .equality
    (sound_chain .comparison (sound_chain .sum (sound_chain .product signs))) comparisons
  refine .bind (operators s few nodes) fun c t condition => ?_
  have moved := (sound_operators signs).progress condition
  refine .eat (fun asks => ?_) fun _ => free_of_ok rfl
  have taken := length_tail asks
  have counted := t.nodes_tail
  refine .bind (free t.tail (by omega) (by omega)) fun a u yes => ?_
  have moved' := wholes.progress yes
  refine .bind (free_expect _ _) fun _ v expected => ?_
  obtain ⟨colon, rfl⟩ := of_expect expected
  have taken' := length_tail colon
  have counted' := u.nodes_tail
  refine .bind (free u.tail (by omega) (by omega)) fun b v no => ?_
  have moved'' := wholes.progress no
  exact free_node (by omega) _

theorem freeBelow_argumentsFrom (wholes : Sound limit (Derives scope room .whole) whole)
    (free : FreeBelow limit n whole) (rounds : List Lexeme) :
    FreeBelow limit n (argumentsFrom whole rounds) := by
  induction rounds with
  | nil => exact fun s _ _ => free_throw id
  | cons l rounds ih =>
    intro s few nodes
    refine .bind (free s few nodes) fun e t first => ?_
    have moved := wholes.progress first
    refine .eat (fun comma => ?_) fun _ => .bind (free_expect _ _) fun _ _ _ => free_of_ok rfl
    have taken := length_tail comma
    have counted := t.nodes_tail
    exact .bind (ih t.tail (by omega) (by omega)) fun es u _ => free_of_ok rfl

theorem free_mathWord (wholes : Sound limit (Derives scope room .whole) whole)
    (free : FreeBelow limit n whole) (asMember : Bool) (word shown : String) (position : Nat)
    {s : Cursor} (few : s.tokens.length ≤ n) (nodes : s.nodes + s.tokens.length < limit) :
    Free (mathWord limit whole asMember word shown position) s := by
  refine .sees (fun opened => ?_) ?_
  · cases function? word with
    | none => exact free_throw id
    | some f =>
      have taken := length_tail opened
      have counted := s.nodes_tail
      have arguments : Free (arguments whole) s :=
        .bind_of_ok get_apply <| .bind_of_ok next_apply <| .eat (fun _ => free_of_ok rfl)
          fun _ => freeBelow_argumentsFrom wholes free _ s.tail (by omega) (by omega)
      refine .bind arguments fun args t run => ?_
      obtain ⟨xs, tokens, derives, grown⟩ := sound_arguments wholes opened run
      have inner := derives.nodeCount_le
      have lengths := congrArg List.length tokens
      simp only [List.length_cons, List.length_append] at lengths
      by_cases arity : f.arity.accepts args.length = true
      · simp only [if_pos arity]
        exact free_node (by omega) _
      · simp only [if_neg arity]
        exact free_throw id
  · cases constant? asMember word with
    | some v => exact free_node (by omega) _
    | none =>
      by_cases function : (function? word).isSome = true
      · simp only [if_pos function]
        exact free_throw id
      · simp only [if_neg function]
        cases asMember with
        | true => exact free_throw id
        | false => exact free_throw id

theorem free_boundName (slot : Nat) (shown : String) (position : Nat) {s : Cursor}
    (nodes : s.nodes < limit) : Free (boundName limit slot shown position) s :=
  .sees (fun _ => free_throw id) (free_node nodes _)

theorem free_memberName {s : Cursor} : Free memberName s := by
  refine .bind_of_ok next_apply ?_
  match s.rest.head? with
  | none => exact free_throw id
  | some ⟨token, start, width⟩ =>
    cases token with
    | name m => exact free_of_ok rfl
    | _ => exact free_throw id

theorem free_named (wholes : Sound limit (Derives scope room .whole) whole)
    (free : FreeBelow limit n whole) (name : String) (position : Nat) {s : Cursor}
    (few : s.tokens.length ≤ n) (nodes : s.nodes + s.tokens.length < limit) :
    Free (named scope limit whole name position) s := by
  refine .eat (fun dot => ?_) fun _ => ?_
  · have taken := length_tail dot
    have counted := s.nodes_tail
    refine .bind free_memberName fun m t found => ?_
    obtain ⟨first, rfl⟩ := of_memberName found
    have taken' := length_tail first
    have counted' := s.tail.nodes_tail
    refine .sees (fun _ => free_throw id) ?_
    by_cases values : name = valuesRoot
    · simp only [if_pos values]
      cases scope.slot? m with
      | some i => exact free_boundName i _ _ (by omega)
      | none => exact .sees (fun _ => free_throw id) (free_throw id)
    · by_cases math : name = mathRoot
      · simp only [if_neg values, if_pos math]
        exact free_mathWord wholes free _ _ _ _ (by omega) (by omega)
      · simp only [if_neg values, if_neg math]
        exact free_throw id
  · by_cases root : name = valuesRoot ∨ name = mathRoot
    · simp only [if_pos root]
      exact free_throw id
    · simp only [if_neg root]
      cases scope.slot? name with
      | some i => exact free_boundName i _ _ (by omega)
      | none => exact free_mathWord wholes free _ _ _ _ few nodes

theorem freeBelow_primary (wholes : Sound limit (Derives scope room .whole) whole)
    (free : FreeBelow limit n whole) : FreeBelow limit (n + 1) (primary scope limit whole) := by
  intro s few nodes
  refine .bind_of_ok next_apply ?_
  cases first : s.rest.head? with
  | none => exact free_throw id
  | some l =>
    have seen : s.tokens.head? = some l.token := by rw [← Cursor.head?_tokens, first]; rfl
    have taken := length_tail seen
    have counted := s.nodes_tail
    obtain ⟨token, start, width⟩ := l
    cases token with
    | number v => exact free_node (by omega) _
    | openParen =>
      refine .bind (free s.tail (by omega) (by omega)) fun e t _ => ?_
      exact .bind (free_expect _ _) fun _ _ _ => free_of_ok rfl
    | name name => exact free_named wholes free name start (by omega) (by omega)
    | _ => exact free_throw id

theorem freeBelow_signed (wholes : Sound limit (Derives scope room .whole) whole)
    (signs : Sound limit (Derives scope room .sign) sign) (free : FreeBelow limit n whole)
    (free' : FreeBelow limit n sign) :
    FreeBelow limit (n + 1) (signed scope limit whole sign) := by
  intro s few nodes
  have counted := s.nodes_tail
  refine .eat (fun minus => ?_) fun _ => .eat (fun plus => ?_) fun _ => ?_
  · have taken := length_tail minus
    refine .bind (free' s.tail (by omega) (by omega)) fun e t run => ?_
    have moved := signs.progress run
    exact free_node (by omega) _
  · have taken := length_tail plus
    exact free' s.tail (by omega) (by omega)
  · refine .bind (freeBelow_primary wholes free s few nodes) fun a t base => ?_
    have moved := (sound_primary wholes).progress base
    refine .eat (fun raised => ?_) fun _ => free_of_ok rfl
    have taken := length_tail raised
    have counted' := t.nodes_tail
    refine .bind (free' t.tail (by omega) (by omega)) fun b u exponent => ?_
    have moved' := signs.progress exponent
    exact free_node (by omega) _

end

theorem freeBelow_whole_and_sign (scope : Scope) (limits : Limits) (room n : Nat) :
    (2 * n ≤ room → FreeBelow limits.nodes n (whole scope limits room)) ∧
      (2 * n ≤ room + 1 → FreeBelow limits.nodes n (sign scope limits room)) := by
  induction room generalizing n with
  | zero =>
    have none : ∀ r : Reader Expr, FreeBelow limits.nodes 0 r := fun _ _ few => absurd few (by simp)
    constructor <;> intro enough <;> obtain rfl : n = 0 := by omega
    · exact none _
    · exact none _
  | succ room ih =>
    obtain ⟨wholes, signs⟩ := sound_whole_and_sign scope limits room
    cases n with
    | zero => exact ⟨fun _ _ few => absurd few (by simp), fun _ _ few => absurd few (by simp)⟩
    | succ n =>
      rw [whole, sign]
      constructor
      · intro enough
        exact freeBelow_conditional wholes signs ((ih n).1 (by omega)) ((ih (n + 1)).2 (by omega))
      · intro enough
        exact freeBelow_signed wholes signs ((ih n).1 (by omega)) ((ih n).2 (by omega))

end Reader
end BuildingCode.Expression

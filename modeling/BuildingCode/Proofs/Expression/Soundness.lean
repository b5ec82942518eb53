import BuildingCode.Proofs.Expression.Cursor
import BuildingCode.Proofs.Expression.Grammar

/-! What a reader accepts derives from its level of the grammar, with the tree that it builds. -/
namespace BuildingCode.Expression

/-- A reader has gone from `s` to `s'` over tokens of `D` and counted the nodes of their tree. -/
structure Took (limit : Nat) (D : List Token → Expr → Prop) (s : Cursor) (e : Expr) (s' : Cursor)
    (xs : List Token) : Prop where
  tokens : s.tokens = xs ++ s'.tokens
  derives : D xs e
  nodes : s'.nodes = s.nodes + e.nodeCount
  within : s'.nodes ≤ limit

def Reader.Sound (limit : Nat) (D : List Token → Expr → Prop) (r : Reader Expr) : Prop :=
  ∀ s e s', r s = .ok (e, s') → ∃ xs, Took limit D s e s' xs

namespace Reader

variable {scope : Scope} {limit room : Nat}

def opOf : Tier → Token → Option BinaryOp
  | .equality => equalityOp
  | .comparison => comparisonOp
  | .sum => sumOp
  | .product => productOp

theorem opOf_eq_some_iff {tier : Tier} {token : Token} {op : BinaryOp} :
    opOf tier token = some op ↔ tier.Writes token op := by
  constructor
  · intro h
    cases tier <;> cases token <;> cases h <;> constructor
  · intro h
    cases h <;> rfl

section
variable {operand : Reader Expr}

theorem took_chainFrom (tier : Tier)
    (sound : Sound limit (Derives scope room tier.operand) operand) (rounds : List Lexeme)
    {s t s' : Cursor} {a e : Expr} {xs : List Token}
    (taken : Took limit (Derives scope room (.tier tier)) s a t xs)
    (h : chainFrom limit (opOf tier) operand rounds a t = .ok (e, s')) :
    ∃ ys, Took limit (Derives scope room (.tier tier)) s e s' ys := by
  induction rounds generalizing t a xs with
  | nil =>
    cases h
    exact ⟨xs, taken⟩
  | cons l rounds ih =>
    cases found : t.tokens.head?.bind (opOf tier) with
    | none =>
      rw [chainFrom_of_none found] at h
      cases h
      exact ⟨xs, taken⟩
    | some op =>
      rw [chainFrom_of_some found, bind_eq_ok] at h
      obtain ⟨token, first, written⟩ := Option.bind_eq_some_iff.mp found
      obtain ⟨b, u, right, h⟩ := h
      obtain ⟨ys, right⟩ := sound _ _ _ right
      obtain ⟨e', v, counted, h⟩ := bind_eq_ok.mp h
      obtain ⟨within, rfl, rfl⟩ := of_node counted
      have extended : Took limit (Derives scope room (.tier tier)) s (.binary op a b) u.counted
          (xs ++ token :: ys) := by
        refine ⟨?_, .binary taken.derives (opOf_eq_some_iff.mp written) right.derives, ?_, within⟩
        · rw [taken.tokens, Cursor.tokens_of_head? first, right.tokens]
          simp
        · rw [Cursor.nodes_counted, right.nodes, Cursor.nodes_tail, taken.nodes, Expr.nodeCount]
          omega
      exact ih extended h

theorem sound_chain (tier : Tier) (sound : Sound limit (Derives scope room tier.operand) operand) :
    Sound limit (Derives scope room (.tier tier)) (chain limit (opOf tier) operand) := by
  intro s e s' h
  obtain ⟨a, t, first, h⟩ := bind_eq_ok.mp h
  obtain ⟨xs, first⟩ := sound _ _ _ first
  rw [bind_of_ok get_apply] at h
  exact took_chainFrom tier sound t.rest
    ⟨first.tokens, .operand first.derives, first.nodes, first.within⟩ h

end

variable {whole sign : Reader Expr}

theorem sound_operators (signs : Sound limit (Derives scope room .sign) sign) :
    Sound limit (Derives scope room (.tier .equality)) (operators limit sign) := by
  have products := sound_chain .product signs
  have sums := sound_chain .sum products
  have comparisons := sound_chain .comparison sums
  exact sound_chain .equality comparisons

theorem sound_conditional (wholes : Sound limit (Derives scope room .whole) whole)
    (signs : Sound limit (Derives scope room .sign) sign) :
    Sound limit (Derives scope (room + 1) .whole) (conditional limit whole sign) := by
  intro s e s' h
  obtain ⟨c, t, first, h⟩ := bind_eq_ok.mp h
  obtain ⟨xs, first⟩ := sound_operators signs _ _ _ first
  by_cases asks : t.tokens.head? = some .question
  · rw [eat_then asks] at h
    obtain ⟨a, u, yes, h⟩ := bind_eq_ok.mp h
    obtain ⟨ys, yes⟩ := wholes _ _ _ yes
    obtain ⟨_, v, expected, h⟩ := bind_eq_ok.mp h
    obtain ⟨colon, rfl⟩ := of_expect expected
    obtain ⟨b, w, no, h⟩ := bind_eq_ok.mp h
    obtain ⟨zs, no⟩ := wholes _ _ _ no
    obtain ⟨within, rfl, rfl⟩ := of_node h
    refine ⟨_, ?_, .conditional first.derives yes.derives no.derives, ?_, within⟩
    · rw [first.tokens, Cursor.tokens_of_head? asks, yes.tokens, Cursor.tokens_of_head? colon,
        no.tokens]
      simp
    · rw [Cursor.nodes_counted, no.nodes, Cursor.nodes_tail, yes.nodes, Cursor.nodes_tail,
        first.nodes, Expr.nodeCount]
      omega
  · rw [eat_else asks] at h
    cases h
    exact ⟨xs, first.tokens, .bare first.derives, first.nodes, first.within⟩

theorem sound_argumentsFrom (wholes : Sound limit (Derives scope room .whole) whole)
    (rounds : List Lexeme) {s s' : Cursor} {es : List Expr}
    (h : argumentsFrom whole rounds s = .ok (es, s')) :
    ∃ xs, s.tokens = xs ++ .closeParen :: s'.tokens ∧ DerivesAll scope room xs es ∧ es ≠ [] ∧
      s'.nodes = s.nodes + Expr.nodeCountAll es := by
  induction rounds generalizing s es with
  | nil => cases h
  | cons _ rounds ih =>
    obtain ⟨e, t, first, h⟩ := bind_eq_ok.mp h
    obtain ⟨xs, first⟩ := wholes _ _ _ first
    by_cases comma : t.tokens.head? = some .comma
    · rw [eat_then comma] at h
      obtain ⟨more, u, rest, h⟩ := bind_eq_ok.mp h
      cases h
      obtain ⟨ys, tokens, derives, some, nodes⟩ := ih rest
      obtain ⟨e', es, rfl⟩ := List.exists_cons_of_ne_nil some
      refine ⟨_, ?_, .more first.derives derives, by simp, ?_⟩
      · rw [first.tokens, Cursor.tokens_of_head? comma, tokens]
        simp
      · rw [nodes, Cursor.nodes_tail, first.nodes]
        simp only [Expr.nodeCountAll]
        omega
    · rw [eat_else comma] at h
      obtain ⟨_, u, expected, h⟩ := bind_eq_ok.mp h
      obtain ⟨close, rfl⟩ := of_expect expected
      cases h
      refine ⟨xs, ?_, .one first.derives, by simp, ?_⟩
      · rw [first.tokens, Cursor.tokens_of_head? close]
      · simp [first.nodes, Expr.nodeCountAll]

theorem sound_arguments (wholes : Sound limit (Derives scope room .whole) whole) {s s' : Cursor}
    {es : List Expr} (opened : s.tokens.head? = some .openParen)
    (h : arguments whole s = .ok (es, s')) :
    ∃ xs, s.tokens = .openParen :: (xs ++ .closeParen :: s'.tokens) ∧ DerivesAll scope room xs es ∧
      s'.nodes = s.nodes + Expr.nodeCountAll es := by
  rw [arguments, bind_of_ok get_apply, bind_of_ok next_apply] at h
  rw [Cursor.tokens_of_head? opened]
  by_cases closed : s.tail.tokens.head? = some .closeParen
  · rw [eat_then closed] at h
    cases h
    exact ⟨[], by rw [Cursor.tokens_of_head? closed]; rfl, .nothing, rfl⟩
  · rw [eat_else closed] at h
    obtain ⟨xs, tokens, derives, _, nodes⟩ := sound_argumentsFrom wholes _ h
    exact ⟨xs, by rw [tokens], derives, nodes⟩

section
variable {s t s' : Cursor} {e : Expr}

theorem took_mathWord (before : List Token) (wholes : Sound limit (Derives scope room .whole) whole)
    {asMember : Bool} {word shown : String} {position : Nat}
    (constant : ∀ v, constant? asMember word = some v →
      Derives scope room .primary before (.number v))
    (call : ∀ f xs args, function? word = some f → DerivesAll scope room xs args →
      f.arity.accepts args.length = true →
        Derives scope room .primary (before ++ .openParen :: (xs ++ [.closeParen])) (.call f args))
    (passed : s.tokens = before ++ t.tokens) (same : t.nodes = s.nodes)
    (h : mathWord limit whole asMember word shown position t = .ok (e, s')) :
    ∃ xs, Took limit (Derives scope room .primary) s e s' xs := by
  unfold mathWord at h
  by_cases opened : t.tokens.head? = some .openParen
  · rw [sees_then opened] at h
    cases found : function? word with
    | none =>
      rw [found] at h
      cases h
    | some f =>
      rw [found] at h
      obtain ⟨args, u, inner, h⟩ := bind_eq_ok.mp h
      obtain ⟨xs, tokens, derives, nodes⟩ := sound_arguments wholes opened inner
      by_cases arity : f.arity.accepts args.length = true
      · rw [if_pos arity] at h
        obtain ⟨within, rfl, rfl⟩ := of_node h
        refine ⟨_, ?_, call f xs args found derives arity, ?_, within⟩
        · rw [passed, tokens]
          simp
        · rw [Cursor.nodes_counted, nodes, same, Expr.nodeCount]
          omega
      · rw [if_neg arity] at h
        cases h
  · rw [sees_else opened] at h
    cases found : constant? asMember word with
    | none =>
      simp only [found] at h
      split at h
      · cases h
      · split at h <;> cases h
    | some v =>
      simp only [found] at h
      obtain ⟨within, rfl, rfl⟩ := of_node h
      exact ⟨before, passed, constant v found, by simp [same, Expr.nodeCount], within⟩

theorem took_boundName (before : List Token) {i : Nat} {shown : String} {position : Nat}
    (slot : Derives scope room .primary before (.slot i)) (passed : s.tokens = before ++ t.tokens)
    (same : t.nodes = s.nodes) (h : boundName limit i shown position t = .ok (e, s')) :
    ∃ xs, Took limit (Derives scope room .primary) s e s' xs := by
  unfold boundName at h
  by_cases opened : t.tokens.head? = some .openParen
  · rw [sees_then opened] at h
    cases h
  · rw [sees_else opened] at h
    obtain ⟨within, rfl, rfl⟩ := of_node h
    exact ⟨before, passed, slot, by simp [same, Expr.nodeCount], within⟩

theorem of_memberName {m : String} (h : memberName s = .ok (m, s')) :
    s.tokens.head? = some (.name m) ∧ s' = s.tail := by
  rw [memberName, bind_of_ok next_apply] at h
  rw [← Cursor.head?_tokens]
  cases first : s.rest.head? with
  | none =>
    rw [first] at h
    cases h
  | some l =>
    rw [first] at h
    obtain ⟨token, start, width⟩ := l
    cases token <;> cases h
    exact ⟨rfl, rfl⟩

theorem took_member (wholes : Sound limit (Derives scope room .whole) whole) {root : String}
    {position : Nat} (passed : s.tokens = .name root :: .dot :: t.tokens) (same : t.nodes = s.nodes)
    (h : member scope limit whole root position t = .ok (e, s')) :
    ∃ xs, Took limit (Derives scope room .primary) s e s' xs := by
  obtain ⟨m, u, found, h⟩ := bind_eq_ok.mp h
  obtain ⟨name, rfl⟩ := of_memberName found
  rw [Cursor.tokens_of_head? name] at passed
  by_cases dot : t.tail.tokens.head? = some .dot
  · rw [sees_then dot] at h
    cases h
  · rw [sees_else dot] at h
    by_cases values : root = valuesRoot
    · subst values
      rw [if_pos rfl] at h
      cases found : scope.slot? m with
      | none =>
        simp only [found] at h
        by_cases opened : t.tail.tokens.head? = some .openParen
        · rw [sees_then opened] at h
          cases h
        · rw [sees_else opened] at h
          cases h
      | some i =>
        simp only [found] at h
        exact took_boundName [.name valuesRoot, .dot, .name m] (.valuesSlot found)
          passed same h
    · rw [if_neg values] at h
      by_cases math : root = mathRoot
      · subst math
        rw [if_pos rfl] at h
        exact took_mathWord [.name mathRoot, .dot, .name m] wholes
          (fun v found => .mathConstant found)
          (fun f xs args found derives arity => .mathCall found derives arity) passed same h
      · rw [if_neg math] at h
        cases h

theorem took_named (wholes : Sound limit (Derives scope room .whole) whole) {name : String}
    {position : Nat} (passed : s.tokens = .name name :: t.tokens) (same : t.nodes = s.nodes)
    (h : named scope limit whole name position t = .ok (e, s')) :
    ∃ xs, Took limit (Derives scope room .primary) s e s' xs := by
  unfold named at h
  by_cases dot : t.tokens.head? = some .dot
  · rw [eat_then dot] at h
    rw [Cursor.tokens_of_head? dot] at passed
    exact took_member wholes passed same h
  · rw [eat_else dot] at h
    by_cases root : name = valuesRoot ∨ name = mathRoot
    · rw [if_pos root] at h
      cases h
    · rw [if_neg root] at h
      cases found : scope.slot? name with
      | none =>
        simp only [found] at h
        exact took_mathWord [.name name] wholes (fun v found => .constant found)
          (fun f xs args found derives arity => .call found derives arity) passed same h
      | some i =>
        simp only [found] at h
        exact took_boundName [.name name] (.slot found) passed same h

end

theorem sound_primary (wholes : Sound limit (Derives scope room .whole) whole) :
    Sound limit (Derives scope room .primary) (primary scope limit whole) := by
  intro s e s' h
  rw [primary, bind_of_ok next_apply] at h
  cases first : s.rest.head? with
  | none =>
    rw [first] at h
    cases h
  | some l =>
    have seen : s.tokens.head? = some l.token := by rw [← Cursor.head?_tokens, first]; rfl
    have passed := Cursor.tokens_of_head? seen
    rw [first] at h
    obtain ⟨token, start, width⟩ := l
    cases token with
    | number v =>
      obtain ⟨within, rfl, rfl⟩ := of_node h
      exact ⟨[.number v], passed, .number, rfl, within⟩
    | openParen =>
      obtain ⟨inner, t, nested, h⟩ := bind_eq_ok.mp h
      obtain ⟨xs, nested⟩ := wholes _ _ _ nested
      obtain ⟨_, u, expected, h⟩ := bind_eq_ok.mp h
      obtain ⟨close, rfl⟩ := of_expect expected
      cases h
      refine ⟨_, ?_, .group nested.derives, nested.nodes, nested.within⟩
      rw [passed, nested.tokens, Cursor.tokens_of_head? close]
      simp
    | name name => exact took_named wholes passed rfl h
    | _ => cases h

theorem sound_power (wholes : Sound limit (Derives scope room .whole) whole)
    (signs : Sound limit (Derives scope room .sign) sign) :
    Sound limit (Derives scope room .power) (power scope limit whole sign) := by
  intro s e s' h
  obtain ⟨a, t, base, h⟩ := bind_eq_ok.mp h
  obtain ⟨xs, base⟩ := sound_primary wholes _ _ _ base
  by_cases raised : t.tokens.head? = some .power
  · rw [eat_then raised] at h
    obtain ⟨b, u, exponent, h⟩ := bind_eq_ok.mp h
    obtain ⟨ys, exponent⟩ := signs _ _ _ exponent
    obtain ⟨within, rfl, rfl⟩ := of_node h
    refine ⟨_, ?_, .power base.derives exponent.derives, ?_, within⟩
    · rw [base.tokens, Cursor.tokens_of_head? raised, exponent.tokens]
      simp
    · rw [Cursor.nodes_counted, exponent.nodes, Cursor.nodes_tail, base.nodes, Expr.nodeCount]
      omega
  · rw [eat_else raised] at h
    cases h
    exact ⟨xs, base.tokens, .base base.derives, base.nodes, base.within⟩

theorem sound_signed (wholes : Sound limit (Derives scope room .whole) whole)
    (signs : Sound limit (Derives scope room .sign) sign) :
    Sound limit (Derives scope (room + 1) .sign) (signed scope limit whole sign) := by
  intro s e s' h
  unfold signed at h
  by_cases minus : s.tokens.head? = some .minus
  · rw [eat_then minus] at h
    obtain ⟨a, t, inner, h⟩ := bind_eq_ok.mp h
    obtain ⟨xs, inner⟩ := signs _ _ _ inner
    obtain ⟨within, rfl, rfl⟩ := of_node h
    refine ⟨_, ?_, .minus inner.derives, ?_, within⟩
    · rw [Cursor.tokens_of_head? minus, inner.tokens]
      rfl
    · rw [Cursor.nodes_counted, inner.nodes, Cursor.nodes_tail, Expr.nodeCount]
      omega
  · rw [eat_else minus] at h
    by_cases plus : s.tokens.head? = some .plus
    · rw [eat_then plus] at h
      obtain ⟨xs, inner⟩ := signs _ _ _ h
      refine ⟨_, ?_, .plus inner.derives, inner.nodes, inner.within⟩
      rw [Cursor.tokens_of_head? plus, inner.tokens]
      rfl
    · rw [eat_else plus] at h
      obtain ⟨xs, inner⟩ := sound_power wholes signs _ _ _ h
      exact ⟨xs, inner.tokens, .unsigned inner.derives, inner.nodes, inner.within⟩

theorem sound_whole_and_sign (scope : Scope) (limits : Limits) (room : Nat) :
    Sound limits.nodes (Derives scope room .whole) (Reader.whole scope limits room) ∧
      Sound limits.nodes (Derives scope room .sign) (Reader.sign scope limits room) := by
  induction room with
  | zero =>
    rw [Reader.whole, Reader.sign]
    constructor
    · intro s e s' h
      cases h
    · intro s e s' h
      cases h
  | succ room ih =>
    rw [Reader.whole, Reader.sign]
    exact ⟨sound_conditional ih.1 ih.2, sound_signed ih.1 ih.2⟩

end Reader

/-- The lexemes of an accepted expression derive as a whole, within the limits on nesting and
nodes. -/
theorem derives_of_ofLexemes {scope : Scope} {limits : Limits} {ls : List Lexeme} {e : Expr}
    (h : Expr.ofLexemes scope limits ls = .ok e) :
    Derives scope limits.depth .whole (ls.map (·.token)) e ∧ e.nodeCount ≤ limits.nodes := by
  unfold Expr.ofLexemes at h
  cases run : (Reader.whole scope limits limits.depth).run ⟨ls, 0⟩ with
  | error r =>
    rw [run] at h
    cases h
  | ok result =>
    obtain ⟨e', rest, nodes⟩ := result
    rw [run] at h
    cases rest with
    | cons l rest => cases h
    | nil =>
      cases h
      obtain ⟨xs, taken⟩ := (Reader.sound_whole_and_sign scope limits limits.depth).1 _ _ _ run
      have all : ls.map (·.token) = xs := by simpa [Cursor.tokens] using taken.tokens
      refine ⟨all ▸ taken.derives, ?_⟩
      rw [← Nat.zero_add e.nodeCount, ← taken.nodes]
      exact taken.within

end BuildingCode.Expression

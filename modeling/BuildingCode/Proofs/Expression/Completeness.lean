import BuildingCode.Proofs.Expression.Soundness

/-! What derives from a level of the grammar is read by its reader, when the room and the nodes
suffice and the token behind it could not make the phrase longer. -/
namespace BuildingCode.Expression

/-- How loose a level must be for a phrase of it to go on with the token. -/
def Token.looseness : Token → Nat
  | .dot | .openParen => 0
  | .power => 1
  | .star | .slash | .percent => 2
  | .plus | .minus => 3
  | .lt | .le | .gt | .ge => 4
  | .eq | .ne => 5
  | .question => 6
  | .number _ | .name _ | .comma | .closeParen | .colon => 7

def Tier.looseness : Tier → Nat
  | .product => 2
  | .sum => 3
  | .comparison => 4
  | .equality => 5

def Level.looseness : Level → Nat
  | .primary => 0
  | .power | .sign => 1
  | .tier t => t.looseness
  | .whole => 6

/-- The tokens do not go on with a phrase of such looseness. -/
def Stops (looseness : Nat) (rest : List Token) : Prop :=
  ∀ t, rest.head? = some t → looseness < t.looseness

namespace Stops

theorem cons {k : Nat} {t : Token} (h : k < t.looseness) (ts : List Token) : Stops k (t :: ts) := by
  intro u first
  cases first
  exact h

theorem mono {k l : Nat} {rest : List Token} (h : Stops l rest) (le : k ≤ l) : Stops k rest :=
  fun t first => Nat.lt_of_le_of_lt le (h t first)

theorem head?_ne {k : Nat} {rest : List Token} (h : Stops k rest) {t : Token}
    (le : t.looseness ≤ k) : rest.head? ≠ some t :=
  fun first => Nat.not_lt.mpr le (h t first)

end Stops

theorem Tier.Writes.looseness {tier : Tier} {token : Token} {op : BinaryOp}
    (h : tier.Writes token op) : token.looseness = tier.looseness := by
  cases h <;> rfl

theorem Tier.operand_looseness_lt (tier : Tier) : tier.operand.looseness < tier.looseness := by
  cases tier <;> decide

theorem Derives.begins {scope : Scope} {room : Nat} {level : Level} {xs : List Token} {e : Expr} :
    Derives scope room level xs e → ∃ t ts, xs = t :: ts ∧ t ≠ .closeParen
  | .bare h | .operand h | .unsigned h | .base h => h.begins
  | .conditional h _ _ | .binary h _ _ | .power h _ => by
    obtain ⟨t, ts, rfl, opens⟩ := h.begins
    exact ⟨t, _, List.cons_append, opens⟩
  | .minus _ | .plus _ | .number | .group _ | .slot _ | .valuesSlot _ | .constant _
  | .mathConstant _ | .call _ _ _ | .mathCall _ _ _ => ⟨_, _, rfl, by simp⟩

theorem Derives.begins_primary {scope : Scope} {room : Nat} {xs : List Token} {e : Expr} :
    Derives scope room .primary xs e → ∃ t ts, xs = t :: ts ∧ t ≠ .minus ∧ t ≠ .plus
  | .number | .group _ | .slot _ | .valuesSlot _ | .constant _ | .mathConstant _ | .call _ _ _
  | .mathCall _ _ _ => ⟨_, _, rfl, by simp⟩

theorem Derives.begins_unsigned {scope : Scope} {room : Nat} {xs : List Token} {e : Expr} :
    Derives scope room .power xs e → ∃ t ts, xs = t :: ts ∧ t ≠ .minus ∧ t ≠ .plus
  | .base h => h.begins_primary
  | .power h _ => by
    obtain ⟨t, ts, rfl, unsigned⟩ := h.begins_primary
    exact ⟨t, _, List.cons_append, unsigned⟩

theorem isReserved_of_function? {name : String} {f : MathFunction} (h : function? name = some f) :
    isReserved name = true := by
  simp [isReserved, h]

theorem isReserved_of_constant? {name : String} {v : Float} (h : constant? false name = some v) :
    isReserved name = true := by
  simp [isReserved, h]

theorem no_root_of_function? {name : String} {f : MathFunction} (h : function? name = some f) :
    ¬(name = valuesRoot ∨ name = mathRoot) := by
  rintro (rfl | rfl) <;> exact nomatch h

theorem no_root_of_constant? {name : String} {v : Float} (h : constant? false name = some v) :
    ¬(name = valuesRoot ∨ name = mathRoot) := by
  rintro (rfl | rfl) <;> exact nomatch h

namespace Scope

variable {name : String}

theorem slot?_of_reserved (scope : Scope) (h : isReserved name = true) :
    scope.slot? name = none := by
  rw [slot?, List.idxOf?_eq_none_iff]
  intro bound
  rw [scope.unreserved name bound] at h
  cases h

theorem no_root_of_slot? {scope : Scope} {i : Nat} (h : scope.slot? name = some i) :
    ¬(name = valuesRoot ∨ name = mathRoot) := by
  intro root
  have reserved : isReserved name = true := by
    rcases root with rfl | rfl <;> decide
  rw [scope.slot?_of_reserved reserved] at h
  cases h

end Scope

namespace Reader

/-- The reader takes the tokens in front of any that do not go on with them. -/
def Reads (limit looseness : Nat) (r : Reader Expr) (xs : List Token) (e : Expr) : Prop :=
  ∀ s rest, s.tokens = xs ++ rest → Stops looseness rest → s.nodes + e.nodeCount ≤ limit →
    ∃ s', r s = .ok (e, s') ∧ s'.tokens = rest ∧ s'.nodes = s.nodes + e.nodeCount

theorem looseness_of_opOf {tier : Tier} {token : Token} {op : BinaryOp}
    (h : opOf tier token = some op) : token.looseness = tier.looseness :=
  (opOf_eq_some_iff.mp h).looseness

section
variable {limit : Nat} {tier : Tier} {operand : Reader Expr}

def ReadsOn (limit : Nat) (tier : Tier) (operand : Reader Expr) (xs : List Token) (e : Expr) : Prop :=
  ∀ s rest, s.tokens = xs ++ rest → Stops tier.operand.looseness rest →
    s.nodes + e.nodeCount ≤ limit → ∃ s' rounds,
      chain limit (opOf tier) operand s = chainFrom limit (opOf tier) operand rounds e s' ∧
        s'.tokens = rest ∧ s'.nodes = s.nodes + e.nodeCount ∧ rest.length ≤ rounds.length

theorem Reads.readsOn {xs : List Token} {e : Expr}
    (h : Reads limit tier.operand.looseness operand xs e) : ReadsOn limit tier operand xs e := by
  intro s rest tokens stops nodes
  obtain ⟨s', run, left, counted⟩ := h s rest tokens stops nodes
  have same : s'.rest.length = rest.length := by rw [Cursor.length_rest, left]
  refine ⟨s', s'.rest, ?_, left, counted, Nat.le_of_eq same.symm⟩
  rw [chain, bind_of_ok run, bind_of_ok get_apply]

theorem ReadsOn.binary {xs ys : List Token} {a b : Expr} {token : Token} {op : BinaryOp}
    (left : ReadsOn limit tier operand xs a) (written : tier.Writes token op)
    (right : Reads limit tier.operand.looseness operand ys b) :
    ReadsOn limit tier operand (xs ++ token :: ys) (.binary op a b) := by
  intro s rest tokens stops nodes
  rw [Expr.nodeCount] at nodes
  have tighter : tier.operand.looseness < token.looseness := by
    rw [written.looseness]
    exact tier.operand_looseness_lt
  obtain ⟨t, rounds, run, tokens, counted, enough⟩ := left s (token :: (ys ++ rest))
    (by rw [tokens]; simp) (.cons tighter _) (by omega)
  obtain ⟨l, rounds, rfl⟩ : ∃ l more, rounds = l :: more := by
    cases rounds with
    | nil => simp at enough
    | cons l more => exact ⟨l, more, rfl⟩
  obtain ⟨u, step, tail, counted'⟩ := right t.tail rest (Cursor.tail_of_tokens tokens) stops
    (by rw [Cursor.nodes_tail, counted]; omega)
  rw [Cursor.nodes_tail, counted] at counted'
  have next : t.tokens.head?.bind (opOf tier) = some op := by
    rw [tokens]
    exact opOf_eq_some_iff.mpr written
  refine ⟨u.counted, rounds, ?_, tail, ?_, ?_⟩
  · rw [run, chainFrom_of_some next, bind_of_ok step, bind_of_ok (node_of_le (by omega) _)]
  · rw [Cursor.nodes_counted, counted', Expr.nodeCount]
    omega
  · simp only [List.length_cons, List.length_append] at enough
    omega

theorem ReadsOn.reads {xs : List Token} {e : Expr} (h : ReadsOn limit tier operand xs e) :
    Reads limit tier.looseness (chain limit (opOf tier) operand) xs e := by
  intro s rest tokens stops nodes
  have tighter : tier.operand.looseness ≤ tier.looseness := Nat.le_of_lt tier.operand_looseness_lt
  obtain ⟨s', rounds, run, left, counted, _⟩ := h s rest tokens (stops.mono tighter) nodes
  have ended : s'.tokens.head?.bind (opOf tier) = none := by
    rw [left, Option.bind_eq_none_iff]
    intro token first
    by_contra goes
    obtain ⟨op, goes⟩ := Option.ne_none_iff_exists'.mp goes
    exact stops.head?_ne (Nat.le_of_eq (looseness_of_opOf goes)) first
  exact ⟨s', by rw [run, chainFrom_of_none ended], left, counted⟩

end

section
variable {scope : Scope} {limit : Nat} {whole sign : Reader Expr} {xs ys zs : List Token}
  {a b c e : Expr}

theorem Reads.bare (h : Reads limit 5 (operators limit sign) xs e) :
    Reads limit 6 (conditional limit whole sign) xs e := by
  intro s rest tokens stops nodes
  obtain ⟨s', run, left, counted⟩ := h s rest tokens (stops.mono (by decide)) nodes
  refine ⟨s', ?_, left, counted⟩
  rw [conditional, bind_of_ok run, eat_else (left ▸ stops.head?_ne (by decide))]
  rfl

theorem Reads.choice (condition : Reads limit 5 (operators limit sign) xs c)
    (yes : Reads limit 6 whole ys a) (no : Reads limit 6 whole zs b) :
    Reads limit 6 (conditional limit whole sign) (xs ++ .question :: (ys ++ .colon :: zs))
      (.conditional c a b) := by
  intro s rest tokens stops nodes
  rw [Expr.nodeCount] at nodes
  obtain ⟨t, run, asks, counted⟩ := condition s (.question :: (ys ++ .colon :: (zs ++ rest)))
    (by rw [tokens]; simp) (.cons (by decide) _) (by omega)
  obtain ⟨u, run', colon, counted'⟩ := yes t.tail (.colon :: (zs ++ rest))
    (Cursor.tail_of_tokens asks) (.cons (by decide) _) (by rw [Cursor.nodes_tail]; omega)
  obtain ⟨v, run'', left, counted''⟩ := no u.tail rest (Cursor.tail_of_tokens colon) stops
    (by rw [Cursor.nodes_tail, counted', Cursor.nodes_tail]; omega)
  rw [Cursor.nodes_tail] at counted' counted''
  refine ⟨v.counted, ?_, left, ?_⟩
  · rw [Reader.conditional, bind_of_ok run, eat_then (Cursor.head?_of_tokens asks), bind_of_ok run',
      bind_of_ok (expect_of_eq (Cursor.head?_of_tokens colon) _), bind_of_ok run'',
      node_of_le (by omega)]
  · rw [Cursor.nodes_counted, Expr.nodeCount]
    omega

theorem Reads.minus (h : Reads limit 1 sign xs e) :
    Reads limit 1 (signed scope limit whole sign) (.minus :: xs) (.neg e) := by
  intro s rest tokens stops nodes
  rw [Expr.nodeCount] at nodes
  obtain ⟨t, run, left, counted⟩ := h s.tail rest (Cursor.tail_of_tokens tokens) stops
    (by rw [Cursor.nodes_tail]; omega)
  rw [Cursor.nodes_tail] at counted
  refine ⟨t.counted, ?_, left, ?_⟩
  · rw [signed, eat_then (Cursor.head?_of_tokens tokens), bind_of_ok run, node_of_le (by omega)]
  · rw [Cursor.nodes_counted, Expr.nodeCount]
    omega

theorem Reads.plus (h : Reads limit 1 sign xs e) :
    Reads limit 1 (signed scope limit whole sign) (.plus :: xs) e := by
  intro s rest tokens stops nodes
  obtain ⟨t, run, left, counted⟩ := h s.tail rest (Cursor.tail_of_tokens tokens) stops nodes
  refine ⟨t, ?_, left, counted⟩
  rw [signed, eat_else (by rw [tokens]; simp), eat_then (Cursor.head?_of_tokens tokens), run]

theorem Reads.unsigned {t : Token} {ts : List Token} (begins : xs = t :: ts) (minus : t ≠ .minus)
    (plus : t ≠ .plus) (h : Reads limit 1 (power scope limit whole sign) xs e) :
    Reads limit 1 (signed scope limit whole sign) xs e := by
  intro s rest tokens stops nodes
  have first : s.tokens.head? = some t := by
    rw [tokens, begins]
    rfl
  obtain ⟨s', run, left, counted⟩ := h s rest tokens stops nodes
  refine ⟨s', ?_, left, counted⟩
  rw [signed, eat_else (by simpa [first] using minus), eat_else (by simpa [first] using plus), run]

theorem Reads.base (h : Reads limit 0 (primary scope limit whole) xs e) :
    Reads limit 1 (power scope limit whole sign) xs e := by
  intro s rest tokens stops nodes
  obtain ⟨s', run, left, counted⟩ := h s rest tokens (stops.mono (by decide)) nodes
  refine ⟨s', ?_, left, counted⟩
  rw [power, bind_of_ok run, eat_else (left ▸ stops.head?_ne (by decide))]
  rfl

theorem Reads.raised (base : Reads limit 0 (primary scope limit whole) xs a)
    (exponent : Reads limit 1 sign ys b) :
    Reads limit 1 (power scope limit whole sign) (xs ++ .power :: ys) (.binary .pow a b) := by
  intro s rest tokens stops nodes
  rw [Expr.nodeCount] at nodes
  obtain ⟨t, run, raised, counted⟩ := base s (.power :: (ys ++ rest)) (by rw [tokens]; simp)
    (.cons (by decide) _) (by omega)
  obtain ⟨u, run', left, counted'⟩ := exponent t.tail rest (Cursor.tail_of_tokens raised) stops
    (by rw [Cursor.nodes_tail]; omega)
  rw [Cursor.nodes_tail] at counted'
  refine ⟨u.counted, ?_, left, ?_⟩
  · rw [power, bind_of_ok run, eat_then (Cursor.head?_of_tokens raised), bind_of_ok run',
      node_of_le (by omega)]
  · rw [Cursor.nodes_counted, Expr.nodeCount]
    omega

def ReadsAll (limit : Nat) (whole : Reader Expr) (xs : List Token) (es : List Expr) : Prop :=
  ∀ s rest rounds, s.tokens = xs ++ .closeParen :: rest →
    s.nodes + Expr.nodeCountAll es ≤ limit → xs.length < rounds.length →
      ∃ s', argumentsFrom whole rounds s = .ok (es, s') ∧ s'.tokens = rest ∧
        s'.nodes = s.nodes + Expr.nodeCountAll es

theorem Reads.one (h : Reads limit 6 whole xs e) : ReadsAll limit whole xs [e] := by
  intro s rest rounds tokens nodes enough
  rw [Expr.nodeCountAll, Expr.nodeCountAll, Nat.add_zero] at nodes ⊢
  obtain ⟨_, rounds, rfl⟩ := List.exists_cons_of_length_pos (Nat.zero_lt_of_lt enough)
  obtain ⟨t, run, close, counted⟩ := h s (.closeParen :: rest) tokens (.cons (by decide) _) nodes
  refine ⟨t.tail, ?_, Cursor.tail_of_tokens close, counted⟩
  rw [argumentsFrom, bind_of_ok run, eat_else (by rw [close]; simp),
    bind_of_ok (expect_of_eq (Cursor.head?_of_tokens close) _)]
  rfl

theorem Reads.more {es : List Expr} (h : Reads limit 6 whole xs e)
    (hs : ReadsAll limit whole ys es) : ReadsAll limit whole (xs ++ .comma :: ys) (e :: es) := by
  intro s rest rounds tokens nodes enough
  rw [Expr.nodeCountAll] at nodes ⊢
  rw [List.length_append, List.length_cons] at enough
  obtain ⟨_, rounds, rfl⟩ := List.exists_cons_of_length_pos (Nat.zero_lt_of_lt enough)
  rw [List.length_cons] at enough
  obtain ⟨t, run, comma, counted⟩ := h s (.comma :: (ys ++ .closeParen :: rest))
    (by rw [tokens]; simp) (.cons (by decide) _) (by omega)
  obtain ⟨u, run', left, counted'⟩ := hs t.tail rest rounds (Cursor.tail_of_tokens comma)
    (by rw [Cursor.nodes_tail]; omega) (by omega)
  rw [Cursor.nodes_tail] at counted'
  refine ⟨u, ?_, left, by omega⟩
  rw [argumentsFrom, bind_of_ok run, eat_then (Cursor.head?_of_tokens comma), bind_of_ok run']
  rfl

def ReadsCall (limit : Nat) (whole : Reader Expr) (xs : List Token) (args : List Expr) : Prop :=
  ∀ s rest, s.tokens = .openParen :: (xs ++ .closeParen :: rest) →
    s.nodes + Expr.nodeCountAll args ≤ limit → ∃ s', arguments whole s = .ok (args, s') ∧
      s'.tokens = rest ∧ s'.nodes = s.nodes + Expr.nodeCountAll args

theorem readsCall_nil : ReadsCall limit whole [] [] := by
  intro s rest tokens _
  have close := Cursor.tail_of_tokens tokens
  refine ⟨s.tail.tail, ?_, Cursor.tail_of_tokens close, rfl⟩
  rw [arguments, bind_of_ok get_apply, bind_of_ok next_apply,
    eat_then (Cursor.head?_of_tokens close)]
  rfl

theorem ReadsAll.call {args : List Expr} {t : Token} {ts : List Token} (begins : xs = t :: ts)
    (opens : t ≠ .closeParen) (h : ReadsAll limit whole xs args) :
    ReadsCall limit whole xs args := by
  intro s rest tokens nodes
  have inner := Cursor.tail_of_tokens tokens
  have first : s.tail.tokens.head? = some t := by
    rw [inner, begins]
    rfl
  have enough : xs.length < s.rest.length := by
    rw [Cursor.length_rest, tokens]
    simp only [List.length_cons, List.length_append]
    omega
  obtain ⟨s', run, left, counted⟩ := h s.tail rest s.rest inner nodes enough
  refine ⟨s', ?_, left, counted⟩
  rw [arguments, bind_of_ok get_apply, bind_of_ok next_apply,
    eat_else (fun close => opens (Option.some.inj (first.symm.trans close))), run]

section
variable {asMember : Bool} {word shown : String} {position : Nat} {s : Cursor} {rest : List Token}

theorem mathWord_of_constant {v : Float} (found : constant? asMember word = some v)
    (stops : s.tokens.head? ≠ some .openParen) (nodes : s.nodes + 1 ≤ limit) :
    mathWord limit whole asMember word shown position s = .ok (.number v, s.counted) := by
  rw [mathWord, sees_else stops]
  simp only [found]
  exact node_of_le nodes _

theorem mathWord_of_call {f : MathFunction} {args : List Expr} (found : function? word = some f)
    (arity : f.arity.accepts args.length = true) (h : ReadsCall limit whole xs args)
    (tokens : s.tokens = .openParen :: (xs ++ .closeParen :: rest))
    (nodes : s.nodes + (Expr.call f args).nodeCount ≤ limit) :
    ∃ s', mathWord limit whole asMember word shown position s = .ok (.call f args, s') ∧
      s'.tokens = rest ∧ s'.nodes = s.nodes + (Expr.call f args).nodeCount := by
  rw [Expr.nodeCount] at nodes ⊢
  obtain ⟨t, run, left, counted⟩ := h s rest tokens (by omega)
  refine ⟨t.counted, ?_, left, ?_⟩
  · rw [mathWord, sees_then (Cursor.head?_of_tokens tokens)]
    simp only [found]
    rw [bind_of_ok run, if_pos arity, node_of_le (by omega)]
  · rw [Cursor.nodes_counted]
    omega

theorem boundName_of_le {i : Nat} (stops : s.tokens.head? ≠ some .openParen)
    (nodes : s.nodes + 1 ≤ limit) :
    boundName limit i shown position s = .ok (.slot i, s.counted) := by
  rw [boundName, sees_else stops, node_of_le nodes]

theorem next_of_tokens {t : Token} {ts : List Token} (h : s.tokens = t :: ts) :
    ∃ start width, next s = .ok (some ⟨t, start, width⟩, s.tail) := by
  obtain ⟨⟨token, start, width⟩, first, same⟩ : ∃ l, s.rest.head? = some l ∧ l.token = t := by
    rw [← Option.map_eq_some_iff, Cursor.head?_tokens, h]
    rfl
  cases same
  exact ⟨start, width, by rw [next_apply, first]⟩

theorem primary_of_name (tokens : s.tokens = .name word :: rest) :
    ∃ position, primary scope limit whole s = named scope limit whole word position s.tail := by
  obtain ⟨start, width, taken⟩ := next_of_tokens tokens
  refine ⟨start, ?_⟩
  rw [primary, bind_of_ok taken]

theorem named_of_slot {i : Nat} (found : scope.slot? word = some i)
    (root : ¬(word = valuesRoot ∨ word = mathRoot)) (plain : s.tokens.head? ≠ some .dot) :
    named scope limit whole word position s = boundName limit i word position s := by
  rw [named, eat_else plain, if_neg root]
  simp only [found]

theorem named_of_free (free : scope.slot? word = none)
    (root : ¬(word = valuesRoot ∨ word = mathRoot)) (plain : s.tokens.head? ≠ some .dot) :
    named scope limit whole word position s =
      mathWord limit whole false word word position s := by
  rw [named, eat_else plain, if_neg root]
  simp only [free]

theorem primary_of_member {root : String}
    (tokens : s.tokens = .name root :: .dot :: .name word :: rest)
    (ends : rest.head? ≠ some .dot) : ∃ position t, t.tokens = rest ∧ t.nodes = s.nodes ∧
      (∀ i, root = valuesRoot → scope.slot? word = some i →
        primary scope limit whole s = boundName limit i (root ++ "." ++ word) position t) ∧
      (root = mathRoot →
        primary scope limit whole s =
          mathWord limit whole true word (root ++ "." ++ word) position t) := by
  obtain ⟨position, run⟩ := primary_of_name tokens
  have dotted := Cursor.tail_of_tokens tokens
  have left := Cursor.tail_of_tokens dotted
  have behind := Cursor.tail_of_tokens left
  obtain ⟨start, width, taken⟩ := next_of_tokens left
  have named : memberName s.tail.tail = .ok (word, s.tail.tail.tail) := by
    rw [memberName, bind_of_ok taken]
    rfl
  rw [run, Reader.named, eat_then (Cursor.head?_of_tokens dotted), member, bind_of_ok named,
    sees_else (by rwa [behind])]
  refine ⟨position, s.tail.tail.tail, behind, rfl, ?_, ?_⟩
  · intro i values found
    rw [if_pos values]
    simp only [found]
  · intro math
    rw [if_neg (by rw [math]; decide), if_pos math]

end

theorem Reads.number (v : Float) :
    Reads limit 0 (primary scope limit whole) [.number v] (.number v) := by
  intro s rest tokens _ nodes
  obtain ⟨start, width, taken⟩ := next_of_tokens tokens
  refine ⟨s.tail.counted, ?_, Cursor.tail_of_tokens tokens, rfl⟩
  rw [primary, bind_of_ok taken]
  exact node_of_le (s := s.tail) nodes _

theorem Reads.group (h : Reads limit 6 whole xs e) :
    Reads limit 0 (primary scope limit whole) (.openParen :: (xs ++ [.closeParen])) e := by
  intro s rest tokens _ nodes
  obtain ⟨start, width, taken⟩ := next_of_tokens tokens
  obtain ⟨t, run, close, counted⟩ := h s.tail (.closeParen :: rest)
    (by rw [Cursor.tail_of_tokens tokens]; simp) (.cons (by decide) _) nodes
  refine ⟨t.tail, ?_, Cursor.tail_of_tokens close, counted⟩
  rw [primary, bind_of_ok taken]
  show (do let e ← whole; expect .closeParen .closeParen; return e) s.tail = _
  rw [bind_of_ok run, bind_of_ok (expect_of_eq (Cursor.head?_of_tokens close) _)]
  rfl

theorem Reads.slot {name : String} {i : Nat} (found : scope.slot? name = some i) :
    Reads limit 0 (primary scope limit whole) [.name name] (.slot i) := by
  intro s rest tokens stops nodes
  have behind : s.tail.tokens = rest := Cursor.tail_of_tokens tokens
  obtain ⟨position, run⟩ := primary_of_name tokens
  refine ⟨s.tail.counted, ?_, behind, rfl⟩
  rw [run, named_of_slot found (Scope.no_root_of_slot? found)
      (behind ▸ stops.head?_ne (Nat.le_refl _))]
  exact boundName_of_le (behind ▸ stops.head?_ne (Nat.le_refl _)) nodes

theorem Reads.valuesSlot {name : String} {i : Nat} (found : scope.slot? name = some i) :
    Reads limit 0 (primary scope limit whole) [.name valuesRoot, .dot, .name name] (.slot i) := by
  intro s rest tokens stops nodes
  obtain ⟨position, t, behind, same, run, _⟩ := primary_of_member tokens
    (stops.head?_ne (Nat.le_refl _))
  refine ⟨t.counted, ?_, behind, congrArg (· + 1) same⟩
  rw [run i rfl found, boundName_of_le (behind ▸ stops.head?_ne (Nat.le_refl _)) (same ▸ nodes)]

theorem Reads.constant {name : String} {v : Float} (found : constant? false name = some v) :
    Reads limit 0 (primary scope limit whole) [.name name] (.number v) := by
  intro s rest tokens stops nodes
  have behind : s.tail.tokens = rest := Cursor.tail_of_tokens tokens
  obtain ⟨position, run⟩ := primary_of_name tokens
  refine ⟨s.tail.counted, ?_, behind, rfl⟩
  rw [run, named_of_free (scope.slot?_of_reserved (isReserved_of_constant? found))
      (no_root_of_constant? found) (behind ▸ stops.head?_ne (Nat.le_refl _))]
  exact mathWord_of_constant found (behind ▸ stops.head?_ne (Nat.le_refl _)) nodes

theorem Reads.mathConstant {name : String} {v : Float} (found : constant? true name = some v) :
    Reads limit 0 (primary scope limit whole) [.name mathRoot, .dot, .name name] (.number v) := by
  intro s rest tokens stops nodes
  obtain ⟨position, t, behind, same, _, run⟩ := primary_of_member tokens
    (stops.head?_ne (Nat.le_refl _))
  refine ⟨t.counted, ?_, behind, congrArg (· + 1) same⟩
  rw [run rfl, mathWord_of_constant found (behind ▸ stops.head?_ne (Nat.le_refl _)) (same ▸ nodes)]

section
variable {name : String} {f : MathFunction} {args : List Expr}

theorem ReadsCall.bare (h : ReadsCall limit whole xs args) (found : function? name = some f)
    (arity : f.arity.accepts args.length = true) :
    Reads limit 0 (primary scope limit whole) (.name name :: .openParen :: (xs ++ [.closeParen]))
      (.call f args) := by
  intro s rest tokens _ nodes
  have behind := Cursor.tail_of_tokens tokens
  obtain ⟨position, run⟩ := primary_of_name tokens
  rw [run, named_of_free (scope.slot?_of_reserved (isReserved_of_function? found))
    (no_root_of_function? found) (by rw [behind]; simp)]
  exact mathWord_of_call found arity h (by rw [behind]; simp) nodes

theorem ReadsCall.member (h : ReadsCall limit whole xs args) (found : function? name = some f)
    (arity : f.arity.accepts args.length = true) :
    Reads limit 0 (primary scope limit whole)
      (.name mathRoot :: .dot :: .name name :: .openParen :: (xs ++ [.closeParen]))
      (.call f args) := by
  intro s rest tokens _ nodes
  have called : s.tokens = .name mathRoot :: .dot :: .name name ::
      .openParen :: (xs ++ .closeParen :: rest) := by
    rw [tokens]
    simp
  obtain ⟨position, t, behind, same, _, run⟩ := primary_of_member called (by simp)
  rw [run rfl, ← same]
  exact mathWord_of_call found arity h behind (same ▸ nodes)

end

def ofLevel (scope : Scope) (limits : Limits) (room : Nat) (level : Level) : Reader Expr :=
  let limit := limits.nodes
  let whole := Reader.whole scope limits room
  let sign := Reader.sign scope limits room
  match level with
  | .whole => whole
  | .tier .equality => operators limit sign
  | .tier .comparison => chain limit comparisonOp (chain limit sumOp (chain limit productOp sign))
  | .tier .sum => chain limit sumOp (chain limit productOp sign)
  | .tier .product => chain limit productOp sign
  | .sign => sign
  | .power => power scope limit whole sign
  | .primary => primary scope limit whole

theorem ofLevel_tier (scope : Scope) (limits : Limits) (room : Nat) (tier : Tier) :
    ofLevel scope limits room (.tier tier) =
      chain limits.nodes (opOf tier) (ofLevel scope limits room tier.operand) := by
  cases tier <;> rfl

end
/-- What a derivation comes to for the readers. A phrase of a tier is not yet at its end. -/
def Served (scope : Scope) (limits : Limits) (room : Nat) (xs : List Token) (e : Expr) : Level → Prop
  | .tier tier => ReadsOn limits.nodes tier (ofLevel scope limits room tier.operand) xs e
  | level => Reads limits.nodes level.looseness (ofLevel scope limits room level) xs e

theorem Served.reads {scope : Scope} {limits : Limits} {room : Nat} {xs : List Token} {e : Expr}
    {level : Level} (h : Served scope limits room xs e level) :
    Reads limits.nodes level.looseness (ofLevel scope limits room level) xs e := by
  cases level with
  | tier tier =>
    rw [ofLevel_tier]
    exact ReadsOn.reads h
  | _ => exact h

end Reader

open Reader

theorem DerivesAll.call {scope : Scope} {room limit : Nat} {whole : Reader Expr} {xs : List Token}
    {es : List Expr} (h : DerivesAll scope room xs es) (reads : es ≠ [] → ReadsAll limit whole xs es) :
    ReadsCall limit whole xs es := by
  cases h with
  | nothing => exact readsCall_nil
  | one h =>
    obtain ⟨t, ts, begins, opens⟩ := h.begins
    exact (reads (by simp)).call begins opens
  | more h _ =>
    obtain ⟨t, ts, rfl, opens⟩ := h.begins
    exact (reads (by simp)).call rfl opens

variable {scope : Scope} {limits : Limits}

mutual
theorem Derives.served {room : Nat} {level : Level} {xs : List Token} {e : Expr} :
    Derives scope room level xs e → Served scope limits room xs e level
  | .bare h => by
    show Reads _ _ (Reader.whole scope limits _) _ _
    rw [Reader.whole]
    exact Reads.bare h.served.reads
  | .conditional c t e => by
    show Reads _ _ (Reader.whole scope limits _) _ _
    rw [Reader.whole]
    exact Reads.choice c.served.reads t.served.reads e.served.reads
  | .operand h => h.served.reads.readsOn
  | .binary a written b => ReadsOn.binary a.served written b.served.reads
  | .minus h => by
    show Reads _ _ (Reader.sign scope limits _) _ _
    rw [Reader.sign]
    exact Reads.minus h.served.reads
  | .plus h => by
    show Reads _ _ (Reader.sign scope limits _) _ _
    rw [Reader.sign]
    exact Reads.plus h.served.reads
  | .unsigned h => by
    show Reads _ _ (Reader.sign scope limits _) _ _
    rw [Reader.sign]
    obtain ⟨t, ts, begins, minus, plus⟩ := h.begins_unsigned
    exact Reads.unsigned begins minus plus h.served.reads
  | .base h => Reads.base h.served.reads
  | .power a b => Reads.raised a.served.reads b.served.reads
  | .number => Reads.number _
  | .group h => Reads.group h.served.reads
  | .slot found => Reads.slot found
  | .valuesSlot found => Reads.valuesSlot found
  | .constant found => Reads.constant found
  | .mathConstant found => Reads.mathConstant found
  | .call found args arity => (args.call args.served).bare found arity
  | .mathCall found args arity => (args.call args.served).member found arity
theorem DerivesAll.served {room : Nat} {xs : List Token} {es : List Expr} :
    DerivesAll scope room xs es → es ≠ [] →
      ReadsAll limits.nodes (Reader.whole scope limits room) xs es
  | .nothing => fun none => absurd rfl none
  | .one h => fun _ => Reads.one h.served.reads
  | .more h hs => fun _ => Reads.more h.served.reads (hs.served (by simp))
end

/-- Exactly what derives as a whole within the limits is accepted, and with the tree of the
derivation. -/
theorem ofLexemes_eq_ok_iff {ls : List Lexeme} {e : Expr} :
    Expr.ofLexemes scope limits ls = .ok e ↔
      Derives scope limits.depth .whole (ls.map (·.token)) e ∧ e.nodeCount ≤ limits.nodes := by
  constructor
  · exact derives_of_ofLexemes
  · rintro ⟨derives, nodes⟩
    obtain ⟨s, run, left, _⟩ := derives.served.reads ⟨ls, 0⟩ []
      (by rw [List.append_nil]; rfl) (by intro t first; cases first)
      (by rw [Nat.zero_add]; exact nodes)
    obtain ⟨rest, count⟩ := s
    obtain rfl : rest = [] := List.map_eq_nil_iff.mp left
    have run : Reader.whole scope limits limits.depth ⟨ls, 0⟩ = .ok (e, ⟨[], count⟩) := run
    rw [Expr.ofLexemes, StateT.run, run]
    rfl

end BuildingCode.Expression

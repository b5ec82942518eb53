import BuildingCode.Machine.Run
import BuildingCode.Proofs.Expression.Parsing

/-! How deep a text nests, told by its derivation alone. Readers run out of room below exactly that
depth, so each limit cuts off the texts that measure more and changes nothing for the others. -/
namespace BuildingCode.Expression

mutual
/-- The tokens derive from the level and have the tree. Every whole expression and every signed
operand is one level of nesting, and `depth` is how many lie within each other where most do. -/
inductive Nests (scope : Scope) : (depth : Nat) → Level → List Token → Expr → Prop
  | bare {k xs e} : Nests scope k (.tier .equality) xs e → Nests scope (k + 1) .whole xs e
  | conditional {k l m xs ys zs c t e} : Nests scope k (.tier .equality) xs c →
      Nests scope l .whole ys t → Nests scope m .whole zs e →
        Nests scope (max k (max l m) + 1) .whole (xs ++ .question :: (ys ++ .colon :: zs))
          (.conditional c t e)
  | operand {k tier xs e} : Nests scope k tier.operand xs e → Nests scope k (.tier tier) xs e
  | binary {k l tier token op xs ys a b} : Nests scope k (.tier tier) xs a →
      tier.Writes token op → Nests scope l tier.operand ys b →
        Nests scope (max k l) (.tier tier) (xs ++ token :: ys) (.binary op a b)
  | minus {k xs e} : Nests scope k .sign xs e → Nests scope (k + 1) .sign (.minus :: xs) (.neg e)
  | plus {k xs e} : Nests scope k .sign xs e → Nests scope (k + 1) .sign (.plus :: xs) e
  | unsigned {k xs e} : Nests scope k .power xs e → Nests scope (k + 1) .sign xs e
  | base {k xs e} : Nests scope k .primary xs e → Nests scope k .power xs e
  | power {k l xs ys a b} : Nests scope k .primary xs a → Nests scope l .sign ys b →
      Nests scope (max k l) .power (xs ++ .power :: ys) (.binary .pow a b)
  | number {v} : Nests scope 0 .primary [.number v] (.number v)
  | group {k xs e} : Nests scope k .whole xs e →
      Nests scope k .primary (.openParen :: (xs ++ [.closeParen])) e
  | slot {name i} : scope.slot? name = some i → Nests scope 0 .primary [.name name] (.slot i)
  | valuesSlot {name i} : scope.slot? name = some i →
      Nests scope 0 .primary [.name valuesRoot, .dot, .name name] (.slot i)
  | constant {name v} : constant? false name = some v →
      Nests scope 0 .primary [.name name] (.number v)
  | mathConstant {name v} : constant? true name = some v →
      Nests scope 0 .primary [.name mathRoot, .dot, .name name] (.number v)
  | call {k name f xs args} : function? name = some f → NestsAll scope k xs args →
      f.arity.accepts args.length = true →
        Nests scope k .primary (.name name :: .openParen :: (xs ++ [.closeParen])) (.call f args)
  | mathCall {k name f xs args} : function? name = some f → NestsAll scope k xs args →
      f.arity.accepts args.length = true →
        Nests scope k .primary
          (.name mathRoot :: .dot :: .name name :: .openParen :: (xs ++ [.closeParen])) (.call f args)
inductive NestsAll (scope : Scope) : (depth : Nat) → List Token → List Expr → Prop
  | nothing : NestsAll scope 0 [] []
  | one {k xs e} : Nests scope k .whole xs e → NestsAll scope k xs [e]
  | more {k l xs ys e e' es} : Nests scope k .whole xs e → NestsAll scope l ys (e' :: es) →
      NestsAll scope (max k l) (xs ++ .comma :: ys) (e :: e' :: es)
end

variable {scope : Scope}

mutual
theorem Derives.exists_nests {room : Nat} {level : Level} {xs : List Token} {e : Expr} :
    Derives scope room level xs e → ∃ depth ≤ room, Nests scope depth level xs e
  | .bare h => by
    obtain ⟨k, le, h⟩ := h.exists_nests
    exact ⟨_, Nat.succ_le_succ le, .bare h⟩
  | .conditional c t e => by
    obtain ⟨k, le, c⟩ := c.exists_nests
    obtain ⟨l, le', t⟩ := t.exists_nests
    obtain ⟨m, le'', e⟩ := e.exists_nests
    exact ⟨_, Nat.succ_le_succ (Nat.max_le.mpr ⟨le, Nat.max_le.mpr ⟨le', le''⟩⟩),
      .conditional c t e⟩
  | .operand h => by
    obtain ⟨k, le, h⟩ := h.exists_nests
    exact ⟨k, le, .operand h⟩
  | .binary a written b => by
    obtain ⟨k, le, a⟩ := a.exists_nests
    obtain ⟨l, le', b⟩ := b.exists_nests
    exact ⟨_, Nat.max_le.mpr ⟨le, le'⟩, .binary a written b⟩
  | .minus h => by
    obtain ⟨k, le, h⟩ := h.exists_nests
    exact ⟨_, Nat.succ_le_succ le, .minus h⟩
  | .plus h => by
    obtain ⟨k, le, h⟩ := h.exists_nests
    exact ⟨_, Nat.succ_le_succ le, .plus h⟩
  | .unsigned h => by
    obtain ⟨k, le, h⟩ := h.exists_nests
    exact ⟨_, Nat.succ_le_succ le, .unsigned h⟩
  | .base h => by
    obtain ⟨k, le, h⟩ := h.exists_nests
    exact ⟨k, le, .base h⟩
  | .power a b => by
    obtain ⟨k, le, a⟩ := a.exists_nests
    obtain ⟨l, le', b⟩ := b.exists_nests
    exact ⟨_, Nat.max_le.mpr ⟨le, le'⟩, .power a b⟩
  | .number => ⟨0, Nat.zero_le _, .number⟩
  | .group h => by
    obtain ⟨k, le, h⟩ := h.exists_nests
    exact ⟨k, le, .group h⟩
  | .slot found => ⟨0, Nat.zero_le _, .slot found⟩
  | .valuesSlot found => ⟨0, Nat.zero_le _, .valuesSlot found⟩
  | .constant found => ⟨0, Nat.zero_le _, .constant found⟩
  | .mathConstant found => ⟨0, Nat.zero_le _, .mathConstant found⟩
  | .call found args arity => by
    obtain ⟨k, le, args⟩ := args.exists_nests
    exact ⟨k, le, .call found args arity⟩
  | .mathCall found args arity => by
    obtain ⟨k, le, args⟩ := args.exists_nests
    exact ⟨k, le, .mathCall found args arity⟩
theorem DerivesAll.exists_nests {room : Nat} {xs : List Token} {es : List Expr} :
    DerivesAll scope room xs es → ∃ depth ≤ room, NestsAll scope depth xs es
  | .nothing => ⟨0, Nat.zero_le _, .nothing⟩
  | .one h => by
    obtain ⟨k, le, h⟩ := h.exists_nests
    exact ⟨k, le, .one h⟩
  | .more h hs => by
    obtain ⟨k, le, h⟩ := h.exists_nests
    obtain ⟨l, le', hs⟩ := hs.exists_nests
    exact ⟨_, Nat.max_le.mpr ⟨le, le'⟩, .more h hs⟩
end

mutual
theorem Nests.derives {depth : Nat} {level : Level} {xs : List Token} {e : Expr} :
    Nests scope depth level xs e → Derives scope depth level xs e
  | .bare h => .bare h.derives
  | .conditional c t e =>
    .conditional (c.derives.mono (by omega)) (t.derives.mono (by omega))
      (e.derives.mono (by omega))
  | .operand h => .operand h.derives
  | .binary a written b =>
    .binary (a.derives.mono (Nat.le_max_left _ _)) written (b.derives.mono (Nat.le_max_right _ _))
  | .minus h => .minus h.derives
  | .plus h => .plus h.derives
  | .unsigned h => .unsigned h.derives
  | .base h => .base h.derives
  | .power a b =>
    .power (a.derives.mono (Nat.le_max_left _ _)) (b.derives.mono (Nat.le_max_right _ _))
  | .number => .number
  | .group h => .group h.derives
  | .slot found => .slot found
  | .valuesSlot found => .valuesSlot found
  | .constant found => .constant found
  | .mathConstant found => .mathConstant found
  | .call found args arity => .call found args.derives arity
  | .mathCall found args arity => .mathCall found args.derives arity
theorem NestsAll.derives {depth : Nat} {xs : List Token} {es : List Expr} :
    NestsAll scope depth xs es → DerivesAll scope depth xs es
  | .nothing => .nothing
  | .one h => .one h.derives
  | .more h hs =>
    .more (h.derives.mono (Nat.le_max_left _ _)) (hs.derives.mono (Nat.le_max_right _ _))
end

namespace Reader

/-- The reader takes the tokens in front of any that do not go on with them only if `p` holds. -/
def Demands (limit looseness : Nat) (r : Reader Expr) (xs : List Token) (e : Expr) (p : Prop) : Prop :=
  ∀ s rest result, s.tokens = xs ++ rest → Stops looseness rest → s.nodes + e.nodeCount ≤ limit →
    r s = .ok result → p

theorem Demands.of_bind {limit looseness : Nat} {r : Reader Expr} {xs : List Token} {e : Expr}
    {p : Prop} {s : Cursor} {f : Expr → Reader α} {result : α × Cursor}
    (h : Demands limit looseness r xs e p) (read : p → Reads limit looseness r xs e)
    (rest : List Token) (tokens : s.tokens = xs ++ rest) (stops : Stops looseness rest)
    (nodes : s.nodes + e.nodeCount ≤ limit) (run : (r >>= f) s = .ok result) :
    p ∧ ∃ t, t.tokens = rest ∧ t.nodes = s.nodes + e.nodeCount ∧ f e t = .ok result := by
  obtain ⟨b, s'⟩ := result
  obtain ⟨_, _, first, _⟩ := bind_eq_ok.mp run
  have holds : p := h s rest _ tokens stops nodes first
  -- Now that there is room for the phrase, completeness tells where its reader has come to.
  obtain ⟨t, taken, left, counted⟩ := read holds s rest tokens stops nodes
  rw [bind_of_ok taken] at run
  exact ⟨holds, t, left, counted, run⟩

theorem Demands.bind {limit looseness : Nat} {r : Reader Expr} {f : Expr → Reader Expr}
    {xs : List Token} {e e' : Expr} {p : Prop} (h : Demands limit looseness r xs e p)
    (count : e.nodeCount ≤ e'.nodeCount) : Demands limit looseness (r >>= f) xs e' p := by
  intro s rest ⟨b, s'⟩ tokens stops nodes run
  obtain ⟨_, _, first, _⟩ := bind_eq_ok.mp run
  exact h s rest _ tokens stops (by omega) first

theorem Demands.imp {limit looseness : Nat} {r : Reader Expr} {xs : List Token} {e : Expr}
    {p q : Prop} (h : Demands limit looseness r xs e p) (weaker : p → q) :
    Demands limit looseness r xs e q :=
  fun s rest result tokens stops nodes run => weaker (h s rest result tokens stops nodes run)

theorem Demands.mono {limit looseness looseness' : Nat} {r : Reader Expr} {xs : List Token} {e : Expr}
    {p : Prop} (h : Demands limit looseness r xs e p) (le : looseness ≤ looseness') :
    Demands limit looseness' r xs e p :=
  fun s rest result tokens stops => h s rest result tokens (stops.mono le)

section
variable {limit : Nat} {tier : Tier} {operand : Reader Expr} {p q : Prop}

/-- What a phrase of a tier demands wherever the chain goes on behind it. -/
def DemandsOn (limit : Nat) (tier : Tier) (operand : Reader Expr) (xs : List Token) (e : Expr)
    (p : Prop) : Prop :=
  Demands limit tier.operand.looseness (chain limit (opOf tier) operand) xs e p

theorem DemandsOn.binary {xs ys : List Token} {a b : Expr} {token : Token} {op : BinaryOp}
    (left : DemandsOn limit tier operand xs a p) (read : p → ReadsOn limit tier operand xs a)
    (written : tier.Writes token op)
    (right : Demands limit tier.operand.looseness operand ys b q) :
    DemandsOn limit tier operand (xs ++ token :: ys) (.binary op a b) (p ∧ q) := by
  intro s rest result tokens stops nodes run
  rw [Expr.nodeCount] at nodes
  have tokens : s.tokens = xs ++ token :: (ys ++ rest) := by simp [tokens]
  have tighter : Stops tier.operand.looseness (token :: (ys ++ rest)) := by
    refine .cons ?_ _
    rw [written.looseness]
    exact tier.operand_looseness_lt
  have holds : p := left s _ result tokens tighter (by omega) run
  obtain ⟨t, rounds, same, behind, counted, enough⟩ := read holds s _ tokens tighter (by omega)
  obtain ⟨l, rounds, rfl⟩ := List.exists_cons_of_length_pos (Nat.zero_lt_of_lt enough)
  have next : t.tokens.head?.bind (opOf tier) = some op := by
    rw [behind]
    exact opOf_eq_some_iff.mpr written
  rw [same, chainFrom_of_some next] at run
  obtain ⟨b', s'⟩ := result
  obtain ⟨_, _, taken, _⟩ := bind_eq_ok.mp run
  exact ⟨holds, right t.tail rest _ (Cursor.tail_of_tokens behind) stops
    (by rw [Cursor.nodes_tail]; omega) taken⟩

end

section
variable {scope : Scope} {limit : Nat} {whole sign : Reader Expr} {xs ys zs : List Token}
  {a b c e : Expr} {p q r : Prop}

theorem Demands.choice (condition : Demands limit 5 (operators limit sign) xs c p)
    (read : p → Reads limit 5 (operators limit sign) xs c) (yes : Demands limit 6 whole ys a q)
    (read' : q → Reads limit 6 whole ys a) (no : Demands limit 6 whole zs b r) :
    Demands limit 6 (conditional limit whole sign) (xs ++ .question :: (ys ++ .colon :: zs))
      (.conditional c a b) (p ∧ q ∧ r) := by
  intro s rest ⟨e, s'⟩ tokens stops nodes run
  rw [Expr.nodeCount] at nodes
  obtain ⟨first, t, asks, counted, run⟩ := condition.of_bind read
    (.question :: (ys ++ .colon :: (zs ++ rest))) (by simp [tokens]) (.cons (by decide) _)
    (by omega) run
  rw [eat_then (Cursor.head?_of_tokens asks)] at run
  obtain ⟨second, u, colon, counted', run⟩ := yes.of_bind read'
    (.colon :: (zs ++ rest)) (Cursor.tail_of_tokens asks) (.cons (by decide) _)
    (by rw [Cursor.nodes_tail]; omega) run
  rw [Cursor.nodes_tail] at counted'
  rw [bind_of_ok (expect_of_eq (Cursor.head?_of_tokens colon) _)] at run
  obtain ⟨_, _, taken, _⟩ := bind_eq_ok.mp run
  exact ⟨first, second, no u.tail rest _ (Cursor.tail_of_tokens colon) stops
    (by rw [Cursor.nodes_tail]; omega) taken⟩

theorem Demands.minus (h : Demands limit 1 sign xs e p) :
    Demands limit 1 (signed scope limit whole sign) (.minus :: xs) (.neg e) p := by
  intro s rest ⟨b, s'⟩ tokens stops nodes run
  rw [Expr.nodeCount] at nodes
  rw [signed, eat_then (Cursor.head?_of_tokens tokens)] at run
  obtain ⟨_, _, taken, _⟩ := bind_eq_ok.mp run
  exact h s.tail rest _ (Cursor.tail_of_tokens tokens) stops (by rw [Cursor.nodes_tail]; omega) taken

theorem Demands.plus (h : Demands limit 1 sign xs e p) :
    Demands limit 1 (signed scope limit whole sign) (.plus :: xs) e p := by
  intro s rest result tokens stops nodes run
  rw [signed, eat_else (by rw [tokens]; simp), eat_then (Cursor.head?_of_tokens tokens)] at run
  exact h s.tail rest _ (Cursor.tail_of_tokens tokens) stops nodes run

theorem Demands.unsigned {t : Token} {ts : List Token} (begins : xs = t :: ts) (minus : t ≠ .minus)
    (plus : t ≠ .plus) (h : Demands limit 1 (power scope limit whole sign) xs e p) :
    Demands limit 1 (signed scope limit whole sign) xs e p := by
  intro s rest result tokens stops nodes run
  have first : s.tokens.head? = some t := by
    rw [tokens, begins]
    rfl
  rw [signed, eat_else (by simpa [first] using minus), eat_else (by simpa [first] using plus)] at run
  exact h s rest _ tokens stops nodes run

theorem Demands.raised (base : Demands limit 0 (primary scope limit whole) xs a p)
    (read : p → Reads limit 0 (primary scope limit whole) xs a)
    (exponent : Demands limit 1 sign ys b q) :
    Demands limit 1 (power scope limit whole sign) (xs ++ .power :: ys) (.binary .pow a b)
      (p ∧ q) := by
  intro s rest ⟨e, s'⟩ tokens stops nodes run
  rw [Expr.nodeCount] at nodes
  obtain ⟨first, t, raised, counted, run⟩ := base.of_bind read (.power :: (ys ++ rest))
    (by simp [tokens]) (.cons (by decide) _) (by omega) run
  rw [eat_then (Cursor.head?_of_tokens raised)] at run
  obtain ⟨_, _, taken, _⟩ := bind_eq_ok.mp run
  exact ⟨first, exponent t.tail rest _ (Cursor.tail_of_tokens raised) stops
    (by rw [Cursor.nodes_tail]; omega) taken⟩

theorem Demands.group (h : Demands limit 6 whole xs e p) :
    Demands limit 0 (primary scope limit whole) (.openParen :: (xs ++ [.closeParen])) e p := by
  intro s rest ⟨b, s'⟩ tokens _ nodes run
  obtain ⟨start, width, taken⟩ := next_of_tokens tokens
  rw [primary, bind_of_ok taken] at run
  have run : (do let e ← whole; expect .closeParen .closeParen; return e) s.tail = .ok (b, s') := run
  obtain ⟨_, _, inner, _⟩ := bind_eq_ok.mp run
  exact h s.tail (.closeParen :: rest) _ (by rw [Cursor.tail_of_tokens tokens]; simp)
    (.cons (by decide) _) nodes inner

def DemandsAll (limit : Nat) (whole : Reader Expr) (xs : List Token) (es : List Expr) (p : Prop) :
    Prop :=
  ∀ s rest rounds result, s.tokens = xs ++ .closeParen :: rest →
    s.nodes + Expr.nodeCountAll es ≤ limit → argumentsFrom whole rounds s = .ok result → p

theorem Demands.one (h : Demands limit 6 whole xs e p) : DemandsAll limit whole xs [e] p := by
  intro s rest rounds ⟨es, s'⟩ tokens nodes run
  rw [Expr.nodeCountAll, Expr.nodeCountAll] at nodes
  cases rounds with
  | nil => cases run
  | cons l rounds =>
    obtain ⟨_, _, taken, _⟩ := bind_eq_ok.mp run
    exact h s (.closeParen :: rest) _ tokens (.cons (by decide) _) nodes taken

theorem Demands.more {es : List Expr} (h : Demands limit 6 whole xs e p)
    (read : p → Reads limit 6 whole xs e) (hs : DemandsAll limit whole ys es q) :
    DemandsAll limit whole (xs ++ .comma :: ys) (e :: es) (p ∧ q) := by
  intro s rest rounds ⟨es', s'⟩ tokens nodes run
  rw [Expr.nodeCountAll] at nodes
  cases rounds with
  | nil => cases run
  | cons l rounds =>
    obtain ⟨first, t, comma, counted, run⟩ := h.of_bind read
      (.comma :: (ys ++ .closeParen :: rest)) (by simp [tokens]) (.cons (by decide) _)
      (by omega) run
    rw [eat_then (Cursor.head?_of_tokens comma)] at run
    obtain ⟨_, _, taken, _⟩ := bind_eq_ok.mp run
    exact ⟨first, hs t.tail rest rounds _ (Cursor.tail_of_tokens comma)
      (by rw [Cursor.nodes_tail]; omega) taken⟩

def DemandsCall (limit : Nat) (whole : Reader Expr) (xs : List Token) (args : List Expr) (p : Prop) :
    Prop :=
  ∀ s rest result, s.tokens = .openParen :: (xs ++ .closeParen :: rest) →
    s.nodes + Expr.nodeCountAll args ≤ limit → arguments whole s = .ok result → p

theorem DemandsAll.call {args : List Expr} {t : Token} {ts : List Token} (begins : xs = t :: ts)
    (opens : t ≠ .closeParen) (h : DemandsAll limit whole xs args p) :
    DemandsCall limit whole xs args p := by
  intro s rest result tokens nodes run
  have inner := Cursor.tail_of_tokens tokens
  have first : s.tail.tokens.head? = some t := by
    rw [inner, begins]
    rfl
  rw [arguments, bind_of_ok get_apply, bind_of_ok next_apply,
    eat_else (fun close => opens (Option.some.inj (first.symm.trans close)))] at run
  exact h s.tail rest _ _ inner nodes run

section
variable {name : String} {f : MathFunction} {args : List Expr}

theorem DemandsCall.mathWord (h : DemandsCall limit whole xs args p)
    (found : function? name = some f) {asMember : Bool} {shown : String} {position : Nat}
    {s : Cursor} {rest : List Token} {result : Expr × Cursor}
    (tokens : s.tokens = .openParen :: (xs ++ .closeParen :: rest))
    (nodes : s.nodes + (Expr.call f args).nodeCount ≤ limit)
    (run : mathWord limit whole asMember name shown position s = .ok result) : p := by
  obtain ⟨e, s'⟩ := result
  rw [Expr.nodeCount] at nodes
  rw [Reader.mathWord, sees_then (Cursor.head?_of_tokens tokens)] at run
  simp only [found] at run
  obtain ⟨_, _, taken, _⟩ := bind_eq_ok.mp run
  exact h s rest _ tokens (by omega) taken

theorem DemandsCall.bare (h : DemandsCall limit whole xs args p) (found : function? name = some f) :
    Demands limit 0 (primary scope limit whole) (.name name :: .openParen :: (xs ++ [.closeParen]))
      (.call f args) p := by
  intro s rest result tokens _ nodes run
  have behind : s.tail.tokens = .openParen :: (xs ++ .closeParen :: rest) := by
    rw [Cursor.tail_of_tokens tokens]
    simp
  obtain ⟨position, same⟩ := primary_of_name tokens
  rw [same, named_of_free (scope.slot?_of_reserved (isReserved_of_function? found))
    (no_root_of_function? found) (by rw [behind]; simp)] at run
  exact h.mathWord found behind nodes run

theorem DemandsCall.member (h : DemandsCall limit whole xs args p)
    (found : function? name = some f) :
    Demands limit 0 (primary scope limit whole)
      (.name mathRoot :: .dot :: .name name :: .openParen :: (xs ++ [.closeParen]))
      (.call f args) p := by
  intro s rest result tokens _ nodes run
  have called : s.tokens = .name mathRoot :: .dot :: .name name ::
      .openParen :: (xs ++ .closeParen :: rest) := by
    rw [tokens]
    simp
  obtain ⟨position, t, behind, counted, _, same⟩ := primary_of_member called (by simp)
  rw [same rfl] at run
  exact h.mathWord found behind (counted ▸ nodes) run

end
end

section
variable {scope : Scope} {limits : Limits} {xs : List Token} {e : Expr}

/-- What taking a phrase demands. A phrase of a tier is not yet at its end. -/
def Demanded (scope : Scope) (limits : Limits) (room : Nat) (xs : List Token) (e : Expr) (p : Prop) :
    Level → Prop
  | .tier tier => DemandsOn limits.nodes tier (ofLevel scope limits room tier.operand) xs e p
  | level => Demands limits.nodes level.looseness (ofLevel scope limits room level) xs e p

theorem Demanded.demands {room : Nat} {p : Prop} {level : Level}
    (h : Demanded scope limits room xs e p level) :
    Demands limits.nodes level.looseness (ofLevel scope limits room level) xs e p := by
  cases level with
  | tier tier =>
    rw [ofLevel_tier]
    exact Demands.mono h (Nat.le_of_lt tier.operand_looseness_lt)
  | _ => exact h

/-- A reader that opens a level of nesting demands a level more than what it opens it for. -/
theorem demands_nested {limit looseness k : Nat} {outer inner : Nat → Reader Expr}
    (bottom : ∀ s result, outer 0 s ≠ .ok result) (opens : ∀ room, outer (room + 1) = inner room)
    (h : ∀ room, Demands limit looseness (inner room) xs e (k ≤ room)) (room : Nat) :
    Demands limit looseness (outer room) xs e (k + 1 ≤ room) := by
  cases room with
  | zero => exact fun s _ result _ _ _ run => absurd run (bottom s result)
  | succ room =>
    rw [opens]
    exact (h room).imp Nat.succ_le_succ

theorem demands_whole {k : Nat} (h : ∀ room, Demands limits.nodes 6
      (conditional limits.nodes (whole scope limits room) (sign scope limits room)) xs e (k ≤ room))
    (room : Nat) : Demands limits.nodes 6 (whole scope limits room) xs e (k + 1 ≤ room) :=
  demands_nested (by rintro s result ⟨⟩) (fun room => by rw [whole]) h room

theorem demands_sign {k : Nat} (h : ∀ room, Demands limits.nodes 1
      (signed scope limits.nodes (whole scope limits room) (sign scope limits room)) xs e (k ≤ room))
    (room : Nat) : Demands limits.nodes 1 (sign scope limits room) xs e (k + 1 ≤ room) :=
  demands_nested (by rintro s result ⟨⟩) (fun room => by rw [sign]) h room

end

end Reader

open Reader

variable {limits : Limits}

theorem NestsAll.call {depth room limit : Nat} {whole : Reader Expr} {xs : List Token}
    {es : List Expr} (h : NestsAll scope depth xs es)
    (demands : es ≠ [] → DemandsAll limit whole xs es (depth ≤ room)) :
    DemandsCall limit whole xs es (depth ≤ room) := by
  cases h with
  | nothing => exact fun _ _ _ _ _ _ => Nat.zero_le room
  | one h =>
    obtain ⟨t, ts, begins, opens⟩ := h.derives.begins
    exact (demands (by simp)).call begins opens
  | more h _ =>
    obtain ⟨t, ts, rfl, opens⟩ := h.derives.begins
    exact (demands (by simp)).call rfl opens

theorem Nests.reads {depth room : Nat} {level : Level} {xs : List Token} {e : Expr}
    (h : Nests scope depth level xs e) (le : depth ≤ room) :
    Reads limits.nodes level.looseness (ofLevel scope limits room level) xs e :=
  (h.derives.mono le).served.reads

mutual
/-- Below the depth of a phrase no room is enough to take it. -/
theorem Nests.demanded {depth : Nat} {level : Level} {xs : List Token} {e : Expr} :
    Nests scope depth level xs e → ∀ room, Demanded scope limits room xs e (depth ≤ room) level
  | .bare h, room =>
    demands_whole (fun room => ((h.demanded room).demands.mono (by decide)).bind (Nat.le_refl _)) room
  | .conditional c t e, room =>
    demands_whole (fun room => (Demands.choice (c.demanded room).demands c.reads
      (t.demanded room).demands t.reads (e.demanded room).demands).imp (by omega)) room
  | .operand h, room => (h.demanded room).demands.bind (Nat.le_refl _)
  | .binary a written b, room =>
    (DemandsOn.binary (a.demanded room) (fun le => (a.derives.mono le).served) written
      (b.demanded room).demands).imp (by omega)
  | .minus h, room => demands_sign (fun room => Demands.minus (h.demanded room).demands) room
  | .plus h, room => demands_sign (fun room => Demands.plus (h.demanded room).demands) room
  | .unsigned h, room => by
    obtain ⟨t, ts, begins, minus, plus⟩ := h.derives.begins_unsigned
    exact demands_sign
      (fun room => Demands.unsigned begins minus plus (h.demanded room).demands) room
  | .base h, room => ((h.demanded room).demands.mono (by decide)).bind (Nat.le_refl _)
  | .power a b, room =>
    (Demands.raised (a.demanded room).demands a.reads (b.demanded room).demands).imp (by omega)
  | .group h, room => Demands.group (h.demanded room).demands
  | .number, room | .slot _, room | .valuesSlot _, room | .constant _, room
  | .mathConstant _, room => fun _ _ _ _ _ _ _ => Nat.zero_le room
  | .call found args _, room => (args.call (args.demanded room)).bare found
  | .mathCall found args _, room => (args.call (args.demanded room)).member found
theorem NestsAll.demanded {depth : Nat} {xs : List Token} {es : List Expr} :
    NestsAll scope depth xs es → ∀ room, es ≠ [] →
      DemandsAll limits.nodes (Reader.whole scope limits room) xs es (depth ≤ room)
  | .nothing, _ => fun none => absurd rfl none
  | .one h, room => fun _ => Demands.one (h.demanded room).demands
  | .more h hs, room => fun _ s rest rounds result tokens nodes run => by
    have parts := Demands.more (h.demanded room).demands h.reads (hs.demanded room (by simp))
      s rest rounds result tokens nodes run
    omega
end

theorem Nests.derives_iff {depth room : Nat} {xs : List Token} {e : Expr}
    (h : Nests scope depth .whole xs e) : Derives scope room .whole xs e ↔ depth ≤ room := by
  constructor
  · intro derives
    let s : Cursor := ⟨xs.map fun t => ⟨t, 0, 0⟩, 0⟩
    let limits : Limits := { nodes := e.nodeCount }
    have tokens : s.tokens = xs ++ [] := by simp [s, Cursor.tokens, Function.comp_def]
    have nodes : s.nodes + e.nodeCount ≤ limits.nodes := Nat.le_of_eq (Nat.zero_add _)
    have stops : Stops 6 [] := by
      intro t first
      cases first
    obtain ⟨s', run, _⟩ := derives.served.reads s [] tokens stops nodes
    exact (h.demanded room).demands s [] _ tokens stops nodes run
  · exact h.derives.mono

theorem Nests.unique {depth depth' : Nat} {xs : List Token} {e e' : Expr}
    (h : Nests scope depth .whole xs e) (h' : Nests scope depth' .whole xs e') :
    depth = depth' ∧ e = e' := by
  obtain rfl : e = e' := h.derives.unique h'.derives
  exact ⟨Nat.le_antisymm (h.derives_iff.mp h'.derives) (h'.derives_iff.mp h.derives), rfl⟩

/-- A text that any limits accept is accepted for the same tree by exactly those limits that its
length, its nodes and its depth stay within. All others reject it for a limit, and so with higher
limits its program stays what it is. -/
theorem ofText_within {scope : Scope} {accepting : Limits} {text : String} {e : Expr}
    (accepted : Expr.ofText scope accepting text = .ok e) :
    ∃ ls depth, lexemes text = .ok ls ∧ Nests scope depth .whole (ls.map (·.token)) e ∧
      (∀ depth' e', Nests scope depth' .whole (ls.map (·.token)) e' → depth' = depth ∧ e' = e) ∧
      (∀ limits : Limits, Expr.ofText scope limits text = .ok e ↔
        text.length ≤ limits.length ∧ e.nodeCount ≤ limits.nodes ∧ depth ≤ limits.depth) ∧
      (∀ limits : Limits,
        ¬(text.length ≤ limits.length ∧ e.nodeCount ≤ limits.nodes ∧ depth ≤ limits.depth) →
          ∃ r, Expr.ofText scope limits text = .error r ∧ r.IsLimit) ∧
      ∀ higher : Limits, accepting.length ≤ higher.length → accepting.nodes ≤ higher.nodes →
        accepting.depth ≤ higher.depth →
          Machine.Program.ofText scope higher text = Machine.Program.ofText scope accepting text := by
  obtain ⟨length, ls, scanned, derives, nodes⟩ := ofText_eq_ok_iff.mp accepted
  obtain ⟨depth, room, nests⟩ := derives.exists_nests
  have within : ∀ limits : Limits, Expr.ofText scope limits text = .ok e ↔
      text.length ≤ limits.length ∧ e.nodeCount ≤ limits.nodes ∧ depth ≤ limits.depth := by
    intro limits
    rw [ofText_eq_ok_iff]
    constructor
    · rintro ⟨length, _, scanned', derives, nodes⟩
      cases scanned.symm.trans scanned'
      exact ⟨length, nodes, nests.derives_iff.mp derives⟩
    · rintro ⟨length, nodes, room⟩
      exact ⟨length, ls, scanned, nests.derives_iff.mpr room, nodes⟩
  refine ⟨ls, depth, scanned, nests, fun _ _ other => other.unique nests, within, ?_, ?_⟩
  · intro limits beyond
    rcases lowered_ofText scanned derives with read | rejected
    · exact absurd ((within limits).mp read) beyond
    · exact rejected
  · intro higher longer larger deeper
    have read : Expr.ofText scope higher text = .ok e :=
      (within higher).mpr ⟨Nat.le_trans length longer, Nat.le_trans nodes larger, Nat.le_trans room deeper⟩
    rw [Machine.Program.ofText, Machine.Program.ofText, read, accepted]

theorem ofText_within_siblings : ∃ scope : Scope, scope.names = ["a", "b"] ∧
    ∀ limits : Limits, Expr.ofText scope limits "max((a), -b)" =
        .ok (.call .max [.slot 0, .neg (.slot 1)]) ↔
      12 ≤ limits.length ∧ 4 ≤ limits.nodes ∧ 6 ≤ limits.depth := by
  let scope : Scope := ⟨["a", "b"], by decide, by decide⟩
  have whole : ∀ {k xs e}, Nests scope k .sign xs e → Nests scope (k + 1) .whole xs e :=
    fun h => .bare (.operand (.operand (.operand (.operand h))))
  have name : ∀ {name i}, scope.slot? name = some i → Nests scope 1 .sign [.name name] (.slot i) :=
    fun found => .unsigned (.base (.slot found))
  have first : Nests scope 4 .whole [.openParen, .name "a", .closeParen] (.slot 0) :=
    whole (.unsigned (.base (.group (whole (name rfl)))))
  have second : Nests scope 3 .whole [.minus, .name "b"] (.neg (.slot 1)) :=
    whole (.minus (name rfl))
  have nests : Nests scope 6 .whole [.name "max", .openParen, .openParen, .name "a", .closeParen,
      .comma, .minus, .name "b", .closeParen] (.call .max [.slot 0, .neg (.slot 1)]) :=
    whole (.unsigned (.base (.call rfl (.more first (.one second)) rfl)))
  have accepted : Expr.ofText scope {} "max((a), -b)" =
      .ok (.call .max [.slot 0, .neg (.slot 1)]) :=
    ofText_eq_ok_iff.mpr ⟨by decide, _, rfl, nests.derives.mono (by decide), by decide⟩
  obtain ⟨_, depth, scanned, _, only, within, _⟩ := ofText_within accepted
  cases scanned
  obtain ⟨rfl, _⟩ := only 6 _ nests
  exact ⟨scope, rfl, within⟩

end BuildingCode.Expression

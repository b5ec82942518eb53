import BuildingCode.Expression.Scope
import BuildingCode.Expression.Tree
import BuildingCode.Proofs.Expression.Resolved

/-! The grammar of expressions over their tokens, apart from how they are read. A derivation gives
the tree: repeated operators of a tier lean to the left, powers to the right, and plus signs and
parentheses leave nothing behind. -/
namespace BuildingCode.Expression

inductive Tier where
  | equality | comparison | sum | product

inductive Tier.Writes : Tier → Token → BinaryOp → Prop
  | eq : Writes .equality .eq .eq
  | ne : Writes .equality .ne .ne
  | lt : Writes .comparison .lt .lt
  | le : Writes .comparison .le .le
  | gt : Writes .comparison .gt .gt
  | ge : Writes .comparison .ge .ge
  | add : Writes .sum .plus .add
  | sub : Writes .sum .minus .sub
  | mul : Writes .product .star .mul
  | div : Writes .product .slash .div
  | rem : Writes .product .percent .rem

inductive Level where
  | whole
  | tier (t : Tier)
  | sign | power | primary

def Tier.operand : Tier → Level
  | .equality => .tier .comparison
  | .comparison => .tier .sum
  | .sum => .tier .product
  | .product => .sign

mutual
/-- The tokens derive from the level and have the tree. Whole expressions and signed operands are
nested in each other at most `room` deep. -/
inductive Derives (scope : Scope) : (room : Nat) → Level → List Token → Expr → Prop
  | bare {room xs e} : Derives scope room (.tier .equality) xs e →
      Derives scope (room + 1) .whole xs e
  | conditional {room xs ys zs c t e} : Derives scope room (.tier .equality) xs c →
      Derives scope room .whole ys t → Derives scope room .whole zs e →
        Derives scope (room + 1) .whole (xs ++ .question :: (ys ++ .colon :: zs)) (.conditional c t e)
  | operand {room tier xs e} : Derives scope room tier.operand xs e →
      Derives scope room (.tier tier) xs e
  | binary {room tier token op xs ys a b} : Derives scope room (.tier tier) xs a →
      tier.Writes token op → Derives scope room tier.operand ys b →
        Derives scope room (.tier tier) (xs ++ token :: ys) (.binary op a b)
  | minus {room xs e} : Derives scope room .sign xs e →
      Derives scope (room + 1) .sign (.minus :: xs) (.neg e)
  | plus {room xs e} : Derives scope room .sign xs e →
      Derives scope (room + 1) .sign (.plus :: xs) e
  | unsigned {room xs e} : Derives scope room .power xs e → Derives scope (room + 1) .sign xs e
  | base {room xs e} : Derives scope room .primary xs e → Derives scope room .power xs e
  | power {room xs ys a b} : Derives scope room .primary xs a → Derives scope room .sign ys b →
      Derives scope room .power (xs ++ .power :: ys) (.binary .pow a b)
  | number {room v} : Derives scope room .primary [.number v] (.number v)
  | group {room xs e} : Derives scope room .whole xs e →
      Derives scope room .primary (.openParen :: (xs ++ [.closeParen])) e
  | slot {room name i} : scope.slot? name = some i →
      Derives scope room .primary [.name name] (.slot i)
  | valuesSlot {room name i} : scope.slot? name = some i →
      Derives scope room .primary [.name valuesRoot, .dot, .name name] (.slot i)
  | constant {room name v} : constant? false name = some v →
      Derives scope room .primary [.name name] (.number v)
  | mathConstant {room name v} : constant? true name = some v →
      Derives scope room .primary [.name mathRoot, .dot, .name name] (.number v)
  | call {room name f xs args} : function? name = some f → DerivesAll scope room xs args →
      f.arity.accepts args.length = true →
        Derives scope room .primary (.name name :: .openParen :: (xs ++ [.closeParen])) (.call f args)
  | mathCall {room name f xs args} : function? name = some f → DerivesAll scope room xs args →
      f.arity.accepts args.length = true →
        Derives scope room .primary
          (.name mathRoot :: .dot :: .name name :: .openParen :: (xs ++ [.closeParen])) (.call f args)
inductive DerivesAll (scope : Scope) : (room : Nat) → List Token → List Expr → Prop
  | nothing {room} : DerivesAll scope room [] []
  | one {room xs e} : Derives scope room .whole xs e → DerivesAll scope room xs [e]
  | more {room xs ys e e' es} : Derives scope room .whole xs e →
      DerivesAll scope room ys (e' :: es) →
        DerivesAll scope room (xs ++ .comma :: ys) (e :: e' :: es)
end

theorem Scope.slot?_lt {scope : Scope} {name : String} {i : Nat} (h : scope.slot? name = some i) :
    i < scope.names.length := by
  obtain ⟨inside, _⟩ := List.idxOf?_eq_some_iff.mp h
  exact inside

variable {scope : Scope}

mutual
theorem Derives.resolved {room : Nat} {level : Level} {xs : List Token} {e : Expr} :
    Derives scope room level xs e → e.Resolved scope.names.length
  | .bare h | .operand h | .minus h | .plus h | .unsigned h | .base h | .group h => h.resolved
  | .conditional c t e => ⟨c.resolved, t.resolved, e.resolved⟩
  | .binary a _ b | .power a b => ⟨a.resolved, b.resolved⟩
  | .number | .constant _ | .mathConstant _ => trivial
  | .slot found | .valuesSlot found => Scope.slot?_lt found
  | .call _ args arity | .mathCall _ args arity => ⟨arity, args.resolved⟩
theorem DerivesAll.resolved {room : Nat} {xs : List Token} {es : List Expr} :
    DerivesAll scope room xs es → Expr.ResolvedAll scope.names.length es
  | .nothing => trivial
  | .one h => ⟨h.resolved, trivial⟩
  | .more h hs => ⟨h.resolved, hs.resolved⟩
end

mutual
theorem Derives.add_room {room : Nat} {level : Level} {xs : List Token} {e : Expr} (more : Nat) :
    Derives scope room level xs e → Derives scope (room + more) level xs e
  | .bare h => by
    rw [Nat.add_right_comm]
    exact .bare (h.add_room more)
  | .conditional c t e => by
    rw [Nat.add_right_comm]
    exact .conditional (c.add_room more) (t.add_room more) (e.add_room more)
  | .operand h => .operand (h.add_room more)
  | .binary a written b => .binary (a.add_room more) written (b.add_room more)
  | .minus h => by
    rw [Nat.add_right_comm]
    exact .minus (h.add_room more)
  | .plus h => by
    rw [Nat.add_right_comm]
    exact .plus (h.add_room more)
  | .unsigned h => by
    rw [Nat.add_right_comm]
    exact .unsigned (h.add_room more)
  | .base h => .base (h.add_room more)
  | .power a b => .power (a.add_room more) (b.add_room more)
  | .number => .number
  | .group h => .group (h.add_room more)
  | .slot found => .slot found
  | .valuesSlot found => .valuesSlot found
  | .constant found => .constant found
  | .mathConstant found => .mathConstant found
  | .call found args arity => .call found (args.add_room more) arity
  | .mathCall found args arity => .mathCall found (args.add_room more) arity
theorem DerivesAll.add_room {room : Nat} {xs : List Token} {es : List Expr} (more : Nat) :
    DerivesAll scope room xs es → DerivesAll scope (room + more) xs es
  | .nothing => .nothing
  | .one h => .one (h.add_room more)
  | .more h hs => .more (h.add_room more) (hs.add_room more)
end

theorem Derives.mono {room room' : Nat} {level : Level} {xs : List Token} {e : Expr}
    (h : Derives scope room level xs e) (le : room ≤ room') : Derives scope room' level xs e := by
  obtain ⟨more, rfl⟩ := Nat.exists_eq_add_of_le le
  exact h.add_room more

theorem DerivesAll.mono {room room' : Nat} {xs : List Token} {es : List Expr}
    (h : DerivesAll scope room xs es) (le : room ≤ room') : DerivesAll scope room' xs es := by
  obtain ⟨more, rfl⟩ := Nat.exists_eq_add_of_le le
  exact h.add_room more

def Level.leastRoom : Level → Nat
  | .whole => 2
  | .tier _ | .sign => 1
  | .power | .primary => 0

theorem Derives.leastRoom_le {room : Nat} {level : Level} {xs : List Token} {e : Expr} :
    Derives scope room level xs e → level.leastRoom ≤ room
  | .bare h | .conditional h _ _ => Nat.succ_le_succ h.leastRoom_le
  | @Derives.operand _ _ tier _ _ h => by
    have inner := h.leastRoom_le
    cases tier <;> exact inner
  | .binary h _ _ => h.leastRoom_le
  | .minus _ | .plus _ | .unsigned _ => Nat.le_add_left ..
  | .base _ | .power _ _ | .number | .group _ | .slot _ | .valuesSlot _ | .constant _
  | .mathConstant _ | .call _ _ _ | .mathCall _ _ _ => Nat.zero_le _

mutual
/-- Every node of a tree has a token of its own. -/
theorem Derives.nodeCount_le {room : Nat} {level : Level} {xs : List Token} {e : Expr} :
    Derives scope room level xs e → e.nodeCount ≤ xs.length
  | .bare h | .operand h | .unsigned h | .base h => h.nodeCount_le
  | .conditional c t e => by
    have := c.nodeCount_le
    have := t.nodeCount_le
    have := e.nodeCount_le
    simp only [Expr.nodeCount, List.length_append, List.length_cons]
    omega
  | .binary a _ b | .power a b => by
    have := a.nodeCount_le
    have := b.nodeCount_le
    simp only [Expr.nodeCount, List.length_append, List.length_cons]
    omega
  | .minus h => Nat.succ_le_succ h.nodeCount_le
  | .plus h => Nat.le_succ_of_le h.nodeCount_le
  | .group h => by
    have := h.nodeCount_le
    simp only [List.length_append, List.length_cons]
    omega
  | .number | .slot _ | .constant _ => Nat.le_refl 1
  | .valuesSlot _ | .mathConstant _ => by simp [Expr.nodeCount]
  | .call _ args _ | .mathCall _ args _ => by
    have := args.nodeCount_le
    simp only [Expr.nodeCount, List.length_append, List.length_cons]
    omega
theorem DerivesAll.nodeCount_le {room : Nat} {xs : List Token} {es : List Expr} :
    DerivesAll scope room xs es → Expr.nodeCountAll es ≤ xs.length
  | .nothing => Nat.le_refl 0
  | .one h => h.nodeCount_le
  | .more h hs => by
    have := h.nodeCount_le
    have := hs.nodeCount_le
    rw [Expr.nodeCountAll, List.length_append, List.length_cons]
    omega
end

theorem Expr.nodeCount_pos (e : Expr) : 0 < e.nodeCount := by
  cases e <;> simp [Expr.nodeCount]

end BuildingCode.Expression

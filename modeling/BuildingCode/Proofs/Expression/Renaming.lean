import BuildingCode.Proofs.Expression.Parsing

/-! Expressions whose slots are numbered differently. Which slot a name stands for shows in the tree of a
text and nowhere else: over a scope that has the same names in other places the same texts are read, into
trees with other slots. -/
namespace BuildingCode.Expression

namespace Expr

mutual
def rename (σ : Nat → Nat) : Expr → Expr
  | number v => number v
  | slot i => slot (σ i)
  | neg e => neg (e.rename σ)
  | binary op a b => binary op (a.rename σ) (b.rename σ)
  | call f args => call f (renameAll σ args)
  | conditional c t e => conditional (c.rename σ) (t.rename σ) (e.rename σ)
def renameAll (σ : Nat → Nat) : List Expr → List Expr
  | [] => []
  | e :: es => e.rename σ :: renameAll σ es
end

variable (σ : Nat → Nat)

@[simp] theorem length_renameAll (es : List Expr) : (renameAll σ es).length = es.length := by
  induction es with
  | nil => rfl
  | cons e es ih => simp [renameAll, ih]

mutual
@[simp] theorem nodeCount_rename : ∀ e : Expr, (e.rename σ).nodeCount = e.nodeCount
  | number _ | slot _ => rfl
  | neg e => by simp only [rename, nodeCount, nodeCount_rename e]
  | binary _ a b => by simp only [rename, nodeCount, nodeCount_rename a, nodeCount_rename b]
  | call _ args => by simp only [rename, nodeCount, nodeCountAll_renameAll args]
  | conditional c t e => by
    simp only [rename, nodeCount, nodeCount_rename c, nodeCount_rename t, nodeCount_rename e]
@[simp] theorem nodeCountAll_renameAll :
    ∀ es : List Expr, nodeCountAll (renameAll σ es) = nodeCountAll es
  | [] => rfl
  | e :: es => by simp only [renameAll, nodeCountAll, nodeCount_rename e, nodeCountAll_renameAll es]
end

mutual
@[simp] theorem literals_rename : ∀ e : Expr, (e.rename σ).literals = e.literals
  | number _ | slot _ => rfl
  | neg e => by simp only [rename, literals, literals_rename e]
  | binary _ a b => by simp only [rename, literals, literals_rename a, literals_rename b]
  | call _ args => by simp only [rename, literals, literalsAll_renameAll args]
  | conditional c t e => by
    simp only [rename, literals, literals_rename c, literals_rename t, literals_rename e]
@[simp] theorem literalsAll_renameAll :
    ∀ es : List Expr, literalsAll (renameAll σ es) = literalsAll es
  | [] => rfl
  | e :: es => by simp only [renameAll, literalsAll, literals_rename e, literalsAll_renameAll es]
end

end Expr

/-- The names of the first scope stand for other slots in the second one. -/
def Scope.Renames (σ : Nat → Nat) (scope scope' : Scope) : Prop :=
  ∀ name i, scope.slot? name = some i → scope'.slot? name = some (σ i)

section
variable {σ : Nat → Nat} {scope scope' : Scope}

mutual
theorem Derives.rename (renames : scope.Renames σ scope') {room : Nat} {level : Level}
    {xs : List Token} {e : Expr} :
    Derives scope room level xs e → Derives scope' room level xs (e.rename σ)
  | .bare h => .bare (h.rename renames)
  | .conditional c t e => .conditional (c.rename renames) (t.rename renames) (e.rename renames)
  | .operand h => .operand (h.rename renames)
  | .binary a written b => .binary (a.rename renames) written (b.rename renames)
  | .minus h => .minus (h.rename renames)
  | .plus h => .plus (h.rename renames)
  | .unsigned h => .unsigned (h.rename renames)
  | .base h => .base (h.rename renames)
  | .power a b => .power (a.rename renames) (b.rename renames)
  | .number => .number
  | .group h => .group (h.rename renames)
  | .slot found => .slot (renames _ _ found)
  | .valuesSlot found => .valuesSlot (renames _ _ found)
  | .constant found => .constant found
  | .mathConstant found => .mathConstant found
  | .call found args arity => .call found (args.rename renames) (by simpa using arity)
  | .mathCall found args arity => .mathCall found (args.rename renames) (by simpa using arity)
theorem DerivesAll.rename (renames : scope.Renames σ scope') {room : Nat} {xs : List Token}
    {es : List Expr} :
    DerivesAll scope room xs es → DerivesAll scope' room xs (Expr.renameAll σ es)
  | .nothing => .nothing
  | .one h => .one (h.rename renames)
  | .more h hs => .more (h.rename renames) (hs.rename renames)
end

theorem ofText_rename (renames : scope.Renames σ scope') {limits : Limits} {text : String}
    {e : Expr} (h : Expr.ofText scope limits text = .ok e) :
    Expr.ofText scope' limits text = .ok (e.rename σ) := by
  obtain ⟨short, ls, scanned, derives, nodes⟩ := ofText_eq_ok_iff.mp h
  refine ofText_eq_ok_iff.mpr ⟨short, ls, scanned, derives.rename renames, ?_⟩
  rwa [Expr.nodeCount_rename]

end

end BuildingCode.Expression

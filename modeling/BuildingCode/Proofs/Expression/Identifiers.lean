import BuildingCode.Proofs.Expression.Completeness

/-! Which identifiers can stand in a derived expression, and where: each is a name of the scope, a
word of the vocabulary in its place, or one of the two roots in front of a dot. What the tree refers
to is what the tokens name, in every arm. -/
namespace BuildingCode.Expression

def Bare (before : List Token) : Prop := before.getLast? ≠ some .dot

def MemberOf (root : String) (before : List Token) : Prop := [.name root, .dot] <:+ before

/-- The places at which an identifier is allowed. -/
inductive Admitted (scope : Scope) (before : List Token) (name : String) (after : List Token) : Prop
  | bound : name ∈ scope.names → Bare before ∨ MemberOf valuesRoot before →
      Admitted scope before name after
  | root : name = valuesRoot ∨ name = mathRoot → after.head? = some .dot →
      Admitted scope before name after
  | function {f} : function? name = some f → after.head? = some .openParen →
      Bare before ∨ MemberOf mathRoot before → Admitted scope before name after
  | constant {v} : constant? false name = some v → Bare before → Admitted scope before name after
  | mathConstant {v} : constant? true name = some v → MemberOf mathRoot before →
      Admitted scope before name after

/-- Every identifier among the tokens is allowed where it stands. -/
def AllAdmitted (scope : Scope) (before xs after : List Token) : Prop :=
  ∀ front name back, xs = front ++ .name name :: back →
    Admitted scope (before ++ front) name (back ++ after)

theorem bare_nil : Bare [] := by simp [Bare]

theorem bare_concat {t : Token} (h : t ≠ .dot) (before : List Token) : Bare (before ++ [t]) := by
  simpa [Bare] using h

theorem memberOf_concat (root : String) (before : List Token) :
    MemberOf root (before ++ [.name root, .dot]) :=
  List.suffix_append before _

namespace AllAdmitted

variable {scope : Scope} {before xs ys after : List Token}

theorem nil : AllAdmitted scope before [] after := by
  intro front name back split
  simp at split

theorem append (left : AllAdmitted scope before xs (ys ++ after))
    (right : AllAdmitted scope (before ++ xs) ys after) :
    AllAdmitted scope before (xs ++ ys) after := by
  intro front name back split
  rcases List.append_eq_append_iff.mp split with ⟨more, rfl, inside⟩ | ⟨more, rfl, inside⟩
  · have admitted := right more name back inside
    rwa [List.append_assoc] at admitted
  · cases more with
    | nil => simpa using right [] name back (by simpa using inside.symm)
    | cons t more =>
      obtain ⟨rfl, rfl⟩ := List.cons.inj inside
      simpa using left front name more rfl

theorem cons {t : Token} (own : ∀ name, t = .name name → Admitted scope before name (xs ++ after))
    (rest : AllAdmitted scope (before ++ [t]) xs after) :
    AllAdmitted scope before (t :: xs) after := by
  intro front name back split
  cases front with
  | nil =>
    obtain ⟨rfl, rfl⟩ := List.cons.inj split
    simpa using own name rfl
  | cons u front =>
    obtain ⟨rfl, rfl⟩ := List.cons.inj split
    simpa using rest front name back rfl

theorem name {name : String} (own : Admitted scope before name (xs ++ after))
    (rest : AllAdmitted scope (before ++ [.name name]) xs after) :
    AllAdmitted scope before (.name name :: xs) after :=
  cons (fun _ same => Token.name.inj same ▸ own) rest

theorem mark {t : Token} (mark : ∀ name, t ≠ .name name)
    (rest : AllAdmitted scope (before ++ [t]) xs after) : AllAdmitted scope before (t :: xs) after :=
  cons (fun name same => absurd same (mark name)) rest

end AllAdmitted

theorem Tier.Writes.mark {tier : Tier} {token : Token} {op : BinaryOp} (h : tier.Writes token op) :
    token ≠ .dot ∧ ∀ name, token ≠ .name name := by
  cases h <;> simp

theorem constant?_of_member {name : String} {v : Float} (h : constant? true name = some v) :
    constant? false name = some v := by
  rw [constant?, if_pos rfl] at h
  simp [constant?, h]

theorem isReserved_of_mathConstant? {name : String} {v : Float} (h : constant? true name = some v) :
    isReserved name = true := isReserved_of_constant? (constant?_of_member h)

theorem isReserved_valuesRoot : isReserved valuesRoot = true := by decide

theorem isReserved_mathRoot : isReserved mathRoot = true := by decide

theorem Scope.ne_of_slot? {scope : Scope} {name word : String} {i : Nat}
    (bound : scope.slot? name = some i) (reserved : isReserved word = true) : name ≠ word := by
  rintro rfl
  rw [scope.slot?_of_reserved reserved] at bound
  cases bound

theorem Scope.slot?_eq_some_iff {scope : Scope} {name : String} {i : Nat} :
    scope.slot? name = some i ↔ scope.names[i]? = some name := by
  rw [slot?, List.idxOf?_eq_some_iff, List.getElem?_eq_some_iff]
  constructor
  · rintro ⟨inside, here, _⟩
    exact ⟨inside, here⟩
  · rintro ⟨inside, here⟩
    refine ⟨inside, here, fun j earlier same => ?_⟩
    have distinct := List.pairwise_iff_getElem.mp scope.distinct
    exact distinct j i (Nat.lt_trans earlier inside) inside earlier (same.trans here.symm)

theorem Scope.mem_of_slot? {scope : Scope} {name : String} {i : Nat}
    (h : scope.slot? name = some i) : name ∈ scope.names :=
  List.mem_of_getElem? (Scope.slot?_eq_some_iff.mp h)

variable {scope : Scope}

mutual
/-- Whatever stands around a phrase, as long as no dot stands before it, its identifiers are
allowed. -/
theorem Derives.admitted {room : Nat} {level : Level} {xs before : List Token} {e : Expr}
    (bare : Bare before) (after : List Token) :
    Derives scope room level xs e → AllAdmitted scope before xs after
  | .bare h | .operand h | .unsigned h | .base h => h.admitted bare after
  | .conditional c t e => by
    refine (c.admitted bare _).append (.mark (by simp) ?_)
    refine (t.admitted (bare_concat (by simp) _) _).append (.mark (by simp) ?_)
    exact e.admitted (bare_concat (by simp) _) _
  | .binary a written b =>
    (a.admitted bare _).append <| .mark written.mark.2 <|
      b.admitted (bare_concat written.mark.1 _) after
  | .power a b =>
    (a.admitted bare _).append <| .mark (by simp) <| b.admitted (bare_concat (by simp) _) after
  | .minus h | .plus h => .mark (by simp) (h.admitted (bare_concat (by simp) _) after)
  | .number => .mark (by simp) .nil
  | .group h => by
    refine .mark (by simp) (.append ?_ (.mark (by simp) .nil))
    exact h.admitted (bare_concat (by simp) _) _
  | .slot found => .name (.bound (Scope.mem_of_slot? found) (.inl bare)) .nil
  | .valuesSlot found => by
    refine .name (.root (.inl rfl) rfl) (.mark (by simp) (.name (.bound ?_ (.inr ?_)) .nil))
    · exact Scope.mem_of_slot? found
    · simpa using memberOf_concat valuesRoot before
  | .constant found => .name (.constant found bare) .nil
  | .mathConstant found => by
    refine .name (.root (.inr rfl) rfl) (.mark (by simp) (.name (.mathConstant found ?_) .nil))
    simpa using memberOf_concat mathRoot before
  | .call found args _ => by
    refine .name (.function found rfl (.inl bare)) (.mark (by simp) (.append ?_ (.mark (by simp) .nil)))
    exact args.admitted (bare_concat (by simp) _) _
  | .mathCall found args _ => by
    refine .name (.root (.inr rfl) rfl) (.mark (by simp) (.name (.function found rfl (.inr ?_))
      (.mark (by simp) (.append ?_ (.mark (by simp) .nil)))))
    · simpa using memberOf_concat mathRoot before
    · exact args.admitted (bare_concat (by simp) _) _
theorem DerivesAll.admitted {room : Nat} {xs before : List Token} {es : List Expr}
    (bare : Bare before) (after : List Token) :
    DerivesAll scope room xs es → AllAdmitted scope before xs after
  | .nothing => .nil
  | .one h => h.admitted bare after
  | .more h hs =>
    (h.admitted bare _).append <| .mark (by simp) <| hs.admitted (bare_concat (by simp) _) after
end

theorem Admitted.bound_or_reserved {before after : List Token} {name : String}
    (h : Admitted scope before name after) : name ∈ scope.names ∨ isReserved name = true := by
  cases h with
  | bound member _ => exact .inl member
  | root which _ =>
    right
    rcases which with rfl | rfl
    · exact isReserved_valuesRoot
    · exact isReserved_mathRoot
  | function found _ _ => exact .inr (isReserved_of_function? found)
  | constant found _ => exact .inr (isReserved_of_constant? found)
  | mathConstant found _ => exact .inr (isReserved_of_mathConstant? found)

theorem Derives.bound_or_reserved {room : Nat} {level : Level} {xs : List Token} {e : Expr}
    (h : Derives scope room level xs e) {name : String} (member : .name name ∈ xs) :
    name ∈ scope.names ∨ isReserved name = true := by
  obtain ⟨front, back, split⟩ := List.append_of_mem member
  exact (h.admitted bare_nil [] front name back split).bound_or_reserved

/-- What an expression takes from outside: a slot, or a function for a number of arguments. -/
inductive Reference where
  | slot (index : Nat)
  | function (f : MathFunction) (count : Nat)

namespace Expr

mutual
/-- The references of an expression from left to right, a function behind its arguments. -/
def references : Expr → List Reference
  | number _ => []
  | slot i => [.slot i]
  | neg e => e.references
  | binary _ a b => a.references ++ b.references
  | call f args => referencesAll args ++ [.function f args.length]
  | conditional c t e => c.references ++ (t.references ++ e.references)
def referencesAll : List Expr → List Reference
  | [] => []
  | e :: es => e.references ++ referencesAll es
end

end Expr

/-- Some identifier among the tokens stands for what is referred to. -/
def Reference.Named (scope : Scope) (xs : List Token) : Reference → Prop
  | slot i => ∃ name, .name name ∈ xs ∧ scope.slot? name = some i
  | function f count =>
    (∃ name, .name name ∈ xs ∧ function? name = some f) ∧ f.arity.accepts count = true

theorem Reference.Named.mono {scope : Scope} {xs ys : List Token} {r : Reference}
    (h : r.Named scope xs) (sub : ∀ t ∈ xs, t ∈ ys) : r.Named scope ys := by
  cases r with
  | slot i =>
    obtain ⟨name, member, found⟩ := h
    exact ⟨name, sub _ member, found⟩
  | function f count =>
    obtain ⟨⟨name, member, found⟩, arity⟩ := h
    exact ⟨⟨name, sub _ member, found⟩, arity⟩

mutual
theorem Derives.named {room : Nat} {level : Level} {xs : List Token} {e : Expr} :
    Derives scope room level xs e → ∀ r ∈ e.references, r.Named scope xs
  | .bare h | .operand h | .unsigned h | .base h => h.named
  | .minus h | .plus h | .group h => fun r member =>
    (h.named r member).mono fun t inside => by simp [inside]
  | .conditional c t e => by
    intro r member
    simp only [Expr.references, List.mem_append] at member
    rcases member with member | member | member
    · exact (c.named r member).mono fun t inside => by simp [inside]
    · exact (t.named r member).mono fun t inside => by simp [inside]
    · exact (e.named r member).mono fun t inside => by simp [inside]
  | .binary a _ b | .power a b => by
    intro r member
    rcases List.mem_append.mp member with member | member
    · exact (a.named r member).mono fun t inside => by simp [inside]
    · exact (b.named r member).mono fun t inside => by simp [inside]
  | .number | .constant _ | .mathConstant _ => by simp [Expr.references]
  | .slot found | .valuesSlot found => by
    intro r member
    rw [List.mem_singleton.mp member]
    exact ⟨_, by simp, found⟩
  | .call found args arity | .mathCall found args arity => by
    intro r member
    rcases List.mem_append.mp member with member | last
    · exact (args.named r member).mono fun t inside => by simp [inside]
    · rw [List.mem_singleton.mp last]
      exact ⟨⟨_, by simp, found⟩, arity⟩
theorem DerivesAll.named {room : Nat} {xs : List Token} {es : List Expr} :
    DerivesAll scope room xs es → ∀ r ∈ Expr.referencesAll es, r.Named scope xs
  | .nothing => by simp [Expr.referencesAll]
  | .one h => by simpa [Expr.referencesAll] using h.named
  | .more h hs => by
    intro r member
    rcases List.mem_append.mp member with member | member
    · exact (h.named r member).mono fun t inside => by simp [inside]
    · exact (hs.named r member).mono fun t inside => by simp [inside]
end

mutual
/-- Wherever the name of a slot stands, the tree refers to the slot. -/
theorem Derives.slot_mem {name : String} {i : Nat} (bound : scope.slot? name = some i) {room : Nat}
    {level : Level} {xs : List Token} {e : Expr} :
    Derives scope room level xs e → .name name ∈ xs → .slot i ∈ e.references
  | .bare h | .operand h | .unsigned h | .base h => h.slot_mem bound
  | .minus h | .plus h | .group h => fun member => h.slot_mem bound (by simpa using member)
  | .conditional c t e => by
    intro member
    simp only [List.mem_append, List.mem_cons, reduceCtorEq, false_or] at member
    simp only [Expr.references, List.mem_append]
    exact member.imp (c.slot_mem bound) (Or.imp (t.slot_mem bound) (e.slot_mem bound))
  | .binary a written b => by
    intro member
    simp only [List.mem_append, List.mem_cons, (written.mark.2 name).symm, false_or] at member
    exact List.mem_append.mpr (member.imp (a.slot_mem bound) (b.slot_mem bound))
  | .power a b => by
    intro member
    simp only [List.mem_append, List.mem_cons, reduceCtorEq, false_or] at member
    exact List.mem_append.mpr (member.imp (a.slot_mem bound) (b.slot_mem bound))
  | .number => by simp
  | .slot found => by
    intro member
    cases List.mem_singleton.mp member
    cases found.symm.trans bound
    exact List.mem_singleton_self _
  | .valuesSlot found => by
    intro member
    simp only [List.mem_cons, Token.name.injEq, Scope.ne_of_slot? bound isReserved_valuesRoot,
      reduceCtorEq, List.not_mem_nil, false_or, or_false] at member
    subst member
    cases found.symm.trans bound
    exact List.mem_singleton_self _
  | .constant found => by
    simp [Scope.ne_of_slot? bound (isReserved_of_constant? found)]
  | .mathConstant found => by
    simp [Scope.ne_of_slot? bound (isReserved_of_mathConstant? found),
      Scope.ne_of_slot? bound isReserved_mathRoot]
  | .call found args arity => by
    intro member
    refine List.mem_append_left _ (args.slot_mem bound ?_)
    simpa [Scope.ne_of_slot? bound (isReserved_of_function? found)] using member
  | .mathCall found args arity => by
    intro member
    refine List.mem_append_left _ (args.slot_mem bound ?_)
    simpa [Scope.ne_of_slot? bound (isReserved_of_function? found),
      Scope.ne_of_slot? bound isReserved_mathRoot] using member
theorem DerivesAll.slot_mem {name : String} {i : Nat} (bound : scope.slot? name = some i) {room : Nat}
    {xs : List Token} {es : List Expr} :
    DerivesAll scope room xs es → .name name ∈ xs → .slot i ∈ Expr.referencesAll es
  | .nothing => by simp
  | .one h => fun member => List.mem_append_left _ (h.slot_mem bound member)
  | .more h hs => by
    intro member
    simp only [List.mem_append, List.mem_cons, reduceCtorEq, false_or] at member
    exact List.mem_append.mpr (member.imp (h.slot_mem bound) (hs.slot_mem bound))
end

end BuildingCode.Expression

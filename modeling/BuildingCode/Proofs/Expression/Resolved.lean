import BuildingCode.Expression.Tree

/-! Trees whose slots lie within a number of slots and whose calls pass as many arguments as their
functions take. -/
namespace BuildingCode.Expression.Expr

mutual
def Resolved (slots : Nat) : Expr → Prop
  | number _ => True
  | slot i => i < slots
  | neg e => e.Resolved slots
  | binary _ a b => a.Resolved slots ∧ b.Resolved slots
  | call f args => f.arity.accepts args.length = true ∧ ResolvedAll slots args
  | conditional c t e => c.Resolved slots ∧ t.Resolved slots ∧ e.Resolved slots
def ResolvedAll (slots : Nat) : List Expr → Prop
  | [] => True
  | e :: es => e.Resolved slots ∧ ResolvedAll slots es
end

mutual
theorem Resolved.mono {slots more : Nat} (le : slots ≤ more) :
    ∀ {e : Expr}, e.Resolved slots → e.Resolved more
  | number _, _ => trivial
  | slot _, h => Nat.lt_of_lt_of_le h le
  | neg e, h => Resolved.mono le (e := e) h
  | binary _ _ _, h => ⟨h.1.mono le, h.2.mono le⟩
  | call _ _, h => ⟨h.1, h.2.mono le⟩
  | conditional _ _ _, h => ⟨h.1.mono le, h.2.1.mono le, h.2.2.mono le⟩
theorem ResolvedAll.mono {slots more : Nat} (le : slots ≤ more) :
    ∀ {es : List Expr}, ResolvedAll slots es → ResolvedAll more es
  | [], _ => trivial
  | _ :: _, h => ⟨h.1.mono le, h.2.mono le⟩
end

mutual
theorem Resolved.slotCount_le {slots : Nat} : ∀ {e : Expr}, e.Resolved slots → e.slotCount ≤ slots
  | number _, _ => Nat.zero_le slots
  | slot _, h => h
  | neg e, h => Resolved.slotCount_le (e := e) h
  | binary _ _ _, h => Nat.max_le.mpr ⟨Resolved.slotCount_le h.1, Resolved.slotCount_le h.2⟩
  | call _ _, h => ResolvedAll.slotCountAll_le h.2
  | conditional _ _ _, h => Nat.max_le.mpr ⟨Resolved.slotCount_le h.1,
      Nat.max_le.mpr ⟨Resolved.slotCount_le h.2.1, Resolved.slotCount_le h.2.2⟩⟩
theorem ResolvedAll.slotCountAll_le {slots : Nat} :
    ∀ {es : List Expr}, ResolvedAll slots es → slotCountAll es ≤ slots
  | [], _ => Nat.zero_le slots
  | _ :: _, h => Nat.max_le.mpr ⟨Resolved.slotCount_le h.1, ResolvedAll.slotCountAll_le h.2⟩
end

end BuildingCode.Expression.Expr

import BuildingCode.Expression.Arithmetic
import BuildingCode.Proofs.Expression.Parsing
import BuildingCode.Proofs.Expression.Scanning
import BuildingCode.Proofs.Number.Order

/-! Operations that are given finite numbers and succeed give finite numbers. Most results are tested;
those that are not are finite because the test of a domain comes before them. The numbers that a text holds
are finite as well. -/
namespace BuildingCode.Expression
open Number

/-- What is relied on of the float functions: where a function is defined, its value at finite arguments is
finite. Nothing is asked of those whose results are tested. -/
structure Arithmetic.Regular (A : Arithmetic) : Prop where
  neg : ∀ x, x.isFinite → (A.neg x).isFinite
  abs : ∀ x, x.isFinite → (A.abs x).isFinite
  cbrt : ∀ x, x.isFinite → (A.cbrt x).isFinite
  atan : ∀ x, x.isFinite → (A.atan x).isFinite
  atan2 : ∀ x y, x.isFinite → y.isFinite → (A.atan2 x y).isFinite
  tanh : ∀ x, x.isFinite → (A.tanh x).isFinite
  floor : ∀ x, x.isFinite → (A.floor x).isFinite
  ceil : ∀ x, x.isFinite → (A.ceil x).isFinite
  trunc : ∀ x, x.isFinite → (A.trunc x).isFinite
  signum : ∀ x, x.isFinite → (A.signum x).isFinite
  roundHalfUp : ∀ x, x.isFinite → (roundHalfUp A x).isFinite
  sqrt : ∀ x, x.isFinite → 0.0 ≤ x → (A.sqrt x).isFinite
  ln : ∀ x, x.isFinite → 0.0 < x → (A.ln x).isFinite
  log10 : ∀ x, x.isFinite → 0.0 < x → (A.log10 x).isFinite
  log2 : ∀ x, x.isFinite → 0.0 < x → (A.log2 x).isFinite
  asin : ∀ x, -1.0 ≤ x → x ≤ 1.0 → (A.asin x).isFinite
  acos : ∀ x, -1.0 ≤ x → x ≤ 1.0 → (A.acos x).isFinite

/-- A success has the property, and a failure is not that of the test at the end of a run. -/
def Yields (P : α → Prop) : Except Failure α → Prop
  | .ok a => P a
  | .error f => f ≠ .nonFinite .result

namespace Yields

variable {P : α → Prop} {Q : β → Prop}

theorem bind {x : Except Failure α} {f : α → Except Failure β} (first : Yields P x)
    (rest : ∀ a, P a → Yields Q (f a)) : Yields Q (x >>= f) := by
  cases x with
  | error e => exact first
  | ok a => exact rest a first

theorem ite {c : Prop} [Decidable c] {x y : Except Failure α} (yes : c → Yields P x)
    (no : ¬c → Yields P y) : Yields P (if c then x else y) := by
  split
  · exact yes ‹_›
  · exact no ‹_›

theorem divisionByZero : Yields P (.error .divisionByZero : Except Failure α) :=
  fun h => Failure.noConfusion h

theorem undefined (f : MathFunction) (x : Float) :
    Yields P (.error (.undefined f x) : Except Failure α) :=
  fun h => Failure.noConfusion h

theorem mismatch (cause : Mismatch) : Yields P (.error (.mismatch cause) : Except Failure α) :=
  fun h => Failure.noConfusion h

theorem nonFinite {operation : Operation} (inner : operation ≠ .result) :
    Yields P (.error (.nonFinite operation) : Except Failure α) :=
  fun h => inner (Failure.nonFinite.inj h)

end Yields

abbrev YieldsNumber : Except Failure Float → Prop := Yields fun v => v.isFinite = true

section
variable {A : Arithmetic}

theorem yields_finite {operation : Operation} (x : Float)
    (inner : operation ≠ .result := by simp) : YieldsNumber (finite operation x) :=
  .ite id fun _ => .nonFinite inner

theorem yields_defined (f : MathFunction) (argument x : Float) :
    YieldsNumber (defined f argument x) :=
  .ite (fun _ => .undefined f argument) fun _ => yields_finite x

theorem yields_raise (a b : Float) : YieldsNumber (raise A a b) :=
  .ite (fun _ => .divisionByZero) fun _ => yields_defined .pow a _

theorem isFinite_truth : ∀ b, (truth b).isFinite = true := by decide

theorem BinaryOp.yields_apply (op : BinaryOp) (a b : Float) : YieldsNumber (op.apply A a b) := by
  cases op with
  | add | sub | mul => exact yields_finite _
  | div | rem => exact .ite (fun _ => .divisionByZero) fun _ => yields_finite _
  | pow => exact yields_raise a b
  | lt | le | gt | ge | eq | ne => exact isFinite_truth _

theorem isFinite_foldl {f : Float → Float → Float} {start x : Float} {more : List Float}
    (keeps : ∀ a b, f a b = a ∨ f a b = b) (first : f start x = x) (finite : x.isFinite)
    (others : ∀ y ∈ more, y.isFinite) : ((x :: more).foldl f start).isFinite := by
  rw [List.foldl_cons, first]
  refine List.foldlRecOn (motive := fun a => a.isFinite) more f finite fun a kept y member => ?_
  rcases keeps a y with same | same
  · rwa [same]
  · rw [same]
    exact others y member

theorem smaller_eq_or (a b : Float) : smaller a b = a ∨ smaller a b = b := by
  grind [smaller]

theorem larger_eq_or (a b : Float) : larger a b = a ∨ larger a b = b := by
  grind [larger]

section
variable {x : Float} {more : List Float}

theorem smaller_infinity (finite : x.isFinite) : smaller (1.0 / 0.0) x = x := by
  have number : (1.0 / 0.0 : Float).isNaN = false := by decide
  rw [smaller, if_neg (ne_true_of_eq_false number),
    if_neg (ne_true_of_eq_false (isNaN_of_isFinite finite)), if_pos (lt_infinity finite)]

theorem larger_infinity (finite : x.isFinite) : larger (-1.0 / 0.0) x = x := by
  have number : (-1.0 / 0.0 : Float).isNaN = false := by decide
  rw [larger, if_neg (ne_true_of_eq_false number),
    if_neg (ne_true_of_eq_false (isNaN_of_isFinite finite)), if_pos (infinity_lt finite)]

theorem zero_le_of_not_lt (finite : x.isFinite) (h : ¬x < 0.0) : 0.0 ≤ x :=
  le_of_not_lt (isNaN_of_isFinite finite) rfl h

theorem zero_lt_of_not_le (finite : x.isFinite) (h : ¬x ≤ 0.0) : 0.0 < x :=
  lt_of_not_le (isNaN_of_isFinite finite) rfl h

theorem yields_second (f : MathFunction) (others : ∀ y ∈ more, y.isFinite) :
    YieldsNumber (second f more) := by
  cases more with
  | nil => exact .mismatch _
  | cons y more => exact others y List.mem_cons_self

theorem MathFunction.yields_applyTo (regular : A.Regular) (f : MathFunction) (finite : x.isFinite)
    (others : ∀ y ∈ more, y.isFinite) : YieldsNumber (f.applyTo A x more) := by
  cases f with
  | abs => exact regular.abs x finite
  | cbrt => exact regular.cbrt x finite
  | atan => exact regular.atan x finite
  | tanh => exact regular.tanh x finite
  | floor => exact regular.floor x finite
  | ceil => exact regular.ceil x finite
  | round => exact regular.roundHalfUp x finite
  | trunc => exact regular.trunc x finite
  | sqrt =>
    exact .ite (fun _ => .undefined _ x) fun h => regular.sqrt x finite (zero_le_of_not_lt finite h)
  | ln => exact .ite (fun _ => .undefined _ x) fun h => regular.ln x finite (zero_lt_of_not_le finite h)
  | log10 =>
    exact .ite (fun _ => .undefined _ x) fun h => regular.log10 x finite (zero_lt_of_not_le finite h)
  | log2 =>
    exact .ite (fun _ => .undefined _ x) fun h => regular.log2 x finite (zero_lt_of_not_le finite h)
  | asin =>
    refine .ite (fun h => ?_) fun _ => .undefined _ x
    obtain ⟨low, high⟩ := Bool.and_eq_true_iff.mp h
    exact regular.asin x (of_decide_eq_true low) (of_decide_eq_true high)
  | acos =>
    refine .ite (fun h => ?_) fun _ => .undefined _ x
    obtain ⟨low, high⟩ := Bool.and_eq_true_iff.mp h
    exact regular.acos x (of_decide_eq_true low) (of_decide_eq_true high)
  | pow => exact (yields_second _ others).bind fun y _ => yields_raise x y
  | atan2 => exact (yields_second _ others).bind fun y finite' => regular.atan2 x y finite finite'
  | sign =>
    change (if x == 0.0 then 0.0 else A.signum x).isFinite = true
    split
    · rfl
    · exact regular.signum x finite
  | min => exact isFinite_foldl smaller_eq_or (smaller_infinity finite) finite others
  | max => exact isFinite_foldl larger_eq_or (larger_infinity finite) finite others
  | sin | cos | tan => exact yields_defined _ x _
  | exp | sinh | cosh | hypot => exact yields_finite _

end

theorem MathFunction.yields_apply (regular : A.Regular) (f : MathFunction) {args : List Float}
    (given : ∀ x ∈ args, x.isFinite) : YieldsNumber (f.apply A args) := by
  cases args with
  | nil => exact .mismatch _
  | cons x more =>
    obtain ⟨finite, others⟩ := List.forall_mem_cons.mp given
    exact f.yields_applyTo regular finite others

end

theorem isFinite_of_lookup {table : List (String × Float)} {name : String} {v : Float}
    (all : ∀ entry ∈ table, entry.2.isFinite = true) (found : table.lookup name = some v) :
    v.isFinite = true := by
  obtain ⟨before, after, split, _⟩ := List.lookup_eq_some_iff.mp found
  exact all (name, v) (by simp [split])

theorem isFinite_of_constant? {asMember : Bool} {name : String} {v : Float}
    (found : constant? asMember name = some v) : v.isFinite = true := by
  have named : ∀ entry ∈ constants, entry.2.isFinite = true := by decide
  have bare : ∀ entry ∈ bareConstants, entry.2.isFinite = true := by decide
  cases asMember with
  | true => exact isFinite_of_lookup named found
  | false =>
    rcases Option.or_eq_some_iff.mp found with found | ⟨_, found⟩
    · exact isFinite_of_lookup named found
    · exact isFinite_of_lookup bare found

def Token.Finite (t : Token) : Prop := ∀ v, t = .number v → v.isFinite = true

theorem Takes.finite {t : Token} {xs ys : List Char} (h : Takes t xs ys) : t.Finite := by
  rintro v rfl
  cases h with
  | number _ finite => exact finite
  | operator listed => simp [operators] at listed

section
variable {scope : Scope}

mutual
theorem Derives.finite {room : Nat} {level : Level} {xs : List Token} {e : Expr} :
    Derives scope room level xs e → (∀ t ∈ xs, t.Finite) → ∀ v ∈ e.literals, v.isFinite = true
  | .bare h, read | .operand h, read | .unsigned h, read | .base h, read => h.finite read
  | .minus h, read | .plus h, read => h.finite (List.forall_mem_cons.mp read).2
  | .group h, read => h.finite fun t member => read t (by simp [member])
  | .conditional c t e, read => by
    simp only [Expr.literals, List.forall_mem_append]
    exact ⟨⟨c.finite fun t member => read t (by simp [member]),
      t.finite fun t member => read t (by simp [member])⟩,
      e.finite fun t member => read t (by simp [member])⟩
  | .binary a _ b, read | .power a b, read => by
    simp only [Expr.literals, List.forall_mem_append]
    exact ⟨a.finite fun t member => read t (by simp [member]),
      b.finite fun t member => read t (by simp [member])⟩
  | .number, read => by
    simp only [Expr.literals, List.mem_singleton, forall_eq]
    exact read _ (List.mem_singleton_self _) _ rfl
  | .constant found, _ | .mathConstant found, _ => by
    simp only [Expr.literals, List.mem_singleton, forall_eq]
    exact isFinite_of_constant? found
  | .slot _, _ | .valuesSlot _, _ => by simp [Expr.literals]
  | .call _ args _, read | .mathCall _ args _, read =>
    args.finite fun t member => read t (by simp [member])
theorem DerivesAll.finite {room : Nat} {xs : List Token} {es : List Expr} :
    DerivesAll scope room xs es → (∀ t ∈ xs, t.Finite) →
      ∀ v ∈ Expr.literalsAll es, v.isFinite = true
  | .nothing, _ => by simp [Expr.literalsAll]
  | .one h, read => by
    simp only [Expr.literalsAll, List.append_nil]
    exact h.finite read
  | .more h hs, read => by
    rw [Expr.literalsAll, List.forall_mem_append]
    exact ⟨h.finite fun t member => read t (by simp [member]),
      hs.finite fun t member => read t (by simp [member])⟩
end

theorem finite_of_ofText {limits : Limits} {text : String} {e : Expr}
    (read : Expr.ofText scope limits text = .ok e) : ∀ v ∈ e.literals, v.isFinite = true := by
  obtain ⟨ls, scanned, derives⟩ := derives_of_ofText read
  refine derives.finite fun t member => ?_
  obtain ⟨l, inside, rfl⟩ := List.mem_map.mp member
  obtain ⟨_, _, _, _, _, _, takes⟩ := (Scans.of_scanFrom scanned).takes inside
  exact takes.finite

end
end BuildingCode.Expression

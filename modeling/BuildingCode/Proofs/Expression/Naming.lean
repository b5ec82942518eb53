import BuildingCode.Expression.Meaning
import BuildingCode.Proofs.Expression.Identifiers
import BuildingCode.Proofs.Expression.Parsing

/-! What a text means by its names. In an environment each name is replaced by its value, and what
is left is an expression without names. Scopes and slots do not enter: that a compiled text has this
meaning is the main statement here. -/
namespace BuildingCode.Expression

abbrev Environment := List (String × Float)

namespace Environment

def word (env : Environment) (name : String) : Token :=
  match env.lookup name with
  | some v => .number v
  | none => .name name

/-- Puts values in the place of names, also where a name is written as a member of the values. -/
def fill (env : Environment) : List Token → List Token
  | [] => []
  | .name root :: .dot :: .name name :: ts =>
    if root = valuesRoot then env.word name :: env.fill ts
    else env.word root :: env.fill (.dot :: .name name :: ts)
  | .name name :: ts => env.word name :: env.fill ts
  | t :: ts => t :: env.fill ts

variable (env : Environment)

@[simp] theorem fill_nil : env.fill [] = [] := rfl

theorem fill_member (name : String) (ts : List Token) :
    env.fill (.name valuesRoot :: .dot :: .name name :: ts) = env.word name :: env.fill ts := by
  rw [fill, if_pos rfl]

theorem fill_name {name : String} (h : name ≠ valuesRoot) (ts : List Token) :
    env.fill (.name name :: ts) = env.word name :: env.fill ts := by
  rw [fill.eq_def]
  split
  · rename_i split
    cases split
  · rename_i split
    cases split
    rw [if_neg h]
  · rename_i split
    cases split
    rfl
  · rename_i other split
    cases split
    exact absurd rfl (other name)

theorem fill_mark {t : Token} (mark : ∀ name, t ≠ .name name) (ts : List Token) :
    env.fill (t :: ts) = t :: env.fill ts := by
  cases t with
  | name name => exact absurd rfl (mark name)
  | _ => rfl

def Separates (xs : List Token) : Prop := ∀ ts, env.fill (xs ++ ts) = env.fill xs ++ env.fill ts

namespace Separates

variable {env : Environment} {xs ys : List Token}

theorem nil : env.Separates [] := fun _ => rfl

theorem append (first : env.Separates xs) (rest : env.Separates ys) : env.Separates (xs ++ ys) := by
  intro ts
  rw [List.append_assoc, first, rest, first, List.append_assoc]

theorem mark {t : Token} (mark : ∀ name, t ≠ .name name) (rest : env.Separates xs) :
    env.Separates (t :: xs) := by
  intro ts
  rw [List.cons_append, env.fill_mark mark, rest, env.fill_mark mark, List.cons_append]

theorem name {name : String} (h : name ≠ valuesRoot) (rest : env.Separates xs) :
    env.Separates (.name name :: xs) := by
  intro ts
  rw [List.cons_append, env.fill_name h, rest, env.fill_name h, List.cons_append]

theorem member (name : String) : env.Separates [.name valuesRoot, .dot, .name name] := by
  intro ts
  simp [fill_member]

end Separates
end Environment

theorem ne_valuesRoot_of_function? {name : String} {f : MathFunction}
    (h : function? name = some f) : name ≠ valuesRoot :=
  fun root => no_root_of_function? h (.inl root)

theorem mathRoot_ne_valuesRoot : mathRoot ≠ valuesRoot := by decide

section
variable {scope : Scope} {env : Environment}

mutual
theorem Derives.separates {room : Nat} {level : Level} {xs : List Token} {e : Expr} :
    Derives scope room level xs e → env.Separates xs
  | .bare h | .operand h | .unsigned h | .base h => h.separates
  | .conditional c t e =>
    c.separates.append (.mark (by simp) (t.separates.append (.mark (by simp) e.separates)))
  | .binary a written b => a.separates.append (.mark written.mark.2 b.separates)
  | .power a b => a.separates.append (.mark (by simp) b.separates)
  | .minus h | .plus h => .mark (by simp) h.separates
  | .number => .mark (by simp) .nil
  | .group h => .mark (by simp) (h.separates.append (.mark (by simp) .nil))
  | .slot found => .name (Scope.ne_of_slot? found isReserved_valuesRoot) .nil
  | .valuesSlot _ => .member _
  | .constant found => .name (fun root => no_root_of_constant? found (.inl root)) .nil
  | .mathConstant found =>
    .name mathRoot_ne_valuesRoot <| .mark (by simp) <| .name (by rintro rfl; cases found) .nil
  | .call found args _ =>
    .name (ne_valuesRoot_of_function? found) <| .mark (by simp) <|
      args.separates.append (.mark (by simp) .nil)
  | .mathCall found args _ =>
    .name mathRoot_ne_valuesRoot <| .mark (by simp) <|
      .name (ne_valuesRoot_of_function? found) <| .mark (by simp) <|
        args.separates.append (.mark (by simp) .nil)
theorem DerivesAll.separates {room : Nat} {xs : List Token} {es : List Expr} :
    DerivesAll scope room xs es → env.Separates xs
  | .nothing => .nil
  | .one h => h.separates
  | .more h hs => h.separates.append (.mark (by simp) hs.separates)
end

end

namespace Expr

mutual
def fill (slots : List Float) : Expr → Expr
  | number v => number v
  | slot i => match slots[i]? with
    | some v => number v
    | none => slot i
  | neg e => neg (e.fill slots)
  | binary op a b => binary op (a.fill slots) (b.fill slots)
  | call f args => call f (fillAll slots args)
  | conditional c t e => conditional (c.fill slots) (t.fill slots) (e.fill slots)
def fillAll (slots : List Float) : List Expr → List Expr
  | [] => []
  | e :: es => e.fill slots :: fillAll slots es
end

@[simp] theorem length_fillAll (slots : List Float) (es : List Expr) :
    (fillAll slots es).length = es.length := by
  induction es with
  | nil => rfl
  | cons e es ih => simp [fillAll, ih]

mutual
theorem valueOver_fill (A : Arithmetic) (slots : List Float) :
    ∀ e : Expr, (e.fill slots).valueOver A [] = e.valueOver A slots
  | number _ => rfl
  | slot i => by
    simp only [fill, valueOver]
    cases slots[i]? <;> simp [valueOver]
  | neg e => by simp only [fill, valueOver, valueOver_fill A slots e]
  | binary _ a b => by simp only [fill, valueOver, valueOver_fill A slots a, valueOver_fill A slots b]
  | call _ args => by simp only [fill, valueOver, valuesOver_fillAll A slots args]
  | conditional c t e => by
    simp only [fill, valueOver, valueOver_fill A slots c, valueOver_fill A slots t,
      valueOver_fill A slots e]
theorem valuesOver_fillAll (A : Arithmetic) (slots : List Float) :
    ∀ es : List Expr, valuesOver A [] (fillAll slots es) = valuesOver A slots es
  | [] => rfl
  | e :: es => by
    simp only [fillAll, valuesOver, valueOver_fill A slots e, valuesOver_fillAll A slots es]
end

theorem value_fill (A : Arithmetic) (e : Expr) (slots : List Float) :
    (e.fill slots).value A [] = e.value A slots := by
  simp only [value, valueOver_fill]

end Expr

/-- The environment and the slots say the same of the names of a scope, and the environment says
nothing of the vocabulary. -/
structure Agree (scope : Scope) (env : Environment) (slots : List Float) : Prop where
  bound : ∀ name i, scope.slot? name = some i → ∃ v, slots[i]? = some v ∧ env.lookup name = some v
  free : ∀ name, isReserved name = true → env.lookup name = none

namespace Agree

variable {scope : Scope} {env : Environment} {slots : List Float} (agree : Agree scope env slots)
include agree

theorem word_of_slot? {name : String} {i : Nat} (found : scope.slot? name = some i) :
    ∃ v, env.word name = .number v ∧ (Expr.slot i).fill slots = .number v := by
  obtain ⟨v, here, known⟩ := agree.bound name i found
  exact ⟨v, by simp [Environment.word, known], by simp [Expr.fill, here]⟩

theorem word_of_reserved {name : String} (reserved : isReserved name = true) :
    env.word name = .name name := by
  simp [Environment.word, agree.free name reserved]

end Agree

section
variable {scope : Scope} {env : Environment} {slots : List Float}

mutual
/-- With values for names the tokens of a phrase derive over no names at all. -/
theorem Derives.fill (agree : Agree scope env slots) {room : Nat} {level : Level}
    {xs : List Token} {e : Expr} :
    Derives scope room level xs e → Derives .empty room level (env.fill xs) (e.fill slots)
  | .bare h => .bare (h.fill agree)
  | .operand h => .operand (h.fill agree)
  | .unsigned h => .unsigned (h.fill agree)
  | .base h => .base (h.fill agree)
  | .conditional c t e => by
    rw [c.separates, env.fill_mark (by simp), t.separates, env.fill_mark (by simp)]
    exact .conditional (c.fill agree) (t.fill agree) (e.fill agree)
  | .binary a written b => by
    rw [a.separates, env.fill_mark written.mark.2]
    exact .binary (a.fill agree) written (b.fill agree)
  | .power a b => by
    rw [a.separates, env.fill_mark (by simp)]
    exact .power (a.fill agree) (b.fill agree)
  | .minus h => by
    rw [env.fill_mark (by simp)]
    exact .minus (h.fill agree)
  | .plus h => by
    rw [env.fill_mark (by simp)]
    exact .plus (h.fill agree)
  | .number => .number
  | .group h => by
    rw [env.fill_mark (by simp), h.separates, env.fill_mark (by simp)]
    exact .group (h.fill agree)
  | .slot found => by
    obtain ⟨v, word, filled⟩ := agree.word_of_slot? found
    rw [env.fill_name (Scope.ne_of_slot? found isReserved_valuesRoot), word, filled]
    exact .number
  | .valuesSlot found => by
    obtain ⟨v, word, filled⟩ := agree.word_of_slot? found
    rw [env.fill_member, word, filled]
    exact .number
  | .constant found => by
    rw [env.fill_name (fun root => no_root_of_constant? found (.inl root)),
      agree.word_of_reserved (isReserved_of_constant? found)]
    exact .constant found
  | .mathConstant found => by
    rw [env.fill_name mathRoot_ne_valuesRoot, env.fill_mark (by simp),
      env.fill_name (by rintro rfl; cases found), agree.word_of_reserved isReserved_mathRoot,
      agree.word_of_reserved (isReserved_of_mathConstant? found)]
    exact .mathConstant found
  | .call found args arity => by
    rw [env.fill_name (ne_valuesRoot_of_function? found), env.fill_mark (by simp), args.separates,
      env.fill_mark (by simp), agree.word_of_reserved (isReserved_of_function? found)]
    exact .call found (args.fill agree) (by simpa using arity)
  | .mathCall found args arity => by
    rw [env.fill_name mathRoot_ne_valuesRoot, env.fill_mark (by simp),
      env.fill_name (ne_valuesRoot_of_function? found), env.fill_mark (by simp), args.separates,
      env.fill_mark (by simp), agree.word_of_reserved isReserved_mathRoot,
      agree.word_of_reserved (isReserved_of_function? found)]
    exact .mathCall found (args.fill agree) (by simpa using arity)
theorem DerivesAll.fill (agree : Agree scope env slots) {room : Nat} {xs : List Token}
    {es : List Expr} :
    DerivesAll scope room xs es →
      DerivesAll .empty room (env.fill xs) (Expr.fillAll slots es)
  | .nothing => .nothing
  | .one h => .one (h.fill agree)
  | .more h hs => by
    rw [h.separates, env.fill_mark (by simp)]
    exact .more (h.fill agree) (hs.fill agree)
end

end

/-- The outcome of a text in an environment: with values for its names the text derives as an
expression without names, and that has this outcome. -/
def Environment.Gives (env : Environment) (A : Arithmetic) (text : String)
    (r : Except Failure Float) : Prop :=
  ∃ ls room e, lexemes text = .ok ls ∧
    Derives .empty room .whole (env.fill (ls.map (·.token))) e ∧ e.value A [] = r

theorem Environment.Gives.unique {env : Environment} {A : Arithmetic} {text : String}
    {r r' : Except Failure Float} (h : env.Gives A text r) (h' : env.Gives A text r') : r = r' := by
  obtain ⟨ls, room, e, scanned, derives, rfl⟩ := h
  obtain ⟨ls', room', e', scanned', derives', rfl⟩ := h'
  cases scanned.symm.trans scanned'
  rw [derives.unique derives']

/-- A text that was read over a scope has, by its names, the value of its tree over the slots. -/
theorem Agree.gives {scope : Scope} {env : Environment} {slots : List Float} {limits : Limits}
    {text : String} {e : Expr} (agree : Agree scope env slots)
    (h : Expr.ofText scope limits text = .ok e) (A : Arithmetic) :
    env.Gives A text (e.value A slots) := by
  obtain ⟨ls, scanned, derives⟩ := derives_of_ofText h
  exact ⟨ls, limits.depth, e.fill slots, scanned, derives.fill agree, Expr.value_fill A e slots⟩

theorem lookup_zip {names : List String} {slots : List Float} (distinct : names.Nodup) {i : Nat}
    {name : String} {v : Float} (named : names[i]? = some name) (here : slots[i]? = some v) :
    (names.zip slots).lookup name = some v := by
  induction names generalizing slots i with
  | nil => cases named
  | cons first names ih =>
    cases slots with
    | nil => cases here
    | cons w slots =>
      obtain ⟨fresh, distinct⟩ := List.nodup_cons.mp distinct
      cases i with
      | zero =>
        cases named
        cases here
        simp
      | succ i =>
        have other : name ≠ first := by
          rintro rfl
          exact fresh (List.mem_of_getElem? named)
        rw [List.zip_cons_cons, List.lookup_cons, beq_eq_false_iff_ne.mpr other]
        exact ih distinct named here

theorem Scope.agree_zip (scope : Scope) {slots : List Float}
    (length : scope.names.length = slots.length) : Agree scope (scope.names.zip slots) slots where
  bound name i found := by
    have inside : i < slots.length := length ▸ Scope.slot?_lt found
    have here := List.getElem?_eq_getElem inside
    exact ⟨_, here, lookup_zip scope.distinct (Scope.slot?_eq_some_iff.mp found) here⟩
  free name reserved := by
    rw [List.lookup_eq_none_iff]
    intro entry member
    have bound := (List.of_mem_zip member).1
    have unlike : name ≠ entry.1 := by
      rintro rfl
      rw [scope.unreserved _ bound] at reserved
      cases reserved
    simpa using unlike

end BuildingCode.Expression

import BuildingCode.Proofs.Expression.Completeness
import BuildingCode.Proofs.Expression.Progress

/-! Reading an expression decides its grammar. Limits that do not reject a text leave no trace in
what is made of it, and for every text there are limits that do not reject it. -/
namespace BuildingCode.Expression

/-- The text may be rejected for what it says, but not for how long, deep or large it is. -/
def Limits.Suffice (limits : Limits) (scope : Scope) (text : String) : Prop :=
  ∀ j, Expr.ofText scope limits text = .error j → ¬j.IsLimit

/-- No tokens have two trees, however deep the derivations nest. -/
theorem Derives.unique {scope : Scope} {room room' : Nat} {xs : List Token} {e e' : Expr}
    (h : Derives scope room .whole xs e) (h' : Derives scope room' .whole xs e') : e = e' := by
  let ls : List Lexeme := xs.map fun t => ⟨t, 0, 0⟩
  let limits : Limits := { depth := max room room', nodes := max e.nodeCount e'.nodeCount }
  have tokens : ls.map (·.token) = xs := by simp [ls, Function.comp_def]
  have read : Expr.ofLexemes scope limits ls = .ok e := by
    rw [ofLexemes_eq_ok_iff, tokens]
    exact ⟨h.mono (Nat.le_max_left _ _), Nat.le_max_left _ _⟩
  have read' : Expr.ofLexemes scope limits ls = .ok e' := by
    rw [ofLexemes_eq_ok_iff, tokens]
    exact ⟨h'.mono (Nat.le_max_right _ _), Nat.le_max_right _ _⟩
  exact Except.ok.inj (read.symm.trans read')

section
variable {scope : Scope} {limits : Limits} {text : String} {ls : List Lexeme}

theorem ofText_of_length (scanned : lexemes text = .ok ls) (short : text.length ≤ limits.length) :
    Expr.ofText scope limits text =
      if ls.isEmpty then .error .empty else Expr.ofLexemes scope limits ls := by
  rw [Expr.ofText, if_neg (Nat.not_lt.mpr short), scanned]
  cases ls <;> rfl

theorem ofText_of_lt_length (long : limits.length < text.length) :
    Expr.ofText scope limits text = .error (.tooLong text.length limits.length) := by
  rw [Expr.ofText, if_pos long]
  rfl

/-- A text is accepted for its tree within the limits on its length, on nesting and on nodes. -/
theorem ofText_eq_ok_iff {e : Expr} : Expr.ofText scope limits text = .ok e ↔
    text.length ≤ limits.length ∧ ∃ ls, lexemes text = .ok ls ∧
      Derives scope limits.depth .whole (ls.map (·.token)) e ∧ e.nodeCount ≤ limits.nodes := by
  by_cases short : text.length ≤ limits.length
  · cases scanned : lexemes text with
    | error j =>
      rw [Expr.ofText, if_neg (Nat.not_lt.mpr short), scanned]
      constructor
      · intro h
        cases h
      · rintro ⟨_, _, ⟨⟩, _⟩
    | ok ls =>
      rw [ofText_of_length scanned short]
      cases ls with
      | nil =>
        constructor
        · intro h
          cases h
        · rintro ⟨_, _, ⟨⟩, derives, _⟩
          obtain ⟨_, _, begins, _⟩ := derives.begins
          cases begins
      | cons l ls =>
        have read : Expr.ofLexemes scope limits (l :: ls) = .ok e ↔ _ := ofLexemes_eq_ok_iff
        constructor
        · intro h
          exact ⟨short, _, rfl, read.mp h⟩
        · rintro ⟨_, _, ⟨⟩, accepted⟩
          exact read.mpr accepted
  · rw [ofText_of_lt_length (Nat.lt_of_not_le short)]
    constructor
    · intro h
      cases h
    · rintro ⟨length, _⟩
      exact absurd length short

theorem derives_of_ofText {e : Expr} (h : Expr.ofText scope limits text = .ok e) :
    ∃ ls, lexemes text = .ok ls ∧ Derives scope limits.depth .whole (ls.map (·.token)) e := by
  obtain ⟨_, ls, scanned, derives, _⟩ := ofText_eq_ok_iff.mp h
  exact ⟨ls, scanned, derives⟩

theorem resolved_of_ofText {e : Expr} (h : Expr.ofText scope limits text = .ok e) :
    e.Resolved scope.names.length := by
  obtain ⟨ls, _, derives⟩ := derives_of_ofText h
  exact derives.resolved

theorem lowered_ofText (scanned : lexemes text = .ok ls) {room : Nat} {e : Expr}
    (derives : Derives scope room .whole (ls.map (·.token)) e) :
    Lowered (Expr.ofText scope limits text) (.ok e) := by
  by_cases short : text.length ≤ limits.length
  · have some : ¬ls.isEmpty = true := by
      obtain ⟨t, ts, begins, _⟩ := derives.begins
      intro empty
      rw [List.isEmpty_iff.mp empty] at begins
      cases begins
    rw [ofText_of_length scanned short, if_neg some]
    -- Higher limits accept the derivation, and the given ones can only add a rejection of their own.
    let higher : Limits :=
      { depth := max limits.depth room, nodes := max limits.nodes e.nodeCount }
    have read : Expr.ofLexemes scope higher ls = .ok e :=
      ofLexemes_eq_ok_iff.mpr ⟨derives.mono (Nat.le_max_right _ _), Nat.le_max_right _ _⟩
    rw [← read]
    exact lowered_ofLexemes scope (Nat.le_max_left _ _) (Nat.le_max_left _ _) ls
  · exact .inr ⟨_, ofText_of_lt_length (Nat.lt_of_not_le short), trivial⟩

theorem Limits.Suffice.ofText_eq_ok (h : limits.Suffice scope text) (scanned : lexemes text = .ok ls)
    {room : Nat} {e : Expr} (derives : Derives scope room .whole (ls.map (·.token)) e) :
    Expr.ofText scope limits text = .ok e := by
  rcases lowered_ofText scanned derives with accepted | ⟨j, rejected, limit⟩
  · exact accepted
  · exact absurd limit (h j rejected)

theorem suffice_of_le (scanned : lexemes text = .ok ls) (length : text.length ≤ limits.length)
    (depth : 2 * ls.length + 2 ≤ limits.depth) (nodes : ls.length ≤ limits.nodes) :
    limits.Suffice scope text := by
  intro j rejected
  rw [ofText_of_length scanned length] at rejected
  by_cases empty : ls.isEmpty = true
  · rw [if_pos empty] at rejected
    cases rejected
    exact id
  · rw [if_neg empty] at rejected
    have free : Reader.Free (Reader.whole scope limits limits.depth) ⟨ls, 0⟩ :=
      (Reader.freeBelow_whole_and_sign scope limits limits.depth (ls.length + 1)).1 depth ⟨ls, 0⟩
        (by simp [Cursor.tokens]) (by simpa [Cursor.tokens] using nodes)
    cases run : Reader.whole scope limits limits.depth ⟨ls, 0⟩ with
    | error i =>
      have failed : Expr.ofLexemes scope limits ls = .error i := by
        rw [Expr.ofLexemes, StateT.run, run]
        rfl
      rw [failed] at rejected
      cases rejected
      exact free j run
    | ok result =>
      obtain ⟨e, rest, count⟩ := result
      rw [Expr.ofLexemes, StateT.run, run] at rejected
      cases rest with
      | nil => cases rejected
      | cons l rest =>
        cases rejected
        exact id

end

/-- A text is accepted exactly if its tokens derive as a whole expression, and then with the only
tree that they derive with. -/
theorem ofText_iff_derives (scope : Scope) {text : String} {ls : List Lexeme}
    (scanned : lexemes text = .ok ls) :
    (∀ limits : Limits, limits.Suffice scope text → ∀ e, Expr.ofText scope limits text = .ok e ↔
      ∃ room, Derives scope room .whole (ls.map (·.token)) e) ∧
    (∀ room room' e e', Derives scope room .whole (ls.map (·.token)) e →
      Derives scope room' .whole (ls.map (·.token)) e' → e = e') ∧
    ∀ limits : Limits, text.length ≤ limits.length → 2 * ls.length + 2 ≤ limits.depth →
      ls.length ≤ limits.nodes → limits.Suffice scope text := by
  refine ⟨?_, fun _ _ _ _ h h' => h.unique h', fun _ => suffice_of_le scanned⟩
  intro limits enough e
  constructor
  · intro accepted
    obtain ⟨_, scanned', derives⟩ := derives_of_ofText accepted
    cases scanned.symm.trans scanned'
    exact ⟨limits.depth, derives⟩
  · rintro ⟨room, derives⟩
    exact enough.ofText_eq_ok scanned derives

theorem ofText_iff_derives_signed_power : ∃ scope : Scope, scope.names = ["a", "b"] ∧
    lexemes "-a ** b" = .ok [⟨.minus, 0, 1⟩, ⟨.name "a", 1, 1⟩, ⟨.power, 3, 2⟩, ⟨.name "b", 6, 1⟩] ∧
    Limits.Suffice {} scope "-a ** b" ∧
    Expr.ofText scope {} "-a ** b" = .ok (.neg (.binary .pow (.slot 0) (.slot 1))) := by
  let scope : Scope := ⟨["a", "b"], by decide, by decide⟩
  have scanned : lexemes "-a ** b" =
      .ok [⟨.minus, 0, 1⟩, ⟨.name "a", 1, 1⟩, ⟨.power, 3, 2⟩, ⟨.name "b", 6, 1⟩] := rfl
  have settled := ofText_iff_derives scope scanned
  have enough := settled.2.2 {} (by decide) (by decide) (by decide)
  have power : Derives scope 9 .power [.name "a", .power, .name "b"]
      (.binary .pow (.slot 0) (.slot 1)) :=
    .power (.slot rfl) (.unsigned (.base (.slot rfl)))
  have sign : Derives scope 11 .sign [.minus, .name "a", .power, .name "b"]
      (.neg (.binary .pow (.slot 0) (.slot 1))) :=
    .minus (.unsigned power)
  refine ⟨scope, rfl, scanned, enough, (settled.1 {} enough _).mpr ⟨12, ?_⟩⟩
  exact .bare (.operand (.operand (.operand (.operand sign))))

end BuildingCode.Expression

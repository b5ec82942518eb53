import BuildingCode.Proofs.Expression.Scanning
import BuildingCode.Proofs.Formula.Authoring
import BuildingCode.Proofs.Formula.Rearrangement

/-! Declarations that pass their rules are a scope. Every name in it can be read by the scanner and
the parser, alone and behind the root of the values, and stands for its own slot. -/
namespace BuildingCode.Formula
open Expression Machine Outcome Text

/-- Letters, digits and underscores, no digit first. -/
def IsWord (name : String) : Prop :=
  ∃ c cs, name.toList = c :: cs ∧ (isLetter c = true ∨ c = '_') ∧
    ∀ d ∈ cs, isLetter d = true ∨ isDigit d = true ∨ d = '_'

def declaredNames (params : List Parameter) (intermediates : List Intermediate) : List String :=
  params.map (·.name) ++ intermediates.map (·.name)

def declaredLabels (params : List Parameter) (intermediates : List Intermediate) : List String :=
  params.map (·.label) ++ intermediates.map (·.label)

/-- Declarations that no rule objects to. -/
structure WellDeclared (params : List Parameter) (intermediates : List Intermediate) : Prop where
  words : ∀ name ∈ declaredNames params intermediates, IsWord name
  unreserved : ∀ name ∈ declaredNames params intermediates, isReserved name = false
  distinct : (declaredNames params intermediates).Nodup
  labelled : ∀ label ∈ declaredLabels params intermediates, ∃ c ∈ label.toList, isSpace c = false
  ordered : ∀ p ∈ params, ∀ low high, p.min = some low → p.max = some high → ¬high < low

section
variable {name label : String} {seen : List String} {entries : List (String × String)}
  {p : Parameter}

theorem isIdentifier_iff : isIdentifier name = true ↔ IsWord name := by
  unfold isIdentifier IsWord
  cases name.toList with
  | nil => simp
  | cons c cs => simp [isWordChar, or_assoc]

theorem nameRule?_eq_none_iff : nameRule? name = none ↔ IsWord name ∧ isReserved name = false := by
  rw [← isIdentifier_iff, nameRule?]
  cases isIdentifier name <;> cases isReserved name <;> simp

theorem isBlank_eq_false_iff : isBlank label = false ↔ ∃ c ∈ label.toList, isSpace c = false := by
  simp [isBlank]

theorem declarationRules_eq_nil_iff : declarationRules seen name label = [] ↔
    (IsWord name ∧ isReserved name = false) ∧ name ∉ seen ∧ isBlank label = false := by
  rw [declarationRules, List.append_eq_nil_iff, ← nameRule?_eq_none_iff]
  cases nameRule? name <;> simp

theorem declarationsFrom_eq_nil_iff : declarationsFrom seen entries = [] ↔
    (∀ name ∈ entries.map Prod.fst, IsWord name ∧ isReserved name = false) ∧
      (entries.map Prod.fst).Nodup ∧ (∀ name ∈ entries.map Prod.fst, name ∉ seen) ∧
      ∀ label ∈ entries.map Prod.snd, isBlank label = false := by
  induction entries generalizing seen with
  | nil => simp [declarationsFrom]
  | cons e entries ih =>
    obtain ⟨name, label⟩ := e
    simp only [declarationsFrom, List.append_eq_nil_iff, List.map_eq_nil_iff,
      declarationRules_eq_nil_iff, ih, List.map_cons, List.nodup_cons]
    constructor
    · rintro ⟨⟨rule, fresh, filled⟩, rules, distinct, apart, labels⟩
      refine ⟨List.forall_mem_cons.mpr ⟨rule, rules⟩, ⟨?_, distinct⟩,
        List.forall_mem_cons.mpr ⟨fresh, ?_⟩, List.forall_mem_cons.mpr ⟨filled, labels⟩⟩
      · exact fun again => apart name again List.mem_cons_self
      · exact fun other mem known => apart other mem (List.mem_cons_of_mem _ known)
    · rintro ⟨rules, ⟨once, distinct⟩, apart, labels⟩
      obtain ⟨rule, rules⟩ := List.forall_mem_cons.mp rules
      obtain ⟨fresh, apart⟩ := List.forall_mem_cons.mp apart
      obtain ⟨filled, labels⟩ := List.forall_mem_cons.mp labels
      refine ⟨⟨rule, fresh, filled⟩, rules, distinct, fun other mem known => ?_, labels⟩
      rcases List.mem_cons.mp known with rfl | known
      · exact once mem
      · exact apart other mem known

theorem boundsViolation?_eq_none_iff : p.boundsViolation? = none ↔
    ∀ low high, p.min = some low → p.max = some high → ¬high < low := by
  unfold Parameter.boundsViolation?
  cases p.min <;> cases p.max <;> simp

end

theorem declarationViolations_eq_nil_iff {params : List Parameter}
    {intermediates : List Intermediate} :
    declarationViolations params intermediates = [] ↔ WellDeclared params intermediates := by
  have names : (params.map (fun p => (p.name, p.label)) ++
      intermediates.map fun i => (i.name, i.label)).map Prod.fst =
        declaredNames params intermediates := by
    simp [declaredNames, Function.comp_def]
  have labels : (params.map (fun p => (p.name, p.label)) ++
      intermediates.map fun i => (i.name, i.label)).map Prod.snd =
        declaredLabels params intermediates := by
    simp [declaredLabels, Function.comp_def]
  rw [declarationViolations, List.append_eq_nil_iff, declarationsFrom_eq_nil_iff,
    List.filterMap_eq_nil_iff, names, labels]
  simp only [boundsViolation?_eq_none_iff, isBlank_eq_false_iff]
  constructor
  · rintro ⟨⟨rules, distinct, _, labelled⟩, ordered⟩
    exact ⟨fun name mem => (rules name mem).1, fun name mem => (rules name mem).2, distinct,
      labelled, ordered⟩
  · intro h
    exact ⟨⟨fun name mem => ⟨h.words name mem, h.unreserved name mem⟩, h.distinct, by simp,
      h.labelled⟩, h.ordered⟩

section
variable {scope last : Scope} {limits : Limits} {params : List Parameter} {is : List Intermediate}
  {r : Rejection}

theorem WellDeclared.exists_scope (h : WellDeclared params is) :
    ∃ scope : Scope, scope.names = declaredNames params is :=
  ⟨⟨_, h.unreserved, h.distinct⟩, rfl⟩

theorem mapError_ne_declaration {x : Except ε α} {told : ε → CompileFault}
    (other : ∀ e, told e ≠ .declaration r) : x.mapError told ≠ .error (.declaration r) := by
  intro h
  obtain ⟨e, same⟩ := told_of_mapError h
  exact other e same.symm

theorem compileSteps_ne_declaration (names : last.names = scope.names ++ is.map (·.name)) :
    compileSteps limits scope is ≠ .error (.declaration r) := by
  induction is generalizing scope with
  | nil => simp [compileSteps]
  | cons i is ih =>
    have all := foldlM_push_eq_ok_iff.mpr names
    rw [List.map_cons, List.foldlM_cons] at all
    obtain ⟨next, pushed, rest⟩ := bind_eq_ok.mp all
    refine bind_ne_error (mapError_ne_declaration (by simp)) fun _ _ => ?_
    refine bind_ne_error (ne_error_of_eq_ok (by rw [pushed]; rfl)) fun next' pushed' => ?_
    cases pushed.symm.trans (ok_of_mapError pushed')
    exact bind_ne_error (ih (foldlM_push_eq_ok_iff.mp rest)) fun _ _ => ne_error_of_eq_ok rfl

/-- The names of declarations that pass are never what a compile fails for. -/
theorem compile_ne_declaration {d : Definition} (h : WellDeclared d.params d.intermediates) :
    compile limits d ≠ .error (.declaration r) := by
  obtain ⟨last, names⟩ := h.exists_scope
  obtain ⟨scope, bound⟩ : ∃ scope : Scope, scope.names = d.params.map (·.name) := by
    have front : (d.params.map (·.name)).Sublist last.names := names ▸ List.sublist_append_left _ _
    exact ⟨⟨_, fun name mem => last.unreserved name (front.subset mem),
      last.distinct.sublist front⟩, rfl⟩
  rw [compile, ofNames_eq_ok_iff.mpr bound]
  refine bind_ne_error (ne_error_of_eq_ok rfl) fun _ first => ?_
  cases first
  have extends_ : last.names = scope.names ++ d.intermediates.map (·.name) := by
    rw [names, bound]
    rfl
  refine bind_ne_error (compileSteps_ne_declaration extends_) fun _ _ => ?_
  exact bind_ne_error (mapError_ne_declaration (by simp)) fun _ _ => ne_error_of_eq_ok rfl

theorem prepare_ne_declaration {d : Draft} (h : WellDeclared d.params d.intermediates)
    (id : String) : d.prepare limits id ≠ .error (.compile (.declaration r)) := by
  have plain (name text : String) : requireText name text ≠ .error (.compile (.declaration r)) := by
    unfold requireText
    split <;> simp
  refine bind_ne_error (plain _ _) fun _ _ => bind_ne_error (plain _ _) fun _ _ =>
    bind_ne_error (plain _ _) fun _ _ => ?_
  split
  · intro failed
    cases failed
  · dsimp only
    rw [if_neg (not_not.mpr (declarationViolations_eq_nil_iff.mpr h))]
    intro failed
    cases compiled : Formula.compile limits (d.definition id) with
    | ok c =>
      rw [compiled] at failed
      cases failed
    | error fault =>
      rw [compiled] at failed
      cases failed
      exact compile_ne_declaration (d := d.definition id) h compiled

end

def loading (slot : Nat) : Program := ⟨#[.load slot], #[], 1, slot + 1⟩

section
variable {name text : String} {scope : Scope} {limits : Limits} {i : Nat} {ls : List Lexeme}

theorem IsWord.takes (word : IsWord name) {ys : List Char}
    (ends : ∀ d, ys.head? = some d → isWordChar d = false) : Takes (.name name) name.toList ys := by
  obtain ⟨c, cs, letters, begins, behind⟩ := word
  refine takes_word letters (beginsName_iff.mpr begins) (List.all_eq_true.mpr fun d mem => ?_) ends
  simpa [isWordChar, or_assoc] using behind d mem

theorem lexemes_word (word : IsWord name) : lexemes name = .ok [⟨.name name, 0, name.length⟩] := by
  have takes : Takes (.name name) name.toList ([] ++ []) := word.takes (by simp)
  have scans : Scans 0 (name.toList ++ []) [] _ := .token takes .nil
  rw [List.append_nil] at scans
  exact scans.scanFrom_end

theorem lexemes_member (word : IsWord name) : lexemes ("values." ++ name) =
    .ok [⟨.name valuesRoot, 0, 6⟩, ⟨.dot, 6, 1⟩, ⟨.name name, 7, name.length⟩] := by
  have root : IsWord valuesRoot := isIdentifier_iff.mp (by decide)
  have takes : Takes (.name name) name.toList ([] ++ []) := word.takes (by simp)
  have point : Takes .dot ['.'] (name.toList ++ [] ++ []) := by
    rw [List.append_assoc]
    exact takes.point (List.forall_mem_nil _)
  have before : Takes (.name valuesRoot) valuesRoot.toList (['.'] ++ (name.toList ++ []) ++ []) :=
    root.takes fun d first => by cases first; rfl
  have scans : Scans 0 _ [] _ := .token before (.token point (.token takes .nil))
  have letters : ("values." ++ name).toList =
      valuesRoot.toList ++ (['.'] ++ (name.toList ++ [])) := by
    rw [String.toList_append, List.append_nil]
    rfl
  rw [lexemes, letters]
  exact scans.scanFrom_end

theorem ofText_eq_ok_iff_loading (scanned : lexemes text = .ok ls)
    (derives : Derives scope 0 .primary (ls.map (·.token)) (.slot i)) (p : Program) :
    Program.ofText scope limits text = .ok p ↔ p = loading i ∧ text.length ≤ limits.length ∧
      2 ≤ limits.depth ∧ 1 ≤ limits.nodes := by
  have whole : Derives scope 2 .whole (ls.map (·.token)) (.slot i) :=
    .bare (.operand (.operand (.operand (.operand (.unsigned (.base derives))))))
  constructor
  · intro compiled
    obtain ⟨e, read, lowered⟩ := bind_eq_ok.mp compiled
    obtain ⟨short, ls', scanned', derives', nodes⟩ := ofText_eq_ok_iff.mp read
    cases scanned.symm.trans scanned'
    obtain rfl := whole.unique derives'
    cases lowered
    exact ⟨rfl, short, derives'.leastRoom_le, nodes⟩
  · rintro ⟨rfl, short, room, nodes⟩
    have read : Expr.ofText scope limits text = .ok (.slot i) :=
      ofText_eq_ok_iff.mpr ⟨short, ls, scanned, whole.mono room, nodes⟩
    exact bind_eq_ok.mpr ⟨_, read, rfl⟩

end

/-- The rules for declarations are those of the compiler. Declarations pass them exactly if their
names are distinct words that are not reserved, and labels and bounds are in order. Declarations
that pass are no reason for a compile to fail, and over them every name, bare or behind its root,
loads its own slot, as far as the limits leave room for a text of one name. -/
theorem declarations_agree (params : List Parameter) (intermediates : List Intermediate) :
    (declarationViolations params intermediates = [] ↔ WellDeclared params intermediates) ∧
    (declarationViolations params intermediates = [] →
      (∀ (d : Draft) limits id r, d.params = params → d.intermediates = intermediates →
        d.prepare limits id ≠ .error (.compile (.declaration r))) ∧
      ∃ scope, Scope.ofNames (declaredNames params intermediates) = .ok scope ∧
        ∀ i name, (declaredNames params intermediates)[i]? = some name → ∀ (limits : Limits) p,
          (Program.ofText scope limits name = .ok p ↔ p = loading i ∧
            name.length ≤ limits.length ∧ 2 ≤ limits.depth ∧ 1 ≤ limits.nodes) ∧
          (Program.ofText scope limits ("values." ++ name) = .ok p ↔ p = loading i ∧
            name.length + 7 ≤ limits.length ∧ 2 ≤ limits.depth ∧ 1 ≤ limits.nodes)) := by
  refine ⟨declarationViolations_eq_nil_iff, fun passed => ?_⟩
  have well := declarationViolations_eq_nil_iff.mp passed
  refine ⟨fun d limits id r params intermediates => ?_, ?_⟩
  · subst params intermediates
    exact prepare_ne_declaration well id
  · obtain ⟨scope, names⟩ := well.exists_scope
    refine ⟨scope, ofNames_eq_ok_iff.mpr names, fun i name here limits p => ?_⟩
    have word := well.words name (List.mem_of_getElem? here)
    have slot : scope.slot? name = some i := Scope.slot?_eq_some_iff.mpr (names ▸ here)
    refine ⟨ofText_eq_ok_iff_loading (lexemes_word word) (.slot slot) p, ?_⟩
    have member : Program.ofText scope limits ("values." ++ name) = .ok p ↔ _ :=
      ofText_eq_ok_iff_loading (lexemes_member word) (.valuesSlot slot) p
    have length : ("values." ++ name).length = name.length + 7 := by
      rw [String.length_append, Nat.add_comm]
      rfl
    rwa [length] at member

theorem declarations_agree_two : ∃ (p : Parameter) (i : Intermediate) (scope : Scope),
    declarationViolations [p] [i] = [] ∧ Scope.ofNames ["N_kN", "N"] = .ok scope ∧
    Program.ofText scope {} "N_kN" = .ok (loading 0) ∧
    Program.ofText scope {} "values.N" = .ok (loading 1) := by
  let p : Parameter := ⟨"N_kN", "Axial force", some "kN", some 0.0, none, none⟩
  let i : Intermediate := ⟨"N", "N", some "N", "N_kN * 1000"⟩
  have passed : declarationViolations [p] [i] = [] := by decide +kernel
  obtain ⟨_, scope, bound, loads⟩ := (declarations_agree [p] [i]).2 passed
  have first := (loads 0 "N_kN" rfl {} (loading 0)).1.mpr ⟨rfl, by decide, by decide, by decide⟩
  have second := (loads 1 "N" rfl {} (loading 1)).2.mpr ⟨rfl, by decide, by decide, by decide⟩
  exact ⟨p, i, scope, passed, bound, first, second⟩

theorem length_le_of_mem_lookup {β : Type} {table : List (String × β)} {name : String}
    (short : ∀ entry ∈ table, entry.1.length ≤ 7) (found : (table.lookup name).isSome = true) :
    name.length ≤ 7 := by
  obtain ⟨v, found⟩ := Option.isSome_iff_exists.mp found
  obtain ⟨before, behind, split, _⟩ := List.lookup_eq_some_iff.mp found
  exact short (name, v) (by simp [split])

theorem length_le_of_isReserved {name : String} (reserved : isReserved name = true) :
    name.length ≤ 7 := by
  simp only [isReserved, Bool.or_eq_true, beq_iff_eq] at reserved
  rcases reserved with ((rfl | rfl) | function) | constant
  · decide
  · decide
  · exact length_le_of_mem_lookup (by decide) function
  · rw [constant?, if_neg (by decide), Option.isSome_or, Bool.or_eq_true] at constant
    exact constant.elim (length_le_of_mem_lookup (by decide)) (length_le_of_mem_lookup (by decide))

/-- The rules say nothing of length: a name may be longer than a text that is compiled. -/
theorem declared_name_too_long : ∃ (p : Parameter) (scope : Scope),
    declarationViolations [p] [] = [] ∧ Scope.ofNames [p.name] = .ok scope ∧
    p.name = String.ofList (List.replicate 2001 'a') ∧
    Program.ofText scope {} p.name = .error (.tooLong 2001 2000) := by
  obtain ⟨name, spelled⟩ : ∃ name, name = String.ofList (List.replicate 2001 'a') := ⟨_, rfl⟩
  have letters : name.toList = 'a' :: List.replicate 2000 'a' := by
    rw [spelled, String.toList_ofList, List.replicate_succ]
  have length : name.length = 2001 := by
    rw [← String.length_toList, letters, List.length_cons, List.length_replicate]
  have word : IsWord name := by
    refine ⟨'a', _, letters, .inl rfl, fun d mem => .inl ?_⟩
    rw [List.eq_of_mem_replicate mem]
    rfl
  have unreserved : isReserved name = false := by
    rw [← Bool.not_eq_true]
    intro reserved
    have := length_le_of_isReserved reserved
    omega
  have labelled : ∃ c ∈ "A long name".toList, isSpace c = false := ⟨'A', by decide, rfl⟩
  let p : Parameter := ⟨name, "A long name", none, none, none, none⟩
  have well : WellDeclared [p] [] :=
    ⟨List.forall_mem_singleton.mpr word, List.forall_mem_singleton.mpr unreserved,
      List.pairwise_singleton _ _, List.forall_mem_singleton.mpr labelled,
      List.forall_mem_singleton.mpr (by simp [p])⟩
  obtain ⟨scope, names⟩ := well.exists_scope
  have long : Expr.ofText scope {} name = .error (.tooLong 2001 2000) := by
    rw [ofText_of_lt_length (by rw [length]; decide), length]
  refine ⟨p, scope, declarationViolations_eq_nil_iff.mpr well, ofNames_eq_ok_iff.mpr names,
    spelled, ?_⟩
  rw [Program.ofText, long]
  rfl

end BuildingCode.Formula

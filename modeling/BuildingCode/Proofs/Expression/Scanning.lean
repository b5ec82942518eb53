import BuildingCode.Expression.Lexeme
import BuildingCode.Proofs.Expression.Literals
import BuildingCode.Proofs.Outcome
import BuildingCode.Proofs.Text.Digits
import Mathlib.Data.List.TakeWhile

/-! The scan takes at each place the longest token that begins there, passes over blanks only, and
stops at the first place where nothing can be read. -/
namespace BuildingCode.Expression
open Text Number

def operators : List (List Char × Token) :=
  [(['*', '*'], .power), (['*'], .star), (['^'], .power), (['+'], .plus), (['-'], .minus),
   (['/'], .slash), (['%'], .percent), (['('], .openParen), ([')'], .closeParen), ([','], .comma),
   (['.'], .dot), (['?'], .question), ([':'], .colon), (['<', '='], .le), (['<'], .lt),
   (['>', '='], .ge), (['>'], .gt), (['=', '=', '='], .eq), (['=', '='], .eq),
   (['!', '=', '='], .ne), (['!', '='], .ne)]

def spellings : List (List Char) := operators.map Prod.fst

/-- The characters are a spelling of the token, wherever they stand. -/
inductive Token.SpelledBy : Token → List Char → Prop
  | number {n xs} : WritesLiteral n xs → SpelledBy (.number n.toFloat) xs
  | name {c cs} : beginsName c = true → (∀ d ∈ cs, isWordChar d = true) →
      SpelledBy (.name (String.ofList (c :: cs))) (c :: cs)
  | pi : SpelledBy (.name "π") ['π']
  | operator {t xs} : (xs, t) ∈ operators → SpelledBy t xs

/-- The token is read from `xs` where `ys` follows. -/
inductive Takes : Token → (xs ys : List Char) → Prop
  | number {n xs ys} : WritesLiteral n xs → n.toFloat.isFinite = true →
      continuesLiteral ys = false → Takes (.number n.toFloat) xs ys
  | name {c cs ys} : beginsName c = true → (∀ d ∈ cs, isWordChar d = true) →
      (∀ d, ys.head? = some d → isWordChar d = false) →
      Takes (.name (String.ofList (c :: cs))) (c :: cs) ys
  | pi {ys} : Takes (.name "π") ['π'] ys
  | operator {t xs ys} : (xs, t) ∈ operators →
      (∀ d, ys.head? = some d →
        xs ++ [d] ∉ spellings ∧ (xs = ['.'] → isDigit d = false)) →
      Takes t xs ys

section
variable {c : Char}

theorem isLetter_iff : isLetter c = true ↔
    ('a'.toNat ≤ c.toNat ∧ c.toNat ≤ 'z'.toNat) ∨ ('A'.toNat ≤ c.toNat ∧ c.toNat ≤ 'Z'.toNat) := by
  simp [isLetter, Char.le_def, UInt32.le_iff_toNat_le]

theorem beginsName_iff : beginsName c = true ↔ isLetter c = true ∨ c = '_' := by
  simp [beginsName]

theorem isWordChar_of_beginsName (h : beginsName c = true) : isWordChar c = true := by
  rcases beginsName_iff.mp h with letter | rfl
  · simp [isWordChar, letter]
  · rfl

theorem isSpace_of_isWordChar (word : isWordChar c = true) : isSpace c = false := by
  simp only [isWordChar, Bool.or_eq_true, beq_iff_eq] at word
  rcases word with (letter | digit) | rfl
  · have range := isLetter_iff.mp letter
    simp only [Char.reduceToNat] at range
    simp [isSpace]
    omega
  · have range := isDigit_iff.mp digit
    simp only [Char.reduceToNat] at range
    simp [isSpace]
    omega
  · rfl

theorem not_isWordChar_of_isSpace (space : isSpace c = true) : isWordChar c = false := by
  rw [← Bool.not_eq_true]
  intro word
  cases space.symm.trans (isSpace_of_isWordChar word)

theorem not_isDigit_of_beginsName (h : beginsName c = true) : isDigit c = false := by
  rw [← Bool.not_eq_true]
  intro digit
  have range := isDigit_iff.mp digit
  simp only [Char.reduceToNat] at range
  rcases beginsName_iff.mp h with letter | rfl
  · have range' := isLetter_iff.mp letter
    simp only [Char.reduceToNat] at range'
    omega
  · cases digit

end

section
variable {t t' : Token} {c d : Char} {cs us xs ys zs : List Char}

theorem operators_begin : ∀ p ∈ operators, (p.1.head?.any fun c =>
    !isDigit c && !isSpace c && !beginsName c && c != 'π') = true := by decide

theorem head_of_operator (mem : (c :: cs, t) ∈ operators) :
    isDigit c = false ∧ isSpace c = false ∧ beginsName c = false ∧ c ≠ 'π' := by
  simpa [and_assoc] using operators_begin _ mem

theorem WritesLiteral.head {n : Numeral} (h : WritesLiteral n (c :: cs)) :
    isDigit c = true ∨ c = '.' := (h.begins []).cons

theorem WritesLiteral.digit_behind_point {n : Numeral} (h : WritesLiteral n ('.' :: d :: cs)) :
    isDigit d = true := by
  rcases h.begins [] with digit | ⟨ds, point, digit⟩
  · cases digit
  · obtain ⟨_, rfl⟩ := List.cons.inj point
    exact digit

theorem WritesLiteral.isSpace {n : Numeral} (h : WritesLiteral n xs) :
    ∀ c ∈ xs, isSpace c = false := by
  have word {ds : List Char} (run : IsRun ds) : ∀ c ∈ ds, Text.isSpace c = false :=
    fun c mem => isSpace_of_isWordChar (run.isWordChar c mem)
  have letter {c : Char} (mark : c = 'e' ∨ c = 'E') : Text.isSpace c = false := by
    rcases mark with rfl | rfl <;> rfl
  obtain ⟨mantissa, exponent⟩ := h
  refine List.forall_mem_append.mpr ⟨fun c mem => ?_, ?_⟩
  · have inside := mantissa.continues c mem
    rw [Bool.or_eq_true, beq_iff_eq] at inside
    rcases inside with word | rfl
    · exact isSpace_of_isWordChar word
    · rfl
  · cases exponent with
    | none => simp
    | unsigned mark run => exact List.forall_mem_cons.mpr ⟨letter mark, word run⟩
    | plus mark run | minus mark run =>
      exact List.forall_mem_cons.mpr ⟨letter mark, List.forall_mem_cons.mpr ⟨rfl, word run⟩⟩

namespace Token.SpelledBy

theorem of_digit (h : t.SpelledBy (c :: cs)) (digit : isDigit c = true) :
    ∃ n, WritesLiteral n (c :: cs) := by
  cases h with
  | number literal => exact ⟨_, literal⟩
  | name begins _ => cases (not_isDigit_of_beginsName begins).symm.trans digit
  | pi => cases digit
  | operator mem => cases (head_of_operator mem).1.symm.trans digit

theorem of_point (h : t.SpelledBy ('.' :: d :: cs)) : ∃ n, WritesLiteral n ('.' :: d :: cs) := by
  cases h with
  | number literal => exact ⟨_, literal⟩
  | name begins _ => cases begins
  | operator mem => simp [operators] at mem

theorem of_name (h : t.SpelledBy (c :: cs)) (begins : beginsName c = true) :
    ∀ d ∈ cs, isWordChar d = true := by
  cases h with
  | number literal =>
    rcases literal.head with digit | rfl
    · cases (not_isDigit_of_beginsName begins).symm.trans digit
    · cases begins
  | name _ word => exact word
  | pi => cases begins
  | operator mem => cases (head_of_operator mem).2.2.1.symm.trans begins

theorem of_pi (h : t.SpelledBy ('π' :: cs)) : cs = [] := by
  cases h with
  | number literal => rcases literal.head with digit | point <;> contradiction
  | name begins _ => cases begins
  | pi => rfl
  | operator mem => exact absurd rfl (head_of_operator mem).2.2.2

theorem of_operator (h : t.SpelledBy (c :: cs)) (mem : (c :: xs, t') ∈ operators)
    (point : c ≠ '.') : (c :: cs, t) ∈ operators := by
  obtain ⟨noDigit, _, noName, noPi⟩ := head_of_operator mem
  cases h with
  | number literal =>
    rcases literal.head with digit | rfl
    · cases noDigit.symm.trans digit
    · exact absurd rfl point
  | name begins _ => cases noName.symm.trans begins
  | pi => exact absurd rfl noPi
  | operator mem' => exact mem'

theorem ne_nil (h : t.SpelledBy xs) : xs ≠ [] := by
  cases h with
  | number literal =>
    rintro rfl
    rcases literal.begins [] with digit | ⟨ds, none, _⟩ <;> contradiction
  | name | pi => exact List.cons_ne_nil _ _
  | operator mem =>
    rintro rfl
    simp [operators] at mem

end Token.SpelledBy

/-- Between an operator and a longer one there is an operator for each further character. -/
theorem spellings_longer : ∀ xs ∈ spellings, ∀ ys ∈ spellings, xs <+: ys → xs ≠ ys →
    ys.take (xs.length + 1) ∈ spellings := by decide

theorem mem_spellings (mem : (xs, t) ∈ operators) : xs ∈ spellings :=
  List.mem_map_of_mem (f := Prod.fst) mem

namespace Takes

theorem spelledBy (h : Takes t xs ys) : t.SpelledBy xs := by
  cases h with
  | number literal _ _ => exact .number literal
  | name begins word _ => exact .name begins word
  | pi => exact .pi
  | operator mem _ => exact .operator mem

theorem front (h : Takes t xs (ys ++ zs)) : Takes t xs ys := by
  have first : ∀ d, ys.head? = some d → (ys ++ zs).head? = some d := by
    intro d first
    rw [List.head?_append, first, Option.some_or]
  cases h with
  | number literal finite apart =>
    refine .number literal finite ?_
    cases ys with
    | nil => rfl
    | cons d ys => exact apart
  | name begins word ends => exact .name begins word fun d here => ends d (first d here)
  | pi => exact .pi
  | operator mem ends => exact .operator mem fun d here => ends d (first d here)

/-- No token begins with the characters of one that is read and goes on with the next. -/
theorem longest (h : Takes t xs (d :: ys)) (us : List Char) : ¬t'.SpelledBy (xs ++ d :: us) := by
  intro longer
  cases h with
  | @number n _ _ literal _ apart =>
    obtain ⟨c, cs, rfl⟩ := List.exists_cons_of_ne_nil (Token.SpelledBy.number literal).ne_nil
    obtain ⟨n', literal'⟩ : ∃ n', WritesLiteral n' (c :: cs ++ d :: us) := by
      rcases literal.head with digit | rfl
      · exact longer.of_digit digit
      · cases cs with
        | nil => exact longer.of_point
        | cons => exact longer.of_point
    rw [continuesLiteral_cons, literal.continues literal'] at apart
    cases apart
  | @name c cs _ begins _ ends =>
    have word := longer.of_name begins d (by simp)
    rw [ends d rfl] at word
    cases word
  | pi => cases longer.of_pi
  | @operator _ _ _ mem ends =>
    obtain ⟨apart, point⟩ := ends d rfl
    obtain ⟨c, cs, rfl⟩ := List.exists_cons_of_ne_nil (Token.SpelledBy.operator mem).ne_nil
    by_cases dot : c = '.'
    · subst dot
      obtain ⟨rfl, rfl⟩ : cs = [] ∧ t = .dot := by simpa [operators] using mem
      obtain ⟨n, literal⟩ := longer.of_point
      have digit := literal.digit_behind_point
      rw [point rfl] at digit
      cases digit
    · have step : (c :: cs ++ d :: us).take ((c :: cs).length + 1) ∈ spellings :=
        spellings_longer _ (mem_spellings mem) _ (mem_spellings (longer.of_operator mem dot))
          (List.prefix_append _ _) (by simp)
      rw [List.take_length_add_append] at step
      exact apart step

theorem isSpace (h : Takes t xs ys) : ∀ c ∈ xs, isSpace c = false := by
  cases h with
  | number literal _ _ => exact literal.isSpace
  | name begins word _ =>
    refine List.forall_mem_cons.mpr ⟨isSpace_of_isWordChar (isWordChar_of_beginsName begins), ?_⟩
    exact fun d mem => isSpace_of_isWordChar (word d mem)
  | pi => exact List.forall_mem_singleton.mpr rfl
  | operator mem _ =>
    have marks : (operators.all fun p => p.1.all fun c => !Text.isSpace c) = true := rfl
    simpa using List.all_eq_true.mp marks _ mem

end Takes

theorem startsLiteral_iff : (isDigit c || (c == '.' && startsWithDigit cs)) = true ↔
    BeginsLiteral (c :: cs) := by
  simp [BeginsLiteral]

theorem exists_of_operator? {width : Nat} (h : operator? c cs = some (t, width)) :
    ∃ xs ys, c :: cs = xs ++ ys ∧ width = xs.length ∧ (xs, t) ∈ operators ∧
      ∀ d, ys.head? = some d → xs ++ [d] ∉ spellings := by
  unfold operator? at h
  split at h
  all_goals cases h
  all_goals first
    | refine ⟨[_, _, _], _, rfl, rfl, by decide, ?_⟩
    | refine ⟨[_, _], _, rfl, rfl, by decide, ?_⟩
    | refine ⟨[_], _, rfl, rfl, by decide, ?_⟩
  all_goals
    intro d first
    obtain ⟨more, rfl⟩ := List.head?_eq_some_iff.mp first
    simp_all [spellings, operators]

theorem operator?_append (mem : (c :: xs, t) ∈ operators)
    (ends : ∀ d, ys.head? = some d → c :: xs ++ [d] ∉ spellings) :
    operator? c (xs ++ ys) = some (t, xs.length + 1) := by
  simp only [operators, List.mem_cons, List.not_mem_nil, or_false, Prod.mk.injEq,
    List.cons.injEq] at mem
  casesm* _ ∨ _, _ ∧ _ <;> subst_vars
  all_goals first
    | rfl
    | cases ys with
      | nil => rfl
      | cons d ys =>
        have apart := ends d rfl
        simp [spellings, operators] at apart
        simp [operator?, apart]

theorem scanToken_of_literal {position : Nat} (begins : BeginsLiteral (c :: cs)) :
    scanToken position c cs = match scanLiteral (c :: cs) with
      | .ok (value, width) => .ok (.number value, width)
      | .error width =>
        .error (.invalidNumber (String.ofList ((c :: cs).take width)) position) :=
  if_pos (startsLiteral_iff.mpr begins)

theorem scanToken_of_name {position : Nat} (begins : beginsName c = true) :
    scanToken position c cs = .ok (.name (String.ofList (c :: cs.takeWhile isWordChar)),
      (cs.takeWhile isWordChar).length + 1) := by
  have plain : ¬(isDigit c || (c == '.' && startsWithDigit cs)) = true := by
    have noPoint : c ≠ '.' := by rintro rfl; cases begins
    simp [not_isDigit_of_beginsName begins, noPoint]
  have noPi : ¬(c == 'π') = true := by
    rw [beq_iff_eq]
    rintro rfl
    cases begins
  rw [scanToken, if_neg plain, if_neg noPi, if_pos begins]
  rfl

theorem scanToken_of_mark {position : Nat} (plain : ¬BeginsLiteral (c :: cs)) (noPi : c ≠ 'π')
    (noName : beginsName c = false) : scanToken position c cs = match operator? c cs with
      | some found => .ok found
      | none => .error (rejectChar c position) := by
  refine (if_neg (mt startsLiteral_iff.mp plain)).trans ?_
  exact (if_neg (by simpa using noPi)).trans (if_neg (by simp [noName]))

theorem not_beginsLiteral_of_operator (mem : (c :: xs, t) ∈ operators)
    (point : ∀ d, ys.head? = some d → c :: xs = ['.'] → isDigit d = false) :
    ¬BeginsLiteral (c :: (xs ++ ys)) := by
  rintro (digit | ⟨ds, same, digit⟩)
  · cases (head_of_operator mem).1.symm.trans digit
  · obtain ⟨rfl, rfl⟩ := List.cons.inj same
    obtain ⟨rfl, rfl⟩ : xs = [] ∧ t = .dot := by simpa [operators] using mem
    cases ys with
    | nil => cases digit
    | cons d ys => cases (point d rfl rfl).symm.trans digit

theorem Takes.scanToken (h : Takes t (c :: xs) ys) (position : Nat) :
    scanToken position c (xs ++ ys) = .ok (t, xs.length + 1) := by
  cases h with
  | number literal finite apart =>
    have begins : BeginsLiteral (c :: (xs ++ ys)) := literal.begins ys
    rw [scanToken_of_literal begins, ← List.cons_append, scanLiteral_append literal apart,
      if_pos finite]
    rfl
  | name begins word ends =>
    have stop : (xs ++ ys).takeWhile isWordChar = xs := by
      rw [List.takeWhile_append_of_pos word]
      cases ys with
      | nil => simp
      | cons d ys => simp [ends d rfl]
    rw [scanToken_of_name begins, stop]
  | pi => rfl
  | operator mem ends =>
    obtain ⟨_, _, noName, noPi⟩ := head_of_operator mem
    have plain := not_beginsLiteral_of_operator mem fun d here => (ends d here).2
    rw [scanToken_of_mark plain noPi noName, operator?_append mem fun d here => (ends d here).1]

theorem exists_of_scanToken {position width : Nat} (h : scanToken position c cs = .ok (t, width)) :
    ∃ xs ys, cs = xs ++ ys ∧ width = xs.length + 1 ∧ Takes t (c :: xs) ys := by
  by_cases begins : BeginsLiteral (c :: cs)
  · rw [scanToken_of_literal begins] at h
    split at h
    · next value width' read =>
      cases h
      obtain ⟨n, xs, ys, split, literal, apart, finite, rfl, rfl⟩ :=
        exists_of_scanLiteral begins read
      obtain ⟨d, ds, rfl⟩ := List.exists_cons_of_ne_nil (Token.SpelledBy.number literal).ne_nil
      obtain ⟨rfl, rfl⟩ := List.cons.inj split
      exact ⟨ds, ys, rfl, rfl, .number literal finite apart⟩
    · cases h
  · by_cases pi : c = 'π'
    · subst pi
      cases h
      exact ⟨[], cs, rfl, rfl, .pi⟩
    · by_cases name : beginsName c = true
      · rw [scanToken_of_name name] at h
        cases h
        refine ⟨_, cs.dropWhile isWordChar, List.takeWhile_append_dropWhile.symm, rfl, ?_⟩
        refine .name name (fun d mem => List.mem_takeWhile_imp mem) fun d first => ?_
        have stop := List.head?_dropWhile_not isWordChar cs
        rwa [first] at stop
      · rw [scanToken_of_mark begins pi (Bool.eq_false_iff.mpr name)] at h
        split at h
        · next found read =>
          cases h
          obtain ⟨xs, ys, split, rfl, mem, ends⟩ := exists_of_operator? read
          obtain ⟨d, ds, rfl⟩ := List.exists_cons_of_ne_nil (Token.SpelledBy.operator mem).ne_nil
          obtain ⟨rfl, rfl⟩ := List.cons.inj split
          refine ⟨ds, ys, rfl, rfl, .operator mem fun d first => ⟨ends d first, fun point => ?_⟩⟩
          obtain ⟨rfl, rfl⟩ := List.cons.inj point
          obtain ⟨more, rfl⟩ := List.head?_eq_some_iff.mp first
          rw [← Bool.not_eq_true]
          exact fun digit => begins (.inr ⟨_, rfl, digit⟩)
        · cases h

theorem takes_iff : Takes t (c :: xs) ys ↔ scanToken 0 c (xs ++ ys) = .ok (t, xs.length + 1) := by
  refine ⟨fun h => h.scanToken 0, fun read => ?_⟩
  obtain ⟨us, vs, split, width, takes⟩ := exists_of_scanToken read
  obtain ⟨rfl, rfl⟩ := List.append_inj split (Nat.succ.inj width)
  exact takes

theorem takes_word {name : String} (letters : name.toList = c :: cs) (begins : beginsName c = true)
    (word : cs.all isWordChar = true) (ends : ∀ d, ys.head? = some d → isWordChar d = false) :
    Takes (.name name) name.toList ys := by
  have spelled : name = String.ofList (c :: cs) := by rw [← letters, String.ofList_toList]
  rw [letters, spelled]
  exact .name begins (List.all_eq_true.mp word) ends

theorem Takes.not_isDigit {name : String} (h : Takes (.name name) xs ys)
    (first : xs.head? = some c) : isDigit c = false := by
  cases h with
  | name begins _ _ =>
    cases first
    exact not_isDigit_of_beginsName begins
  | pi =>
    cases first
    rfl
  | operator mem _ => simp [operators] at mem

theorem Takes.point {name : String} {back : List Char} (h : Takes (.name name) xs ys)
    (blank : ∀ c ∈ back, Text.isSpace c = true) : Takes .dot ['.'] (back ++ (xs ++ ys)) := by
  refine .operator (by decide) fun d first => ⟨by simp [spellings, operators], fun _ => ?_⟩
  cases back with
  | nil =>
    obtain ⟨c, cs, rfl⟩ := List.exists_cons_of_ne_nil h.spelledBy.ne_nil
    cases first
    exact h.not_isDigit rfl
  | cons =>
    cases first
    have noWord := not_isWordChar_of_isSpace (blank d List.mem_cons_self)
    exact Bool.eq_false_iff.mpr fun digit => by simp [isWordChar_of_isDigit digit] at noWord

/-- The lexemes are read from `xs`, which begins at a position, where `ys` follows. -/
inductive Scans : Nat → (xs ys : List Char) → List Lexeme → Prop
  | nil {p ys} : Scans p [] ys []
  | blank {p c xs ys ls} : isSpace c = true → Scans (p + 1) xs ys ls → Scans p (c :: xs) ys ls
  | token {p t us xs ys ls} : Takes t us (xs ++ ys) → Scans (p + us.length) xs ys ls →
      Scans p (us ++ xs) ys (⟨t, p, us.length⟩ :: ls)

theorem scanFrom_append (p : Nat) (xs ys : List Char) :
    scanFrom p xs.length (xs ++ ys) = scanFrom (p + xs.length) 0 ys := by
  induction xs generalizing p with
  | nil => rfl
  | cons c xs ih =>
    rw [List.length_cons, List.cons_append, scanFrom, ih, Nat.add_right_comm]
    rfl

theorem scanFrom_blank {p : Nat} (space : isSpace c = true) :
    scanFrom p 0 (c :: cs) = scanFrom (p + 1) 0 cs := by
  rw [scanFrom, if_pos space]

theorem scanFrom_stuck {p : Nat} {j : Rejection} (plain : isSpace c = false)
    (stuck : scanToken p c cs = .error j) : scanFrom p 0 (c :: cs) = .error j := by
  rw [scanFrom, if_neg (by simp [plain]), stuck]

theorem Takes.scanFrom (h : Takes t xs ys) (p : Nat) : scanFrom p 0 (xs ++ ys) =
    (scanFrom (p + xs.length) 0 ys).map (⟨t, p, xs.length⟩ :: ·) := by
  obtain ⟨c, cs, rfl⟩ := List.exists_cons_of_ne_nil h.spelledBy.ne_nil
  have plain : ¬Text.isSpace c = true := by simp [h.isSpace c List.mem_cons_self]
  rw [List.cons_append, Expression.scanFrom, if_neg plain, h.scanToken p]
  simp only [Nat.add_sub_cancel, scanFrom_append, List.length_cons, Nat.add_right_comm p 1]
  rw [Nat.add_assoc]
  cases Expression.scanFrom (p + (cs.length + 1)) 0 ys <;> rfl

/-- A scan goes to the end, or to a character that is not blank and begins no token. -/
theorem scans_or_stuck (cs : List Char) (p : Nat) : (∃ ls, Scans p cs [] ls) ∨
    ∃ xs c ys ls j, cs = xs ++ c :: ys ∧ Scans p xs (c :: ys) ls ∧ isSpace c = false ∧
      scanToken (p + xs.length) c ys = .error j := by
  induction n : cs.length using Nat.strongRecOn generalizing cs p with
  | ind n ih =>
    subst n
    cases cs with
    | nil => exact .inl ⟨[], .nil⟩
    | cons c cs =>
      by_cases space : isSpace c = true
      · rcases ih cs.length (by simp) cs (p + 1) rfl with
          ⟨ls, scans⟩ | ⟨xs, d, ys, ls, j, rfl, scans, plain, stuck⟩
        · exact .inl ⟨ls, .blank space scans⟩
        · refine .inr ⟨c :: xs, d, ys, ls, j, rfl, .blank space scans, plain, ?_⟩
          rwa [List.length_cons, Nat.add_comm xs.length, ← Nat.add_assoc]
      · cases read : scanToken p c cs with
        | error j => exact .inr ⟨[], c, cs, [], j, rfl, .nil, by simpa using space, read⟩
        | ok found =>
          obtain ⟨t, width⟩ := found
          obtain ⟨us, zs, rfl, rfl, takes⟩ := exists_of_scanToken read
          have shorter : zs.length < (c :: (us ++ zs)).length := by
            rw [List.length_cons, List.length_append]
            omega
          rcases ih zs.length shorter zs (p + (c :: us).length) rfl with
            ⟨ls, scans⟩ | ⟨xs, d, ys, ls, j, rfl, scans, plain, stuck⟩
          · exact .inl ⟨_, .token (by rwa [List.append_nil]) scans⟩
          · refine .inr ⟨c :: us ++ xs, d, ys, _, j, by simp, .token takes scans, plain, ?_⟩
            rwa [List.length_append, ← Nat.add_assoc]

namespace Scans

variable {p : Nat} {ls : List Lexeme} {l : Lexeme}

theorem scanFrom (h : Scans p xs ys ls) : Expression.scanFrom p 0 (xs ++ ys) =
    (Expression.scanFrom (p + xs.length) 0 ys).map (ls ++ ·) := by
  induction h with
  | nil => exact (congrFun Except.map_id _).symm
  | blank space _ ih =>
    rw [List.cons_append, scanFrom_blank space, ih, List.length_cons, Nat.add_right_comm]
    rfl
  | @token p t us xs ys ls takes _ ih =>
    rw [List.append_assoc, takes.scanFrom, ih, List.length_append, Nat.add_assoc]
    cases Expression.scanFrom (p + (us.length + xs.length)) 0 ys <;> rfl

theorem scanFrom_end (h : Scans p xs [] ls) : Expression.scanFrom p 0 xs = .ok ls := by
  simpa [Expression.scanFrom, Except.map] using h.scanFrom

theorem front (h : Scans p xs ys ls) : Scans p xs [] ls := by
  induction h with
  | nil => exact .nil
  | blank space _ ih => exact .blank space ih
  | token takes _ ih => exact .token (by rw [List.append_nil]; exact takes.front) ih

theorem of_scanFrom (h : Expression.scanFrom p 0 cs = .ok ls) : Scans p cs [] ls := by
  rcases scans_or_stuck cs p with ⟨ls', scans⟩ | ⟨xs, c, ys, _, j, rfl, scans, plain, stuck⟩
  · rw [scans.scanFrom_end] at h
    cases h
    exact scans
  · rw [scans.scanFrom, scanFrom_stuck plain stuck] at h
    cases h

theorem takes (h : Scans p xs ys ls) (mem : l ∈ ls) : ∃ front us vs, xs = front ++ (us ++ vs) ∧
    l.start = p + front.length ∧ l.width = us.length ∧ Takes l.token us (vs ++ ys) := by
  induction h with
  | nil => cases mem
  | @blank p c xs ys ls _ _ ih =>
    obtain ⟨front, us, vs, rfl, start, width, takes⟩ := ih mem
    exact ⟨c :: front, us, vs, rfl, by rw [start, List.length_cons]; omega, width, takes⟩
  | @token p t us xs ys ls takes _ ih =>
    rcases List.mem_cons.mp mem with rfl | mem
    · exact ⟨[], us, xs, rfl, rfl, rfl, takes⟩
    · obtain ⟨front, us', vs, rfl, start, width, takes'⟩ := ih mem
      refine ⟨us ++ front, us', vs, by simp, ?_, width, takes'⟩
      rw [start, List.length_append, Nat.add_assoc]

theorem start_le (h : Scans p xs ys ls) (mem : l ∈ ls) : p ≤ l.start := by
  obtain ⟨_, _, _, _, start, _⟩ := h.takes mem
  exact start ▸ Nat.le_add_right ..

theorem ordered (h : Scans p xs ys ls) : ls.Pairwise fun l l' => l.start + l.width ≤ l'.start := by
  induction h with
  | nil => exact .nil
  | blank _ _ ih => exact ih
  | token _ scans ih => exact .cons (fun l mem => scans.start_le mem) ih

theorem covers (h : Scans p xs ys ls) {i : Nat} {c : Char} (here : xs[i]? = some c) :
    isSpace c = false ↔ ∃ l ∈ ls, l.start ≤ p + i ∧ p + i < l.start + l.width := by
  induction h generalizing i with
  | nil => cases here
  | @blank p d xs ys ls space scans ih =>
    cases i with
    | zero =>
      cases here
      refine iff_of_false (by simp [space]) ?_
      rintro ⟨l, mem, before, _⟩
      have := scans.start_le mem
      omega
    | succ i =>
      rw [ih here, Nat.add_right_comm]
      rfl
  | @token p t us xs ys ls takes scans ih =>
    by_cases inside : i < us.length
    · rw [List.getElem?_append_left inside] at here
      refine iff_of_true (takes.isSpace c (List.mem_of_getElem? here)) ?_
      exact ⟨_, List.mem_cons_self, by simp, by simpa using inside⟩
    · rw [List.getElem?_append_right (by omega)] at here
      have position : p + us.length + (i - us.length) = p + i := by omega
      rw [ih here, position]
      constructor
      · rintro ⟨l, mem, span⟩
        exact ⟨l, List.mem_cons_of_mem _ mem, span⟩
      · rintro ⟨l, mem, span⟩
        rcases List.mem_cons.mp mem with rfl | mem
        · dsimp only at span
          omega
        · exact ⟨l, mem, span⟩

end Scans

end

def Rejection.position? : Rejection → Option Nat
  | .unexpectedChar _ p | .textLiteral p | .assignment p | .invalidNumber _ p
  | .unexpectedToken _ _ p | .unknownName _ p | .unknownFunction _ p | .forbiddenAccess _ p
  | .notCallable _ p | .notAValue _ p | .arity _ _ p => some p
  | .empty | .tooLong _ _ | .unexpectedEnd _ | .tooDeep _ | .tooManyNodes _ | .reservedName _
  | .duplicateName _ => none

def Token.IsOperator (t : Token) : Prop := (∀ v, t ≠ .number v) ∧ ∀ name, t ≠ .name name

def Lexeme.span (text : String) (l : Lexeme) : List Char := (text.toList.drop l.start).take l.width

/-- The lexemes stand one behind the other and leave out nothing but blanks. -/
structure Lossless (text : String) (ls : List Lexeme) : Prop where
  ordered : ls.Pairwise fun l l' => l.start + l.width ≤ l'.start
  covers : ∀ i c, text.toList[i]? = some c →
    (isSpace c = false ↔ ∃ l ∈ ls, l.start ≤ i ∧ i < l.start + l.width)

/-- The lexeme spells its token, alone as well as in the text, and more of the text would spell
none. -/
structure Lexeme.LongestIn (text : String) (l : Lexeme) : Prop where
  inside : 0 < l.width ∧ l.start + l.width ≤ text.length
  spelled : l.token.SpelledBy (l.span text)
  operator : l.token.IsOperator → l.width ≤ 3
  longest : ∀ n, l.width < n → l.start + n ≤ text.length →
    ∀ t : Token, ¬t.SpelledBy ((text.toList.drop l.start).take n)
  alone : lexemes (String.ofList (l.span text)) = .ok [⟨l.token, 0, l.width⟩]

section
variable {t : Token} {c : Char} {cs xs ys : List Char} {p : Nat} {ls : List Lexeme} {l : Lexeme}
  {j : Rejection}

theorem rejectChar_position? : (rejectChar c p).position? = some p := by
  unfold rejectChar
  split
  · rfl
  · split <;> rfl

theorem scanToken_position? (h : scanToken p c cs = .error j) : j.position? = some p := by
  unfold scanToken at h
  repeat' split at h
  all_goals cases h
  · rfl
  · exact rejectChar_position?

theorem scanToken_stuck (h : scanToken p c cs = .error j) (q : Nat) :
    ∃ i, scanToken q c cs = .error i ∧ i.position? = some q := by
  cases read : scanToken q c cs with
  | error i => exact ⟨i, rfl, scanToken_position? read⟩
  | ok found =>
    obtain ⟨t, width⟩ := found
    obtain ⟨xs, ys, rfl, rfl, takes⟩ := exists_of_scanToken read
    rw [takes.scanToken p] at h
    cases h

theorem Token.SpelledBy.length_le (h : t.SpelledBy xs) (mark : t.IsOperator) : xs.length ≤ 3 := by
  cases h with
  | number _ => exact absurd rfl (mark.1 _)
  | name _ _ | pi => exact absurd rfl (mark.2 _)
  | operator mem =>
    have short : ∀ q ∈ operators, q.1.length ≤ 3 := by decide
    exact short _ mem

theorem Scans.longestIn {text : String} (h : Scans 0 text.toList [] ls) (mem : l ∈ ls) :
    l.LongestIn text := by
  obtain ⟨front, xs, ys, split, start, width, takes⟩ := h.takes mem
  rw [Nat.zero_add] at start
  rw [List.append_nil] at takes
  have behind : text.toList.drop l.start = xs ++ ys := by rw [split, start, List.drop_left]
  have span : l.span text = xs := by rw [Lexeme.span, behind, width, List.take_left]
  have spelled := takes.spelledBy
  have length : text.length = l.start + (xs.length + ys.length) := by
    rw [← String.length_toList, split, start, List.length_append, List.length_append]
  refine ⟨⟨?_, ?_⟩, ?_, ?_, ?_, ?_⟩
  · rw [width]
    exact List.length_pos_of_ne_nil spelled.ne_nil
  · omega
  · rwa [span]
  · rw [width]
    exact spelled.length_le
  · intro n longer within t
    obtain ⟨k, rfl⟩ : ∃ k, n = xs.length + (k + 1) := ⟨n - xs.length - 1, by omega⟩
    cases ys with
    | nil =>
      rw [List.length_nil] at length
      omega
    | cons d ys =>
      rw [behind, List.take_length_add_append, List.take_succ_cons]
      exact takes.longest _
  · rw [span, lexemes, String.toList_ofList, width]
    have alone : Takes l.token xs [] := @Takes.front _ _ [] ys takes
    have read := alone.scanFrom 0
    rw [List.append_nil] at read
    exact read

end

/-- A scan loses nothing of its text but blanks, and what it reads at a place is the longest that
can be read there. Where it fails it points to a character that is not blank, at which nothing can
be read, and all the text before that can be scanned. -/
theorem lexemes_lossless_longest (text : String) :
    (∀ ls, lexemes text = .ok ls → Lossless text ls ∧ ∀ l ∈ ls, l.LongestIn text) ∧
    ∀ j, lexemes text = .error j → ∃ p c, j.position? = some p ∧ text.toList[p]? = some c ∧
      isSpace c = false ∧
      (∃ ls, lexemes (String.ofList (text.toList.take p)) = .ok ls) ∧
      ∃ i, lexemes (String.ofList (text.toList.drop p)) = .error i ∧ i.position? = some 0 := by
  constructor
  · intro ls scanned
    have scans := Scans.of_scanFrom scanned
    refine ⟨⟨scans.ordered, fun i c here => ?_⟩, fun l mem => scans.longestIn mem⟩
    simpa using scans.covers here
  · intro j failed
    rcases scans_or_stuck text.toList 0 with
      ⟨ls, scans⟩ | ⟨xs, c, ys, ls, i, split, scans, plain, stuck⟩
    · cases failed.symm.trans scans.scanFrom_end
    · rw [lexemes, split, scans.scanFrom, scanFrom_stuck plain stuck] at failed
      cases failed
      rw [Nat.zero_add] at stuck
      refine ⟨xs.length, c, scanToken_position? stuck, by simp [split], plain, ⟨ls, ?_⟩, ?_⟩
      · rw [split, List.take_left, lexemes, String.toList_ofList]
        exact scans.front.scanFrom_end
      · obtain ⟨i, stuck, position⟩ := scanToken_stuck stuck 0
        refine ⟨i, ?_, position⟩
        rw [split, List.drop_left, lexemes, String.toList_ofList, scanFrom_stuck plain stuck]

theorem lexemes_lossless_longest_marks :
    lexemes "π===x" = .ok [⟨.name "π", 0, 1⟩, ⟨.eq, 1, 3⟩, ⟨.name "x", 4, 1⟩] ∧
    Lossless "π===x" [⟨.name "π", 0, 1⟩, ⟨.eq, 1, 3⟩, ⟨.name "x", 4, 1⟩] ∧
    Lexeme.LongestIn "π===x" ⟨.eq, 1, 3⟩ ∧
    lexemes "a + 2x" = .error (.invalidNumber "2x" 4) ∧
    ∃ ls, lexemes (String.ofList ("a + 2x".toList.take 4)) = .ok ls := by
  have scanned : lexemes "π===x" = .ok [⟨.name "π", 0, 1⟩, ⟨.eq, 1, 3⟩, ⟨.name "x", 4, 1⟩] := rfl
  have failed : lexemes "a + 2x" = .error (.invalidNumber "2x" 4) := rfl
  obtain ⟨p, c, position, _, _, front, _⟩ := (lexemes_lossless_longest "a + 2x").2 _ failed
  cases position
  obtain ⟨lossless, longest⟩ := (lexemes_lossless_longest "π===x").1 _ scanned
  exact ⟨scanned, lossless, longest _ (by simp), failed, front⟩

end BuildingCode.Expression

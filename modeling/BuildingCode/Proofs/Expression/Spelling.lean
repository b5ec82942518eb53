import BuildingCode.Machine.Run
import BuildingCode.Proofs.Expression.Identifiers
import BuildingCode.Proofs.Expression.Parsing
import BuildingCode.Proofs.Expression.Scanning

/-! Names and operators with more than one spelling. Powers, equalities and inequalities can be
written with more or fewer characters, and a name alone or as a member of its root. Which of them a
text uses, at one place or at many, does not show in what is made of it. -/
namespace BuildingCode.Expression
open Text

/-- Each operator that has two spellings. -/
def operatorPairs : List (List Char × List Char) :=
  [(['*', '*'], ['^']), (['=', '=', '='], ['=', '=']), (['!', '=', '='], ['!', '='])]

/-- The root that a name may be written behind. -/
inductive HasRoot (scope : Scope) : (root name : String) → Prop
  | value {name} : name ∈ scope.names → HasRoot scope valuesRoot name
  | function {name f} : function? name = some f → HasRoot scope mathRoot name
  | constant {name v} : constant? true name = some v → HasRoot scope mathRoot name

/-- The name behind its root, with blanks around the point or none. -/
inductive WritesMember (root name : String) : List Char → Prop
  | mk {front back} : (∀ c ∈ front, isSpace c = true) → (∀ c ∈ back, isSpace c = true) →
      WritesMember root name (root.toList ++ (front ++ '.' :: (back ++ name.toList)))

/-- The next character that is not blank is a point, and no number's. -/
def pointAhead : List Char → Bool
  | [] => false
  | c :: cs => if isSpace c then pointAhead cs else c == '.' && !startsWithDigit cs

def Unreadable (xs : List Char) : Prop := ∀ t us vs, xs = us ++ vs → ¬Takes t us vs

/-- The second text is the first with some of its operators and names in their other spelling. A
name next to a point has none. No tokens merge: what is kept and what is put in stands as one token
in either text. Blanks may come and go. -/
inductive Rewritten (scope : Scope) : (behindPoint : Bool) → (xs ys : List Char) → Prop
  | nil {b} : Rewritten scope b [] []
  | blankLeft {b c xs ys} : isSpace c = true → Rewritten scope b xs ys →
      Rewritten scope b (c :: xs) ys
  | blankRight {b c xs ys} : isSpace c = true → Rewritten scope b xs ys →
      Rewritten scope b xs (c :: ys)
  | unreadable {b c xs ys} : isSpace c = false → Unreadable (c :: xs) → Unreadable (c :: ys) →
      Rewritten scope false xs ys → Rewritten scope b (c :: xs) (c :: ys)
  | token {b t us xs ys} : Takes t us xs → Takes t us ys → Rewritten scope (us = ['.']) xs ys →
      Rewritten scope b (us ++ xs) (us ++ ys)
  | operator {b t t' us us' xs ys} : (us, us') ∈ operatorPairs ∨ (us', us) ∈ operatorPairs →
      Takes t us xs → Takes t' us' ys → Rewritten scope false xs ys →
      Rewritten scope b (us ++ xs) (us' ++ ys)
  | rooted {root name us xs ys} : HasRoot scope root name → WritesMember root name us →
      Takes (.name name) name.toList xs → Takes (.name name) name.toList ys →
      pointAhead xs = false → Rewritten scope false xs ys →
      Rewritten scope false (name.toList ++ xs) (us ++ ys)
  | bare {root name us xs ys} : HasRoot scope root name → WritesMember root name us →
      Takes (.name name) name.toList xs → Takes (.name name) name.toList ys →
      pointAhead xs = false → Rewritten scope false xs ys →
      Rewritten scope false (us ++ xs) (name.toList ++ ys)

section
variable {t t' : Token} {c : Char} {cs us us' xs ys : List Char} {b : Bool} {scope : Scope}
  {root name : String}

theorem unreadable_iff : Unreadable (c :: cs) ↔ ∃ j, scanToken 0 c cs = .error j := by
  constructor
  · intro unreadable
    cases read : scanToken 0 c cs with
    | error j => exact ⟨j, rfl⟩
    | ok found =>
      obtain ⟨us, vs, rfl, _, takes⟩ := exists_of_scanToken read
      exact absurd takes (unreadable _ (c :: us) vs rfl)
  · rintro ⟨j, stuck⟩ t us vs split takes
    obtain ⟨d, ds, rfl⟩ := List.exists_cons_of_ne_nil takes.spelledBy.ne_nil
    obtain ⟨rfl, rfl⟩ := List.cons.inj split
    cases stuck.symm.trans (takes.scanToken 0)

namespace Rewritten

theorem refl (xs : List Char) : Rewritten scope b xs xs := by
  induction n : xs.length using Nat.strongRecOn generalizing xs b with
  | ind n ih =>
    subst n
    cases xs with
    | nil => exact .nil
    | cons c cs =>
      have shorter : cs.length < (c :: cs).length := Nat.lt_succ_self _
      by_cases space : isSpace c = true
      · exact .blankLeft space (.blankRight space (ih _ shorter cs rfl))
      · cases read : scanToken 0 c cs with
        | error j =>
          have unreadable := unreadable_iff.mpr ⟨j, read⟩
          exact .unreadable (by simpa using space) unreadable unreadable (ih _ shorter cs rfl)
        | ok found =>
          obtain ⟨us, vs, rfl, _, takes⟩ := exists_of_scanToken read
          refine .token takes takes (ih vs.length ?_ vs rfl)
          rw [List.length_cons, List.length_append]
          omega

end Rewritten

theorem Takes.eq_dot_iff (h : Takes t us xs) : t = .dot ↔ us = ['.'] := by
  constructor
  · rintro rfl
    cases h with
    | operator mem _ => simpa [operators] using mem
  · rintro rfl
    cases h with
    | number literal =>
      rcases literal.begins [] with digit | ⟨ds, point, digit⟩
      · cases digit
      · cases point
        cases digit
    | name begins => cases begins
    | operator mem _ => simpa [operators] using mem

theorem Takes.not_startsWithDigit (h : Takes .dot ['.'] xs) : startsWithDigit xs = false := by
  cases h with
  | operator _ ends =>
    cases xs with
    | nil => rfl
    | cons d ds => exact (ends d rfl).2 rfl

/-- Two spellings of an operator are read as the same token. -/
theorem operatorPairs_agree : ∀ pair ∈ operatorPairs, ∃ t, t ≠ .dot ∧ (pair.1, t) ∈ operators ∧
    (pair.2, t) ∈ operators := by
  simp [operatorPairs, operators]

theorem Token.SpelledBy.eq_of_operator (h : t.SpelledBy us) (mem : (us, t') ∈ operators)
    (mark : t' ≠ .dot) : t = t' := by
  have single : ∀ p ∈ operators, ∀ q ∈ operators, p.1 = q.1 → p.2 = q.2 := by decide
  have points : ∀ p ∈ operators, p.1.head? = some '.' → p.2 = .dot := by decide
  obtain ⟨c, cs, rfl⟩ := List.exists_cons_of_ne_nil h.ne_nil
  have noPoint : c ≠ '.' := by
    rintro rfl
    exact mark (points _ mem rfl)
  exact single _ (h.of_operator mem noPoint) _ mem rfl

theorem Takes.eq_of_pair (pair : (us, us') ∈ operatorPairs ∨ (us', us) ∈ operatorPairs)
    (h : Takes t us xs) (h' : Takes t' us' ys) : t = t' ∧ t ≠ .dot := by
  obtain ⟨u, mark, mem, mem'⟩ : ∃ u, u ≠ .dot ∧ (us, u) ∈ operators ∧ (us', u) ∈ operators := by
    rcases pair with pair | pair
    · exact operatorPairs_agree _ pair
    · obtain ⟨u, mark, mem, mem'⟩ := operatorPairs_agree _ pair
      exact ⟨u, mark, mem', mem⟩
  obtain rfl := h.spelledBy.eq_of_operator mem mark
  obtain rfl := h'.spelledBy.eq_of_operator mem' mark
  exact ⟨rfl, mark⟩

theorem HasRoot.takes_root {front : List Char} (h : HasRoot scope root name)
    (blank : ∀ c ∈ front, isSpace c = true) : Takes (.name root) root.toList (front ++ '.' :: ys) := by
  have values : valuesRoot.toList = ['v', 'a', 'l', 'u', 'e', 's'] := rfl
  have math : mathRoot.toList = ['M', 'a', 't', 'h'] := rfl
  have ends : ∀ d, (front ++ '.' :: ys).head? = some d → isWordChar d = false := by
    intro d first
    cases front with
    | nil =>
      cases first
      rfl
    | cons =>
      cases first
      exact not_isWordChar_of_isSpace (blank d List.mem_cons_self)
  cases h with
  | value => exact takes_word values rfl rfl ends
  | function | constant => exact takes_word math rfl rfl ends

end

/-- What a text is made of, whether it can be read or not. -/
inductive Piece where
  | token (t : Token)
  | stray (c : Char)
deriving DecidableEq

def piecesFrom : (skip : Nat) → List Char → List Piece
  | _, [] => []
  | skip + 1, _ :: cs => piecesFrom skip cs
  | 0, c :: cs =>
    if isSpace c then piecesFrom 0 cs
    else match scanToken 0 c cs with
      | .error _ => .stray c :: piecesFrom 0 cs
      | .ok (t, width) => .token t :: piecesFrom (width - 1) cs

def pieces (text : String) : List Piece := piecesFrom 0 text.toList

section
variable {t : Token} {c : Char} {cs xs ys : List Char} {p : Nat} {ls : List Lexeme}

theorem piecesFrom_append (xs ys : List Char) :
    piecesFrom xs.length (xs ++ ys) = piecesFrom 0 ys := by
  induction xs with
  | nil => rfl
  | cons c xs ih => exact ih

theorem piecesFrom_blank (space : isSpace c = true) : piecesFrom 0 (c :: cs) = piecesFrom 0 cs := by
  rw [piecesFrom, if_pos space]

theorem piecesFrom_blanks {front : List Char} (blank : ∀ c ∈ front, isSpace c = true) :
    piecesFrom 0 (front ++ cs) = piecesFrom 0 cs := by
  induction front with
  | nil => rfl
  | cons c front ih =>
    rw [List.cons_append, piecesFrom_blank (blank c List.mem_cons_self)]
    exact ih fun d mem => blank d (List.mem_cons_of_mem c mem)

theorem piecesFrom_unreadable (plain : isSpace c = false) (unreadable : Unreadable (c :: cs)) :
    piecesFrom 0 (c :: cs) = .stray c :: piecesFrom 0 cs := by
  obtain ⟨j, stuck⟩ := unreadable_iff.mp unreadable
  rw [piecesFrom, if_neg (by simp [plain]), stuck]

theorem Takes.piecesFrom (h : Takes t xs ys) :
    piecesFrom 0 (xs ++ ys) = .token t :: piecesFrom 0 ys := by
  obtain ⟨c, cs, rfl⟩ := List.exists_cons_of_ne_nil h.spelledBy.ne_nil
  have plain : ¬Text.isSpace c = true := by simp [h.isSpace c List.mem_cons_self]
  rw [List.cons_append, Expression.piecesFrom, if_neg plain, h.scanToken 0]
  exact congrArg (.token t :: ·) (piecesFrom_append cs ys)

theorem WritesMember.piecesFrom {scope : Scope} {root name : String} {us : List Char}
    (h : WritesMember root name us) (known : HasRoot scope root name)
    (takes : Takes (.name name) name.toList xs) : piecesFrom 0 (us ++ xs) =
      .token (.name root) :: .token .dot :: .token (.name name) :: piecesFrom 0 xs := by
  obtain ⟨blank, blank'⟩ := h
  have point := (takes.point blank').piecesFrom
  rw [List.singleton_append] at point
  rw [List.append_assoc, List.append_assoc, List.cons_append, List.append_assoc,
    (known.takes_root blank).piecesFrom, piecesFrom_blanks blank, point, piecesFrom_blanks blank',
    takes.piecesFrom]

theorem pointAhead_of_piecesFrom (first : (piecesFrom 0 cs).head? = some (.token .dot)) :
    pointAhead cs = true := by
  induction cs with
  | nil => cases first
  | cons c cs ih =>
    rw [pointAhead]
    by_cases space : isSpace c = true
    · rw [piecesFrom_blank space] at first
      rw [if_pos space]
      exact ih first
    · rw [if_neg space]
      rw [piecesFrom, if_neg space] at first
      cases read : scanToken 0 c cs with
      | error j =>
        rw [read] at first
        cases first
      | ok found =>
        obtain ⟨t, width⟩ := found
        obtain ⟨us, vs, rfl, _, takes⟩ := exists_of_scanToken read
        rw [read] at first
        cases first
        obtain ⟨rfl, rfl⟩ := List.cons.inj (takes.eq_dot_iff.mp rfl)
        rw [List.nil_append, takes.not_startsWithDigit]
        rfl

theorem Scans.piecesFrom (h : Scans p xs ys ls) :
    piecesFrom 0 (xs ++ ys) = ls.map (.token ·.token) ++ piecesFrom 0 ys := by
  induction h with
  | nil => rfl
  | blank space _ ih => rw [List.cons_append, piecesFrom_blank space, ih]
  | token takes _ ih =>
    rw [List.append_assoc, takes.piecesFrom, ih, List.map_cons, List.cons_append]

end

theorem lexemes_pieces (text : String) :
    (∃ ls, lexemes text = .ok ls ∧ pieces text = ls.map (.token ·.token)) ∨
      (∃ j, lexemes text = .error j) ∧ ∃ c, .stray c ∈ pieces text := by
  rcases scans_or_stuck text.toList 0 with
    ⟨ls, scans⟩ | ⟨xs, c, ys, ls, j, split, scans, plain, stuck⟩
  · exact .inl ⟨ls, scans.scanFrom_end, by simpa [pieces, piecesFrom] using scans.piecesFrom⟩
  · refine .inr ⟨⟨j, ?_⟩, c, ?_⟩
    · rw [lexemes, split, scans.scanFrom, scanFrom_stuck plain stuck]
      rfl
    · obtain ⟨i, stuck, _⟩ := scanToken_stuck stuck 0
      rw [pieces, split, scans.piecesFrom, piecesFrom, if_neg (by simp [plain]), stuck]
      simp

theorem no_constant_of_function? {name : String} {f : MathFunction} {v : Float}
    (function : function? name = some f) : constant? false name ≠ some v := by
  have apart : ∀ entry ∈ functionNames, constant? false entry.1 = none := by decide
  obtain ⟨before, behind, split, _⟩ := List.lookup_eq_some_iff.mp function
  rw [apart (name, f) (by simp [split])]
  exact Option.some_ne_none v |>.symm

/-- The pieces differ in whether names stand alone or behind their root. A name next to a point is
no such name. -/
inductive Respelled (scope : Scope) : (behindPoint : Bool) → List Piece → List Piece → Prop
  | nil {b} : Respelled scope b [] []
  | keep {b p ps qs} : Respelled scope (p = .token .dot) ps qs →
      Respelled scope b (p :: ps) (p :: qs)
  | rooted {root name ps qs} : HasRoot scope root name → ps.head? ≠ some (.token .dot) →
      Respelled scope false ps qs → Respelled scope false (.token (.name name) :: ps)
        (.token (.name root) :: .token .dot :: .token (.name name) :: qs)
  | bare {root name ps qs} : HasRoot scope root name → ps.head? ≠ some (.token .dot) →
      Respelled scope false ps qs →
      Respelled scope false (.token (.name root) :: .token .dot :: .token (.name name) :: ps)
        (.token (.name name) :: qs)

namespace HasRoot

variable {scope : Scope} {root name : String}

theorem root_of_slot? {i : Nat} (h : HasRoot scope root name) (found : scope.slot? name = some i) :
    root = valuesRoot := by
  cases h with
  | value _ => rfl
  | function known => exact absurd rfl (Scope.ne_of_slot? found (isReserved_of_function? known))
  | constant known => exact absurd rfl (Scope.ne_of_slot? found (isReserved_of_mathConstant? known))

theorem root_of_function? {f : MathFunction} (h : HasRoot scope root name)
    (found : function? name = some f) : root = mathRoot := by
  cases h with
  | value bound => cases (scope.unreserved _ bound).symm.trans (isReserved_of_function? found)
  | function | constant => rfl

theorem of_constant? {v : Float} (h : HasRoot scope root name)
    (found : constant? false name = some v) : root = mathRoot ∧ constant? true name = some v := by
  cases h with
  | value bound => cases (scope.unreserved _ bound).symm.trans (isReserved_of_constant? found)
  | function known => exact absurd found (no_constant_of_function? known)
  | constant known =>
    cases (constant?_of_member known).symm.trans found
    exact ⟨rfl, known⟩

end HasRoot

namespace Respelled

variable {scope : Scope} {b : Bool} {p : Piece} {ps qs : List Piece}

theorem of_rewritten {xs ys : List Char} (h : Rewritten scope b xs ys) :
    Respelled scope b (piecesFrom 0 xs) (piecesFrom 0 ys) := by
  induction h with
  | nil => exact .nil
  | blankLeft space _ ih | blankRight space _ ih => rwa [piecesFrom_blank space]
  | unreadable plain none none' _ ih =>
    rw [piecesFrom_unreadable plain none, piecesFrom_unreadable plain none']
    exact .keep (by simpa using ih)
  | token takes takes' _ ih =>
    rw [takes.piecesFrom, takes'.piecesFrom]
    exact .keep (by simpa [takes.eq_dot_iff] using ih)
  | operator pair takes takes' _ ih =>
    obtain ⟨rfl, mark⟩ := takes.eq_of_pair pair takes'
    rw [takes.piecesFrom, takes'.piecesFrom]
    exact .keep (by simpa [mark] using ih)
  | rooted known member takes takes' apart _ ih =>
    rw [takes.piecesFrom, member.piecesFrom known takes']
    exact .rooted known (mt pointAhead_of_piecesFrom (by simp [apart])) ih
  | bare known member takes takes' apart _ ih =>
    rw [member.piecesFrom known takes, takes'.piecesFrom]
    exact .bare known (mt pointAhead_of_piecesFrom (by simp [apart])) ih

theorem head?_ne (h : Respelled scope b ps qs) (apart : ps.head? ≠ some (.token .dot)) :
    qs.head? ≠ some (.token .dot) := by
  cases h with
  | nil | keep => exact apart
  | rooted | bare => simp

theorem symm (h : Respelled scope b ps qs) : Respelled scope b qs ps := by
  induction h with
  | nil => exact .nil
  | keep _ ih => exact .keep ih
  | rooted root apart behind ih => exact .bare root (behind.head?_ne apart) ih
  | bare root apart behind ih => exact .rooted root (behind.head?_ne apart) ih

theorem of_nil (h : Respelled scope b [] qs) : qs = [] := by
  cases h
  rfl

theorem stray_mem {c : Char} (h : Respelled scope b ps qs) (mem : .stray c ∈ ps) :
    .stray c ∈ qs := by
  induction h with
  | nil => exact mem
  | keep _ ih => exact List.mem_cons.mpr ((List.mem_cons.mp mem).imp_right ih)
  | rooted _ _ _ ih | bare _ _ _ ih => simpa using ih (by simpa using mem)

theorem head?_ne_of_append {xs ys : List Piece} (apart : (xs ++ ys).head? ≠ some p) :
    xs.head? ≠ some p := by
  cases xs with
  | nil => simp
  | cons => exact apart

theorem split {m : Token} (mark : m ≠ .dot ∧ ∀ name, m ≠ .name name) (h : Respelled scope b ps qs) :
    ∀ xs zs, ps = xs ++ .token m :: zs → ∃ ys us, qs = ys ++ .token m :: us ∧
      Respelled scope b xs ys ∧ Respelled scope false zs us := by
  induction h with
  | nil => simp
  | @keep b p ps qs behind ih =>
    intro xs zs cut
    cases xs with
    | nil =>
      obtain ⟨rfl, rfl⟩ := List.cons.inj cut
      exact ⟨[], qs, rfl, .nil, by simpa [mark.1] using behind⟩
    | cons x xs =>
      obtain ⟨rfl, behind⟩ := List.cons.inj cut
      obtain ⟨ys, us, rfl, left, right⟩ := ih xs zs behind
      exact ⟨p :: ys, us, rfl, .keep left, right⟩
  | @rooted root name ps qs root' apart behind ih =>
    intro xs zs cut
    cases xs with
    | nil => exact absurd (Piece.token.inj (List.cons.inj cut).1).symm (mark.2 name)
    | cons x xs =>
      obtain ⟨rfl, rfl⟩ := List.cons.inj cut
      obtain ⟨ys, us, rfl, left, right⟩ := ih xs zs rfl
      exact ⟨_ :: _ :: _ :: ys, us, rfl, .rooted root' (head?_ne_of_append apart) left, right⟩
  | @bare root name ps qs root' apart behind ih =>
    intro xs zs cut
    match xs with
    | [] => exact absurd (Piece.token.inj (List.cons.inj cut).1).symm (mark.2 root)
    | [_] => exact absurd (by simp at cut; exact cut.2.1.symm) mark.1
    | [_, _] => exact absurd (by simp at cut; exact cut.2.2.1.symm) (mark.2 name)
    | _ :: _ :: _ :: xs =>
      obtain ⟨rfl, rfl, rfl, rfl⟩ : _ = _ ∧ _ = _ ∧ _ = _ ∧ ps = xs ++ .token m :: zs := by
        simpa using cut
      obtain ⟨ys, us, rfl, left, right⟩ := ih xs zs rfl
      exact ⟨_ :: ys, us, rfl, .bare root' (head?_ne_of_append apart) left, right⟩

theorem of_mark {m : Token} (mark : m ≠ .dot ∧ ∀ name, m ≠ .name name)
    (h : Respelled scope b (.token m :: ps) qs) :
    ∃ us, qs = .token m :: us ∧ Respelled scope false ps us := by
  obtain ⟨ys, us, rfl, none, behind⟩ := h.split mark [] ps rfl
  cases none
  exact ⟨us, rfl, behind⟩

theorem of_group {xs : List Token}
    (h : Respelled scope b ((.openParen :: (xs ++ [.closeParen])).map .token) qs) :
    ∃ us, qs = .token .openParen :: (us ++ [.token .closeParen]) ∧
      Respelled scope false (xs.map .token) us := by
  obtain ⟨us, rfl, behind⟩ := h.of_mark (by simp)
  rw [List.map_append] at behind
  obtain ⟨ys, vs, rfl, inside, closed⟩ := behind.split (by simp) _ _ rfl
  obtain rfl := closed.of_nil
  exact ⟨ys, rfl, inside⟩

theorem of_name {name : String} (h : Respelled scope false (.token (.name name) :: ps) qs)
    (apart : ps.head? ≠ some (.token .dot)) : ∃ us, Respelled scope false ps us ∧
      (qs = .token (.name name) :: us ∨ ∃ root, HasRoot scope root name ∧
        qs = .token (.name root) :: .token .dot :: .token (.name name) :: us) := by
  cases h with
  | keep behind => exact ⟨_, behind, .inl rfl⟩
  | rooted root _ behind => exact ⟨_, behind, .inr ⟨_, root, rfl⟩⟩
  | bare => simp at apart

theorem of_member {root name : String} (h : Respelled scope false
      (.token (.name root) :: .token .dot :: .token (.name name) :: ps) qs) : ∃ us, Respelled scope false ps us ∧
      (qs = .token (.name root) :: .token .dot :: .token (.name name) :: us ∨
        qs = .token (.name name) :: us) := by
  cases h with
  | keep behind =>
    cases behind with
    | keep behind =>
      cases behind with
      | keep behind => exact ⟨_, behind, .inl rfl⟩
  | rooted _ apart _ => simp at apart
  | bare _ _ behind => exact ⟨_, behind, .inr rfl⟩

end Respelled

section
variable {scope : Scope}

mutual
theorem Derives.respelled {room : Nat} {level : Level} {xs : List Token} {e : Expr}
    {qs : List Piece} : Derives scope room level xs e → Respelled scope false (xs.map .token) qs →
      ∃ ys, qs = ys.map .token ∧ Derives scope room level ys e
  | .bare h, r => by
    obtain ⟨ys, rfl, h⟩ := h.respelled r
    exact ⟨ys, rfl, .bare h⟩
  | .operand h, r => by
    obtain ⟨ys, rfl, h⟩ := h.respelled r
    exact ⟨ys, rfl, .operand h⟩
  | .unsigned h, r => by
    obtain ⟨ys, rfl, h⟩ := h.respelled r
    exact ⟨ys, rfl, .unsigned h⟩
  | .base h, r => by
    obtain ⟨ys, rfl, h⟩ := h.respelled r
    exact ⟨ys, rfl, .base h⟩
  | .conditional c t e, r => by
    simp only [List.map_append, List.map_cons] at r
    obtain ⟨_, _, rfl, rc, r⟩ := r.split (by simp) _ _ rfl
    obtain ⟨_, _, rfl, rt, re⟩ := r.split (by simp) _ _ rfl
    obtain ⟨xs, rfl, c⟩ := c.respelled rc
    obtain ⟨ys, rfl, t⟩ := t.respelled rt
    obtain ⟨zs, rfl, e⟩ := e.respelled re
    exact ⟨_, by simp, .conditional c t e⟩
  | .binary a written b, r => by
    rw [List.map_append, List.map_cons] at r
    obtain ⟨_, _, rfl, ra, rb⟩ := r.split written.mark _ _ rfl
    obtain ⟨xs, rfl, a⟩ := a.respelled ra
    obtain ⟨ys, rfl, b⟩ := b.respelled rb
    exact ⟨_, by simp, .binary a written b⟩
  | .power a b, r => by
    rw [List.map_append, List.map_cons] at r
    obtain ⟨_, _, rfl, ra, rb⟩ := r.split (by simp) _ _ rfl
    obtain ⟨xs, rfl, a⟩ := a.respelled ra
    obtain ⟨ys, rfl, b⟩ := b.respelled rb
    exact ⟨_, by simp, .power a b⟩
  | .minus h, r => by
    obtain ⟨_, rfl, behind⟩ := r.of_mark (by simp)
    obtain ⟨xs, rfl, h⟩ := h.respelled behind
    exact ⟨_ :: xs, rfl, .minus h⟩
  | .plus h, r => by
    obtain ⟨_, rfl, behind⟩ := r.of_mark (by simp)
    obtain ⟨xs, rfl, h⟩ := h.respelled behind
    exact ⟨_ :: xs, rfl, .plus h⟩
  | .number, r => by
    obtain ⟨_, rfl, behind⟩ := r.of_mark (by simp)
    obtain rfl := behind.of_nil
    exact ⟨[_], rfl, .number⟩
  | .group h, r => by
    obtain ⟨_, rfl, inside⟩ := r.of_group
    obtain ⟨xs, rfl, h⟩ := h.respelled inside
    exact ⟨_ :: (xs ++ [_]), by simp, .group h⟩
  | .slot found, r => by
    obtain ⟨_, behind, same⟩ := r.of_name (by simp)
    obtain rfl := behind.of_nil
    obtain rfl | ⟨root, known, rfl⟩ := same
    · exact ⟨[_], rfl, .slot found⟩
    · obtain rfl := known.root_of_slot? found
      exact ⟨[_, _, _], rfl, .valuesSlot found⟩
  | .valuesSlot found, r => by
    obtain ⟨_, behind, same⟩ := r.of_member
    obtain rfl := behind.of_nil
    obtain rfl | rfl := same
    · exact ⟨[_, _, _], rfl, .valuesSlot found⟩
    · exact ⟨[_], rfl, .slot found⟩
  | .constant found, r => by
    obtain ⟨_, behind, same⟩ := r.of_name (by simp)
    obtain rfl := behind.of_nil
    obtain rfl | ⟨root, known, rfl⟩ := same
    · exact ⟨[_], rfl, .constant found⟩
    · obtain ⟨rfl, member⟩ := known.of_constant? found
      exact ⟨[_, _, _], rfl, .mathConstant member⟩
  | .mathConstant found, r => by
    obtain ⟨_, behind, same⟩ := r.of_member
    obtain rfl := behind.of_nil
    obtain rfl | rfl := same
    · exact ⟨[_, _, _], rfl, .mathConstant found⟩
    · exact ⟨[_], rfl, .constant (constant?_of_member found)⟩
  | .call found args arity, r => by
    obtain ⟨_, behind, same⟩ := r.of_name (by simp)
    obtain ⟨_, rfl, inside⟩ := behind.of_group
    obtain ⟨xs, rfl, args⟩ := args.respelled inside
    obtain rfl | ⟨root, known, rfl⟩ := same
    · exact ⟨_ :: _ :: (xs ++ [_]), by simp, .call found args arity⟩
    · obtain rfl := known.root_of_function? found
      exact ⟨_ :: _ :: _ :: _ :: (xs ++ [_]), by simp, .mathCall found args arity⟩
  | .mathCall found args arity, r => by
    obtain ⟨_, behind, same⟩ := r.of_member
    obtain ⟨_, rfl, inside⟩ := behind.of_group
    obtain ⟨xs, rfl, args⟩ := args.respelled inside
    obtain rfl | rfl := same
    · exact ⟨_ :: _ :: _ :: _ :: (xs ++ [_]), by simp, .mathCall found args arity⟩
    · exact ⟨_ :: _ :: (xs ++ [_]), by simp, .call found args arity⟩
theorem DerivesAll.respelled {room : Nat} {xs : List Token} {es : List Expr} {qs : List Piece} :
    DerivesAll scope room xs es → Respelled scope false (xs.map .token) qs →
      ∃ ys, qs = ys.map .token ∧ DerivesAll scope room ys es
  | .nothing, r => by
    cases r
    exact ⟨[], rfl, .nothing⟩
  | .one h, r => by
    obtain ⟨ys, rfl, h⟩ := h.respelled r
    exact ⟨ys, rfl, .one h⟩
  | .more h hs, r => by
    rw [List.map_append, List.map_cons] at r
    obtain ⟨_, _, rfl, r, rs⟩ := r.split (by simp) _ _ rfl
    obtain ⟨xs, rfl, h⟩ := h.respelled r
    obtain ⟨ys, rfl, hs⟩ := hs.respelled rs
    exact ⟨_, by simp, .more h hs⟩
end

end

open Machine

variable {scope : Scope} {limits : Limits} {text text' : String}

theorem lexemes_respelled {ls : List Lexeme} (scanned : lexemes text = .ok ls)
    (respelled : Respelled scope false (pieces text) (pieces text')) :
    ∃ ls', lexemes text' = .ok ls' ∧
      Respelled scope false ((ls.map (·.token)).map .token) ((ls'.map (·.token)).map .token) := by
  rcases lexemes_pieces text with ⟨_, scanned', cut⟩ | ⟨⟨j, failed⟩, _⟩
  · cases scanned.symm.trans scanned'
    rcases lexemes_pieces text' with ⟨ls', scanned', cut'⟩ | ⟨_, c, stray⟩
    · refine ⟨ls', scanned', ?_⟩
      simpa [cut, cut', Function.comp_def] using respelled
    · have stray' := respelled.symm.stray_mem stray
      simp [cut] at stray'
  · cases scanned.symm.trans failed

theorem ofText_of_respelled {p : Program} (compiled : Program.ofText scope limits text = .ok p)
    (respelled : Respelled scope false (pieces text) (pieces text'))
    (short : text'.length ≤ limits.length) : Program.ofText scope limits text' = .ok p := by
  obtain ⟨e, read, lowered⟩ := Outcome.bind_eq_ok.mp compiled
  obtain ⟨_, ls, scanned, derives, nodes⟩ := ofText_eq_ok_iff.mp read
  obtain ⟨ls', scanned', respelled'⟩ := lexemes_respelled scanned respelled
  obtain ⟨ys, same, derives'⟩ := derives.respelled respelled'
  obtain rfl : ls'.map (·.token) = ys :=
    (List.map_injective_iff.mpr fun _ _ => Piece.token.inj) same
  have read' : Expr.ofText scope limits text' = .ok e :=
    ofText_eq_ok_iff.mpr ⟨short, ls', scanned', derives', nodes⟩
  exact Outcome.bind_eq_ok.mpr ⟨e, read', lowered⟩

/-- Texts that differ in the spelling of operators, and of names with and without their root,
compile to the same program or are both rejected. -/
theorem ofText_respelled (rewritten : Rewritten scope false text.toList text'.toList)
    (short : text.length ≤ limits.length) (short' : text'.length ≤ limits.length) (p : Program) :
    Program.ofText scope limits text = .ok p ↔ Program.ofText scope limits text' = .ok p := by
  have respelled : Respelled scope false (pieces text) (pieces text') := .of_rewritten rewritten
  exact ⟨(ofText_of_respelled · respelled short'), (ofText_of_respelled · respelled.symm short)⟩

theorem ofText_respelled_roots : ∃ scope : Scope, scope.names = ["w", "h"] ∧
    (Program.ofText scope {} "w !== h === PI ** max(values . h, 2)").isOk = true ∧
    ∀ p, Program.ofText scope {} "w !== h === PI ** max(values . h, 2)" = .ok p ↔
      Program.ofText scope {} "values.w!=h==Math.PI^Math.max(h, 2)" = .ok p := by
  let scope : Scope := ⟨["w", "h"], by decide, by decide⟩
  have w : HasRoot scope valuesRoot "w" := .value (by decide)
  have h : HasRoot scope valuesRoot "h" := .value (by decide)
  have max : HasRoot scope mathRoot "max" := .function (f := .max) rfl
  have pi : HasRoot scope mathRoot "PI" := .constant rfl
  have cut : "w !== h === PI ** max(values . h, 2)".toList = "w".toList ++ ' ' :: (['!', '=', '='] ++
      ' ' :: (['h'] ++ ' ' :: (['=', '=', '='] ++ ' ' :: ("PI".toList ++ ' ' :: (['*', '*'] ++
      ' ' :: ("max".toList ++ (['('] ++ ("values . h".toList ++ ", 2)".toList)))))))) := rfl
  have cut' : "values.w!=h==Math.PI^Math.max(h, 2)".toList = "values.w".toList ++ (['!', '='] ++
      (['h'] ++ (['=', '='] ++ ("Math.PI".toList ++ (['^'] ++ ("Math.max".toList ++ (['('] ++
      ("h".toList ++ ", 2)".toList)))))))) := rfl
  have rewritten : Rewritten scope false "w !== h === PI ** max(values . h, 2)".toList
      "values.w!=h==Math.PI^Math.max(h, 2)".toList := by
    rw [cut, cut']
    have blank : ∀ c ∈ [' '], isSpace c = true := List.forall_mem_singleton.mpr rfl
    have none : ∀ c ∈ [], isSpace c = true := by simp
    refine .rooted w (.mk none none) (takes_iff.mpr rfl) (takes_iff.mpr rfl) rfl (.blankLeft rfl ?_)
    refine .operator (.inl (by decide)) (takes_iff.mpr rfl) (takes_iff.mpr rfl) (.blankLeft rfl ?_)
    refine .token (takes_iff.mpr rfl) (takes_iff.mpr rfl) (.blankLeft rfl ?_)
    refine .operator (.inl (by decide)) (takes_iff.mpr rfl) (takes_iff.mpr rfl) (.blankLeft rfl ?_)
    refine .rooted pi (.mk none none) (takes_iff.mpr rfl) (takes_iff.mpr rfl) rfl (.blankLeft rfl ?_)
    refine .operator (.inl (by decide)) (takes_iff.mpr rfl) (takes_iff.mpr rfl) (.blankLeft rfl ?_)
    refine .rooted max (.mk none none) (takes_iff.mpr rfl) (takes_iff.mpr rfl) rfl ?_
    refine .token (takes_iff.mpr rfl) (takes_iff.mpr rfl) ?_
    exact .bare h (.mk blank blank) (takes_iff.mpr rfl) (takes_iff.mpr rfl) rfl (.refl _)
  exact ⟨scope, rfl, by decide +kernel, ofText_respelled rewritten (by decide) (by decide)⟩

end BuildingCode.Expression

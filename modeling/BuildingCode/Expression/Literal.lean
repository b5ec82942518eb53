import BuildingCode.Number.Numeral

/-! Number literals. Single underscores may stand between digits and do not count. -/
namespace BuildingCode.Expression
open Text

def startsWithDigit (cs : List Char) : Bool := (cs.head?.map isDigit).getD false

/-- The digits at the start of a text and the number of characters that they and their
separators take. A separator has a digit before it and a digit behind it. -/
def digitRun (after : Bool) : List Char → List Char × Nat
  | [] => ([], 0)
  | c :: cs =>
    if isDigit c then
      let (ds, width) := digitRun true cs
      (c :: ds, width + 1)
    else if c == '_' && after && startsWithDigit cs then
      let (ds, width) := digitRun true cs
      (ds, width + 1)
    else ([], 0)

def literalFraction : List Char → List Char × Nat
  | '.' :: cs =>
    let (ds, width) := digitRun false cs
    (ds, width + 1)
  | _ => ([], 0)

/-- The exponent with the characters that it takes. An exponent without digits is no exponent,
and the characters up to where they are missing count. -/
def literalExponent : List Char → Option (Option Int) × Nat
  | c :: cs =>
    if c == 'e' || c == 'E' then
      let (negative, marks) := match cs with
        | '-' :: _ => (true, 2)
        | '+' :: _ => (false, 2)
        | _ => (false, 1)
      let (ds, width) := digitRun false (cs.drop (marks - 1))
      let n : Int := digitsValue ds
      if ds.isEmpty then (none, marks)
      else (some (some (if negative then -n else n)), marks + width)
    else (some none, 0)
  | [] => (some none, 0)

def continuesLiteral (cs : List Char) : Bool :=
  (cs.head?.map fun c => isWordChar c || c == '.').getD false

/-- The literal at the start of a text and the characters that it takes, or how many characters
show what is wrong with it. -/
def scanLiteral (cs : List Char) : Except Nat (Float × Nat) :=
  let (whole, wholeWidth) := digitRun false cs
  let (fraction, fractionWidth) := literalFraction (cs.drop wholeWidth)
  let mantissaWidth := wholeWidth + fractionWidth
  match literalExponent (cs.drop mantissaWidth) with
  | (none, width) => .error (mantissaWidth + width)
  | (some exponent, width) =>
    let width := mantissaWidth + width
    let value := Number.Numeral.toFloat ⟨false, whole, fraction, exponent⟩
    if continuesLiteral (cs.drop width) then .error (width + 1)
    else if value.isFinite then .ok (value, width)
    else .error width

end BuildingCode.Expression

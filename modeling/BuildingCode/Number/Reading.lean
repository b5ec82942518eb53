import BuildingCode.Number.Numeral

/-! Decimal text as numbers. The grammar decides what is a number at all; the value is the float
nearest to what is written. -/
namespace BuildingCode.Number
open Text

def splitSign : List Char → Bool × List Char
  | '-' :: cs => (true, cs)
  | '+' :: cs => (false, cs)
  | cs => (false, cs)

def readExponent (cs : List Char) : Option Int :=
  let (negative, ds) := splitSign cs
  if ds.isEmpty || !ds.all isDigit then none
  else some (if negative then -(digitsValue ds : Int) else digitsValue ds)

/-- Digits with at most one point, before or after which the digits may be missing, and an
optional exponent. -/
def readNumeral (cs : List Char) : Option Numeral :=
  let (negative, cs) := splitSign cs
  let whole := cs.takeWhile isDigit
  let (fraction, rest) := match cs.dropWhile isDigit with
    | '.' :: r => (r.takeWhile isDigit, r.dropWhile isDigit)
    | r => ([], r)
  if whole.isEmpty && fraction.isEmpty then none
  else match rest with
    | [] => some ⟨negative, whole, fraction, none⟩
    | c :: r =>
      if c == 'e' || c == 'E' then
        (readExponent r).map fun e => ⟨negative, whole, fraction, some e⟩
      else none

def lowercase (c : Char) : Char := if 'A' ≤ c && c ≤ 'Z' then Char.ofNat (c.toNat + 32) else c

def readWord (cs : List Char) : Option Float :=
  let (negative, word) := splitSign cs
  match String.ofList (word.map lowercase) with
  | "inf" | "infinity" => some (if negative then -1.0 / 0.0 else 1.0 / 0.0)
  | "nan" => some (0.0 / 0.0)
  | _ => none

def ofText (s : String) : Option Float :=
  match readNumeral s.toList with
  | some n => some n.toFloat
  | none => readWord s.toList

end BuildingCode.Number

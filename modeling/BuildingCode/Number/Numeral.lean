import BuildingCode.Text.Space
import BuildingCode.Number.Shortest

/-! A numeral is a decimal number as it is written: its digits, where the point stands, and the
exponent if there is one. Readers build numerals and writers lay floats out as numerals; the
value of a numeral is a matter of its own. -/
namespace BuildingCode.Number

structure Numeral where
  negative : Bool
  whole : List Char
  fraction : List Char
  exponent : Option Int
deriving DecidableEq

def exponentText (e : Int) : List Char :=
  'e' :: (if e < 0 then '-' else '+') :: Text.digitsOf e.natAbs

def Numeral.chars (n : Numeral) : List Char :=
  (if n.negative then ['-'] else []) ++ n.whole ++
    (if n.fraction.isEmpty then [] else '.' :: n.fraction) ++
    (n.exponent.elim [] exponentText)

def Numeral.text (n : Numeral) : String := String.ofList n.chars

def Numeral.ofNat (n : Nat) : Numeral := ⟨false, Text.digitsOf n, [], none⟩

def Numeral.decimal (n : Numeral) : Decimal :=
  ⟨Text.digitsValue (n.whole ++ n.fraction), n.exponent.getD 0 - n.fraction.length⟩

def Decimal.isHuge (d : Decimal) : Bool :=
  decide (400 < d.exponent + (Text.digitsOf d.digits).length)

def Decimal.isTiny (d : Decimal) : Bool :=
  decide (d.exponent + (Text.digitsOf d.digits).length < -400)

/-- The nearest float, ties to even; infinite when too large. -/
def Decimal.toFloat (d : Decimal) : Float :=
  if d.digits = 0 || d.isTiny then 0.0
  else if d.isHuge then 1.0 / 0.0
  else Float.ofScientific d.digits (decide (d.exponent < 0)) d.exponent.natAbs

def Numeral.toFloat (n : Numeral) : Float :=
  let x := n.decimal.toFloat
  if n.negative then -x else x

end BuildingCode.Number

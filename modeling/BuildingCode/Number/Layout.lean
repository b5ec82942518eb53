import BuildingCode.Number.Numeral

/-! How floats are laid out in text. The digits are the shortest that read back; a layout fixes
the rest, and the program has two of them: one for people and one for documents. -/
namespace BuildingCode.Number

structure Layout where
  /-- Leading digits whose power of ten lies in this range are written without an exponent;
  without a range, all of them are. -/
  positional : Option (Int × Int)
  pointZero : Bool
  tie : Tie

def Layout.plain : Layout := ⟨none, false, .upward⟩

def Layout.document : Layout := ⟨some (-5, 15), true, .toEven⟩

def zeros (n : Nat) : List Char := List.replicate n '0'

/-- Digits `ds` times `10 ^ e`, with the point where it belongs. -/
def withoutExponent (negative pointZero : Bool) (ds : List Char) (e : Int) : Numeral :=
  let fractionZero := if pointZero then ['0'] else []
  if 0 ≤ e then ⟨negative, ds ++ zeros e.toNat, fractionZero, none⟩
  else
    let places := (-e).toNat
    if places < ds.length then
      ⟨negative, ds.take (ds.length - places), ds.drop (ds.length - places), none⟩
    else ⟨negative, ['0'], zeros (places - ds.length) ++ ds, none⟩

def withExponent (negative : Bool) (ds : List Char) (e : Int) : Numeral :=
  ⟨negative, ds.take 1, ds.drop 1, some (e + ds.length - 1)⟩

def Layout.numeral (l : Layout) (x : Float) : Numeral :=
  let b := Binary.ofFloat x
  let d := b.shortest l.tie
  let ds := Text.digitsOf d.digits
  let leading := d.exponent + ds.length - 1
  let inRange := match l.positional with
    | none => true
    | some (low, high) => decide (low ≤ leading) && decide (leading ≤ high)
  if inRange then withoutExponent b.negative l.pointZero ds d.exponent
  else withExponent b.negative ds d.exponent

def plainText (x : Float) : String :=
  if x.isNaN then "NaN"
  else if x.isInf then (if isNegative x then "-inf" else "inf")
  else (Layout.plain.numeral x).text

end BuildingCode.Number

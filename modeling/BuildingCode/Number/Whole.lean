import BuildingCode.Number.Binary

/-! Rounding to whole numbers, exact and with the sign kept on zero. -/
namespace BuildingCode.Number

/-- Rounds the magnitude down or up. `up` sees the sign and the remainder of the magnitude as a
fraction `r / d` of one. -/
def wholeBy (up : Bool → Nat → Nat → Bool) (x : Float) : Float :=
  let b := Binary.ofFloat x
  if !x.isFinite || 0 ≤ b.exponent then x
  else
    let d := Nat.pow 2 (-b.exponent).toNat
    let n := b.mantissa / d
    let r := b.mantissa % d
    Binary.toFloat ⟨b.negative, if up b.negative r d then n + 1 else n, 0⟩ false

def floor : Float → Float := wholeBy fun negative r _ => negative && r != 0

def ceiling : Float → Float := wholeBy fun negative r _ => !negative && r != 0

def truncate : Float → Float := wholeBy fun _ _ _ => false

def nearestWhole : Float → Float := wholeBy fun _ r d => decide (d ≤ 2 * r)

end BuildingCode.Number

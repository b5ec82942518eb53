/-! Whole powers by repeated squaring, one float product per binary digit. The order of the
products is part of the result, since each of them rounds. -/
namespace BuildingCode.Number

/-- Multiplies `result` by the powers of `base` that the binary digits of `n` ask for. -/
def squareMultiply : (digits : Nat) → (result base : Float) → (n : Nat) → Float
  | 0, result, _, _ => result
  | digits + 1, result, base, n =>
    let result := if n % 2 == 1 then result * base else result
    if n / 2 == 0 then result else squareMultiply digits result (base * base) (n / 2)

def wholePower (base : Float) (n : Int) : Float :=
  let p := squareMultiply 64 1.0 base n.natAbs
  if n < 0 then 1.0 / p else p

end BuildingCode.Number

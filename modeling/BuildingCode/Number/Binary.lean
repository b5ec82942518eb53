/-! Finite floats as exact dyadic values. Operations that the arithmetic unit lacks are computed
on these and rounded once, to nearest with ties to even. -/
namespace BuildingCode.Number

/-- The value `mantissa * 2 ^ exponent` with a sign, so that both zeros are kept apart. -/
structure Binary where
  negative : Bool
  mantissa : Nat
  exponent : Int
deriving DecidableEq

def Binary.ofFloat (x : Float) : Binary :=
  let bits := x.toBits.toNat
  let biased : Nat := bits / Nat.pow 2 52 % Nat.pow 2 11
  let fraction : Nat := bits % Nat.pow 2 52
  let negative := bits / Nat.pow 2 63 == 1
  if biased = 0 then ⟨negative, fraction, -1074⟩
  else ⟨negative, Nat.pow 2 52 + fraction, biased - 1075⟩

/-- Divides by `2 ^ k` and rounds to nearest, ties to even. `more` says that the exact value is a
little above `m`, which decides ties upward. -/
def roundShift (m k : Nat) (more : Bool) : Nat :=
  let n := m / Nat.pow 2 k
  let r := 2 * (m % Nat.pow 2 k)
  if Nat.pow 2 k < r || (r == Nat.pow 2 k && (more || n % 2 == 1)) then n + 1 else n

def Binary.toFloat (b : Binary) (more : Bool) : Float :=
  let sign := if b.negative then Nat.pow 2 63 else 0
  if b.mantissa = 0 then Float.ofBits (UInt64.ofNat sign)
  else
    let e := max (b.exponent + Nat.log2 b.mantissa - 52) (-1074)
    let kept :=
      if e ≤ b.exponent then b.mantissa * Nat.pow 2 (b.exponent - e).toNat
      else roundShift b.mantissa (e - b.exponent).toNat more
    let bits := if kept < Nat.pow 2 52 then kept else (e + 1075).toNat * Nat.pow 2 52 + (kept - Nat.pow 2 52)
    Float.ofBits (UInt64.ofNat (sign + min bits (0x7FF * Nat.pow 2 52)))

def isNegative (x : Float) : Bool := x.toBits.toNat / Nat.pow 2 63 == 1

end BuildingCode.Number

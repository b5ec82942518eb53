import BuildingCode.Number.Binary

/-! Remainder and cube root: the exact real value, rounded once. -/
namespace BuildingCode.Number

def Binary.align (a b : Binary) : Nat × Nat × Int :=
  let e := min a.exponent b.exponent
  (a.mantissa * Nat.pow 2 (a.exponent - e).toNat, b.mantissa * Nat.pow 2 (b.exponent - e).toNat, e)

/-- What is left of `x` after taking away `y` as often as it goes towards zero. The result has
the sign of `x` and is always representable. -/
def remainder (x y : Float) : Float :=
  if x.isNaN || y.isNaN || x.isInf || y == 0 then 0.0 / 0.0
  else if y.isInf then x
  else
    let a := Binary.ofFloat x
    let (m, n, e) := a.align (Binary.ofFloat y)
    Binary.toFloat ⟨a.negative, m % n, e⟩ false

def cubeRootFrom (n : Nat) : (steps guess : Nat) → Nat
  | 0, guess => guess
  | steps + 1, guess =>
    let next := (2 * guess + n / (guess * guess)) / 3
    if next < guess then cubeRootFrom n steps next else guess

def cubeRootOf (n : Nat) : Nat :=
  if n = 0 then 0 else cubeRootFrom n (Nat.log2 n + 1) (Nat.pow 2 (Nat.log2 n / 3 + 1))

/-- The cube root, of negative numbers as well. Scaling leaves a whole power of eight and enough
digits behind the last place. -/
def cubeRoot (x : Float) : Float :=
  if !x.isFinite || x == 0 then x
  else
    let b := Binary.ofFloat x
    let shift := 180 + (b.exponent % 3).toNat
    let cube := b.mantissa * Nat.pow 2 shift
    let root := cubeRootOf cube
    Binary.toFloat ⟨b.negative, root, (b.exponent - shift) / 3⟩ (root * root * root != cube)

end BuildingCode.Number

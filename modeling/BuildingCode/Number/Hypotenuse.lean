import BuildingCode.Number.Binary

/-! The hypotenuse in float arithmetic: the root of the sum of squares, corrected once for what
rounding has taken from it. It is almost always the nearest float, but not always, so the order of
the operations is part of the result. -/
namespace BuildingCode.Number

def powerOfTwo (e : Int) : Float := Binary.toFloat ⟨false, 1, e⟩ false

/-- How far the square of `h` exceeds `a * a + b * b`, for a longer leg `a`. Taken from the
differences to the closer leg, so that nothing large cancels. -/
def squareExcess (h a b : Float) : Float :=
  if h ≤ 2.0 * b then
    let d := h - b
    a * (2.0 * d - a) + (d - 2.0 * (a - b)) * d
  else
    let d := h - a
    2.0 * d * (a - 2.0 * b) + ((4.0 * d - b) * b + d * d)

def correctedRoot (a b : Float) : Float :=
  let h := Float.sqrt (a * a + b * b)
  h - squareExcess h a b / (2.0 * h)

/-- The hypotenuse over legs that are not negative, the longer one first. A leg too short to
matter is added, and legs near the ends of the range are scaled for their squares. -/
def hypotenuseOver (a b : Float) : Float :=
  if b * powerOfTwo 54 ≤ a then a + b
  else if powerOfTwo 511 < a then
    correctedRoot (a * powerOfTwo (-600)) (b * powerOfTwo (-600)) * powerOfTwo 600
  else if b < powerOfTwo (-459) then
    correctedRoot (a * powerOfTwo 600) (b * powerOfTwo 600) * powerOfTwo (-600)
  else correctedRoot a b

def hypotenuse (x y : Float) : Float :=
  if x.isInf || y.isInf then 1.0 / 0.0
  else if x.isNaN || y.isNaN then 0.0 / 0.0
  else if x.abs < y.abs then hypotenuseOver y.abs x.abs
  else hypotenuseOver x.abs y.abs

end BuildingCode.Number

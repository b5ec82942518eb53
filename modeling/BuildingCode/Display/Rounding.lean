import BuildingCode.Number.Power
import BuildingCode.Number.Whole
import BuildingCode.Service.Result

/-! Rounding for presentation. Values are rounded nowhere else. -/
namespace BuildingCode.Display
open Number

def defaultDigits : UInt32 := 6

/-- Rounds to fractional digits, halves away from zero. The digits count as a signed number. What
is too large to scale stays as it is, and no zero is negative. -/
def roundFor (digits : UInt32) (x : Float) : Float :=
  let k := wholePower 10.0 digits.toInt32.toInt
  let scaled := x * k
  if scaled.isFinite then
    let rounded := nearestWhole scaled / k
    if rounded == 0.0 then 0.0 else rounded
  else x

end BuildingCode.Display

namespace BuildingCode.Service
open Display

def Step.rounded (digits : UInt32) (s : Step) : Step := { s with value := roundFor digits s.value }

def Result.rounded (digits : UInt32) (r : Result) : Result :=
  { r with
    result := r.result.rounded (r.digits.getD digits)
    steps := r.steps.map (Step.rounded digits) }

end BuildingCode.Service

import BuildingCode.Number.Binary

/-! The fewest decimal digits that read back to a float. Candidates are tested against the exact
interval of reals that round to the value, so no float arithmetic takes part. -/
namespace BuildingCode.Number

structure Decimal where
  digits : Nat
  exponent : Int
deriving DecidableEq

inductive Tie where
  | upward
  | toEven

def compareScaled (a : Nat) (i : Int) (m : Nat) (q : Int) : Ordering :=
  compare (a * Nat.pow 10 i.toNat * Nat.pow 2 (-q).toNat) (m * Nat.pow 2 q.toNat * Nat.pow 10 (-i).toNat)

/-- Half the distance to the float below, in quarters of the last place. It is narrower at a
power of two, where the floats below are closer together. -/
def Binary.gapBelow (b : Binary) : Nat :=
  if b.mantissa = Nat.pow 2 52 ∧ -1074 < b.exponent then 1 else 2

/-- The decimal lies among the reals that round to the magnitude of `b`. -/
def Binary.readsBack (b : Binary) (d : Decimal) : Bool :=
  let even := b.mantissa % 2 == 0
  let low := compareScaled d.digits d.exponent (4 * b.mantissa - b.gapBelow) (b.exponent - 2)
  let high := compareScaled d.digits d.exponent (4 * b.mantissa + 2) (b.exponent - 2)
  (low == .gt || (even && low == .eq)) && (high == .lt || (even && high == .eq))

def Binary.floorAt (b : Binary) (k : Int) : Nat :=
  b.mantissa * Nat.pow 2 b.exponent.toNat * Nat.pow 10 (-k).toNat / (Nat.pow 2 (-b.exponent).toNat * Nat.pow 10 k.toNat)

def Binary.chooseAt (b : Binary) (tie : Tie) (k : Int) : Option Decimal :=
  let n := b.floorAt k
  match b.readsBack ⟨n, k⟩, b.readsBack ⟨n + 1, k⟩ with
  | false, false => none
  | true, false => some ⟨n, k⟩
  | false, true => some ⟨n + 1, k⟩
  | true, true =>
    match compareScaled (2 * n + 1) k (2 * b.mantissa) b.exponent, tie with
    | .gt, _ => some ⟨n, k⟩
    | .lt, _ => some ⟨n + 1, k⟩
    | .eq, .upward => some ⟨n + 1, k⟩
    | .eq, .toEven => some ⟨if n % 2 == 0 then n else n + 1, k⟩

def Decimal.stripZeros : (steps : Nat) → Decimal → Decimal
  | 0, d => d
  | steps + 1, d =>
    if d.digits % 10 == 0 && d.digits != 0 then stripZeros steps ⟨d.digits / 10, d.exponent + 1⟩
    else d

/-- The least `k` with `m * 2 ^ q < 10 ^ k`, looked for upward from an estimate below it. -/
def Binary.scaleFrom (b : Binary) : (steps : Nat) → Int → Int
  | 0, k => k
  | steps + 1, k =>
    if compareScaled 1 k b.mantissa b.exponent == .gt then k else b.scaleFrom steps (k + 1)

def Binary.scale (b : Binary) : Int :=
  b.scaleFrom 4 ((b.exponent + Nat.log2 b.mantissa) * 30103 / 100000 - 1)

/-- Tries one digit, then two, and so on. Seventeen always suffice; the exact value stands
behind them. -/
def Binary.shortest (b : Binary) (tie : Tie) : Decimal :=
  if b.mantissa = 0 then ⟨0, 0⟩
  else
    let top := b.scale
    let found := (List.range 17).findSome? fun (n : Nat) => b.chooseAt tie (top - 1 - n)
    (found.getD ⟨b.mantissa * Nat.pow 2 b.exponent.toNat * Nat.pow 5 (-b.exponent).toNat,
      min b.exponent 0⟩).stripZeros 400

end BuildingCode.Number

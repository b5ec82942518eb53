import BuildingCode.Number.Layout

/-! Documents as trees. Numbers stay numerals until someone asks for their value, and objects
keep every field in the order written, so that repeated names can be told. -/
namespace BuildingCode
open Number

inductive Json where
  | null
  | bool (b : Bool)
  | number (n : Numeral)
  | text (s : String)
  | list (items : List Json)
  | object (fields : List (String × Json))
  /-- Well-formed text without a meaning: some string in it has half of a surrogate pair. -/
  | unreadable

namespace Json

/-- Lays a float out as a number; documents have no other word for infinities and NaN than
null. -/
def ofFloat (x : Float) : Json :=
  if x.isFinite then .number (Layout.document.numeral x) else .null

def ofNat (n : Nat) : Json := .number (Numeral.ofNat n)

mutual
def height : Json → Nat
  | .list items => heightItems items + 1
  | .object fields => heightFields fields + 1
  | _ => 0
def heightItems : List Json → Nat
  | [] => 0
  | j :: js => max j.height (heightItems js)
def heightFields : List (String × Json) → Nat
  | [] => 0
  | (_, j) :: fs => max j.height (heightFields fs)
end

def asText : Json → Option String
  | .text s => some s
  | _ => none

def asBool : Json → Option Bool
  | .bool b => some b
  | _ => none

def powerOfTen (k : Nat) : Float := Float.ofScientific 1 false k

/-- Reads digits into 64 bits as long as they fit. The first digit that does not fit ends the
significand. Returns it with the number of digits taken. -/
def significand (start : Nat) : List Char → Nat × Nat
  | [] => (start, 0)
  | c :: cs =>
    let next := 10 * start + Text.digitValue c
    if next < 2 ^ 64 then
      let (s, taken) := significand next cs
      (s, taken + 1)
    else (start, 0)

def scaled (s : Nat) (e : Int) : Option Float :=
  let x := Float.ofScientific s false 0
  if 0 ≤ e then
    if s = 0 then some x
    else if e ≤ 308 then
      let y := x * powerOfTen e.toNat
      if y.isFinite then some y else none
    else none
  else
    let k := e.natAbs
    if k ≤ 308 then some (x / powerOfTen k)
    else if k ≤ 616 then some (x / powerOfTen 308 / powerOfTen (k - 308))
    else some 0.0

/-- The value of a numeral as documents define it: up to 64 bits of its leading digits, scaled
once. Up to fifteen digits and small powers this is the nearest float. -/
def numeralValue (n : Numeral) : Option Float :=
  let (s, taken) := significand 0 n.whole
  let (s, places) := significand s n.fraction
  let e := n.exponent.getD 0 + ((n.whole.length - taken : Nat) : Int) - places
  (scaled s e).map fun x => if n.negative then -x else x

def asFloat : Json → Option Float
  | .number n => numeralValue n
  | _ => none

def asNat (bound : Nat) : Json → Option Nat
  | .number ⟨false, whole, [], none⟩ =>
    let n := Text.digitsValue whole
    if n < bound then some n else none
  | _ => none

def asWord (j : Json) : Option UInt32 := (j.asNat UInt32.size).map UInt32.ofNat

def asList : Json → Option (List Json)
  | .list items => some items
  | _ => none

def asListOf (read : Json → Option α) : Json → Option (List α)
  | .list items => items.mapM read
  | _ => none

end Json
end BuildingCode

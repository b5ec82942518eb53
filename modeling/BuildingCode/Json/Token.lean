import BuildingCode.Json.Value
import BuildingCode.Number.Reading

/-! The tokens of a document. Scanning a token tells how many characters it takes; the scan of
the whole text then passes over them one by one, which keeps it a recursion on the text. -/
namespace BuildingCode.Json
open Number Text

inductive Token where
  | openList | closeList | openObject | closeObject | comma | colon
  | null
  | bool (b : Bool)
  | number (n : Numeral)
  | text (s : Option String)

def hexValue (c : Char) : Option Nat :=
  if isDigit c then some (digitValue c)
  else if 'a' ≤ c && c ≤ 'f' then some (c.toNat - 'a'.toNat + 10)
  else if 'A' ≤ c && c ≤ 'F' then some (c.toNat - 'A'.toNat + 10)
  else none

def hexUnit (a b c d : Char) : Option Nat := do
  return (((← hexValue a) * 16 + (← hexValue b)) * 16 + (← hexValue c)) * 16 + (← hexValue d)

def escapedChar : Char → Option Char
  | '\x22' => some '\x22'
  | '\\' => some '\\'
  | '/' => some '/'
  | 'b' => some '\x08'
  | 'f' => some '\x0c'
  | 'n' => some '\n'
  | 'r' => some '\r'
  | 't' => some '\t'
  | _ => none

/-- The characters of a text read so far, last first. `high` is the first half of a surrogate
pair that still waits for its other half; `sound` is lost when one never comes. -/
structure TextState where
  done : List Char
  high : Option Nat
  sound : Bool

def TextState.start : TextState := ⟨[], none, true⟩

def TextState.push (s : TextState) (c : Char) : TextState :=
  ⟨c :: s.done, none, s.sound && s.high.isNone⟩

def TextState.pushUnit (s : TextState) (u : Nat) : TextState :=
  if 0xD800 ≤ u && u < 0xDC00 then ⟨s.done, some u, s.sound && s.high.isNone⟩
  else if 0xDC00 ≤ u && u < 0xE000 then
    match s.high with
    | some h => ⟨Char.ofNat (0x10000 + (h - 0xD800) * 0x400 + (u - 0xDC00)) :: s.done, none, s.sound⟩
    | none => ⟨s.done, none, false⟩
  else s.push (Char.ofNat u)

def TextState.finish (s : TextState) : Option String :=
  if s.sound && s.high.isNone then some (String.ofList s.done.reverse) else none

def scanText (s : TextState) (width : Nat) : List Char → Option (Option String × Nat)
  | [] => none
  | '\x22' :: _ => some (s.finish, width + 1)
  | '\\' :: 'u' :: a :: b :: c :: d :: cs =>
    match hexUnit a b c d with
    | some u => scanText (s.pushUnit u) (width + 6) cs
    | none => none
  | '\\' :: c :: cs =>
    match escapedChar c with
    | some c => scanText (s.push c) (width + 2) cs
    | none => none
  | c :: cs => if c.toNat < 0x20 || c == '\\' then none else scanText (s.push c) (width + 1) cs

def scanDigits (cs : List Char) : Option (List Char × List Char) :=
  let ds := cs.takeWhile isDigit
  if ds.isEmpty then none else some (ds, cs.dropWhile isDigit)

def scanWhole : List Char → Option (List Char × List Char)
  | '0' :: cs => if (cs.head?.map isDigit).getD false then none else some (['0'], cs)
  | cs => scanDigits cs

def scanFraction : List Char → Option (List Char × List Char)
  | '.' :: cs => scanDigits cs
  | cs => some ([], cs)

def scanExponent : List Char → Option (Option Int × Nat)
  | c :: cs =>
    if c == 'e' || c == 'E' then
      let (negative, ds) := splitSign cs
      match scanDigits ds with
      | some (digits, _) =>
        let n : Int := digitsValue digits
        some (some (if negative then -n else n), 1 + (cs.length - ds.length) + digits.length)
      | none => none
    else some (none, 0)
  | [] => some (none, 0)

def scanUnsigned (negative : Bool) (cs : List Char) : Option (Numeral × Nat) := do
  let (whole, cs) ← scanWhole cs
  let (fraction, cs) ← scanFraction cs
  let (exponent, width) ← scanExponent cs
  let point := if fraction.isEmpty then 0 else fraction.length + 1
  return (⟨negative, whole, fraction, exponent⟩, whole.length + point + width)

def scanToken (c : Char) (cs : List Char) : Option (Token × Nat) :=
  match c, cs with
  | '[', _ => some (.openList, 0)
  | ']', _ => some (.closeList, 0)
  | '\x7b', _ => some (.openObject, 0)
  | '\x7d', _ => some (.closeObject, 0)
  | ',', _ => some (.comma, 0)
  | ':', _ => some (.colon, 0)
  | 'n', 'u' :: 'l' :: 'l' :: _ => some (.null, 3)
  | 't', 'r' :: 'u' :: 'e' :: _ => some (.bool true, 3)
  | 'f', 'a' :: 'l' :: 's' :: 'e' :: _ => some (.bool false, 4)
  | '\x22', cs => (scanText .start 0 cs).map fun (s, width) => (.text s, width)
  | '-', cs => (scanUnsigned true cs).map fun (n, width) => (.number n, width)
  | c, cs =>
    if isDigit c then
      (scanUnsigned false (c :: cs)).map fun (n, width) => (.number n, width - 1)
    else none

def isGap (c : Char) : Bool := c == ' ' || c == '\t' || c == '\n' || c == '\r'

/-- Scans the text after passing over `skip` characters that belong to a token already read. -/
def scan : (skip : Nat) → List Char → Option (List Token)
  | _, [] => some []
  | skip + 1, _ :: cs => scan skip cs
  | 0, c :: cs =>
    if isGap c then scan 0 cs
    else match scanToken c cs with
      | some (t, width) => (scan width cs).map (t :: ·)
      | none => none

end BuildingCode.Json

import BuildingCode.Expression.Literal
import BuildingCode.Expression.Rejection

/-! Scanning an expression into lexemes, each the longest that can begin where it does. What no
token begins with is rejected here: quotes, brackets, braces and single equals signs. -/
namespace BuildingCode.Expression
open Text

def beginsName (c : Char) : Bool := isLetter c || c == '_'

def operator? (c : Char) (cs : List Char) : Option (Token × Nat) :=
  match c, cs with
  | '*', '*' :: _ => some (.power, 2)
  | '*', _ => some (.star, 1)
  | '^', _ => some (.power, 1)
  | '+', _ => some (.plus, 1)
  | '-', _ => some (.minus, 1)
  | '/', _ => some (.slash, 1)
  | '%', _ => some (.percent, 1)
  | '(', _ => some (.openParen, 1)
  | ')', _ => some (.closeParen, 1)
  | ',', _ => some (.comma, 1)
  | '.', _ => some (.dot, 1)
  | '?', _ => some (.question, 1)
  | ':', _ => some (.colon, 1)
  | '<', '=' :: _ => some (.le, 2)
  | '<', _ => some (.lt, 1)
  | '>', '=' :: _ => some (.ge, 2)
  | '>', _ => some (.gt, 1)
  | '=', '=' :: '=' :: _ => some (.eq, 3)
  | '=', '=' :: _ => some (.eq, 2)
  | '!', '=' :: '=' :: _ => some (.ne, 3)
  | '!', '=' :: _ => some (.ne, 2)
  | _, _ => none

def isQuote (c : Char) : Bool := c == '\x22' || c == '\x27' || c == '\x60'

def rejectChar (c : Char) (position : Nat) : Rejection :=
  if c == '=' then .assignment position
  else if isQuote c then .textLiteral position
  else .unexpectedChar c position

def scanToken (position : Nat) (c : Char) (cs : List Char) : Except Rejection (Token × Nat) :=
  if isDigit c || (c == '.' && startsWithDigit cs) then
    match scanLiteral (c :: cs) with
    | .ok (value, width) => .ok (.number value, width)
    | .error width => .error (.invalidNumber (String.ofList ((c :: cs).take width)) position)
  else if c == 'π' then .ok (.name "π", 1)
  else if beginsName c then
    let word := c :: cs.takeWhile isWordChar
    .ok (.name (String.ofList word), word.length)
  else match operator? c cs with
    | some found => .ok found
    | none => .error (rejectChar c position)

/-- Scans a text that begins at `position`, after passing over `skip` characters of a token that
is already read. -/
def scanFrom : (position skip : Nat) → List Char → Except Rejection (List Lexeme)
  | _, _, [] => .ok []
  | position, skip + 1, _ :: cs => scanFrom (position + 1) skip cs
  | position, 0, c :: cs =>
    if isSpace c then scanFrom (position + 1) 0 cs
    else match scanToken position c cs with
      | .error e => .error e
      | .ok (token, width) => do
        let rest ← scanFrom (position + 1) (width - 1) cs
        return ⟨token, position, width⟩ :: rest

def lexemes (text : String) : Except Rejection (List Lexeme) := scanFrom 0 0 text.toList

end BuildingCode.Expression

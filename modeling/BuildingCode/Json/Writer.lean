import BuildingCode.Json.Value

/-! Compact text of a document: no blanks, fields in their order, and only quotes, backslashes
and control characters escaped. -/
namespace BuildingCode.Json

def hexDigits (n : Nat) : List Char := [Nat.digitChar (n / 16), Nat.digitChar (n % 16)]

def escaped (c : Char) : List Char :=
  match c with
  | '\x22' => ['\\', '\x22']
  | '\\' => ['\\', '\\']
  | '\x08' => ['\\', 'b']
  | '\x0c' => ['\\', 'f']
  | '\n' => ['\\', 'n']
  | '\r' => ['\\', 'r']
  | '\t' => ['\\', 't']
  | c => if c.toNat < 0x20 then ['\\', 'u', '0', '0'] ++ hexDigits c.toNat else [c]

def putText (s : String) (rest : List Char) : List Char :=
  '\x22' :: s.toList.foldr (fun c rest => escaped c ++ rest) ('\x22' :: rest)

mutual
def put : Json → List Char → List Char
  | .null, rest | .unreadable, rest => 'n' :: 'u' :: 'l' :: 'l' :: rest
  | .bool true, rest => 't' :: 'r' :: 'u' :: 'e' :: rest
  | .bool false, rest => 'f' :: 'a' :: 'l' :: 's' :: 'e' :: rest
  | .number n, rest => n.chars ++ rest
  | .text s, rest => putText s rest
  | .list [], rest => '[' :: ']' :: rest
  | .list (item :: items), rest => '[' :: put item (putItems items rest)
  | .object [], rest => '\x7b' :: '\x7d' :: rest
  | .object ((name, value) :: fields), rest =>
    '\x7b' :: putText name (':' :: put value (putFields fields rest))
def putItems : List Json → List Char → List Char
  | [], rest => ']' :: rest
  | item :: items, rest => ',' :: put item (putItems items rest)
def putFields : List (String × Json) → List Char → List Char
  | [], rest => '\x7d' :: rest
  | (name, value) :: fields, rest =>
    ',' :: putText name (':' :: put value (putFields fields rest))
end

def render (j : Json) : String := String.ofList (put j [])

end BuildingCode.Json

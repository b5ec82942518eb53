/-! Text with control sequences for a terminal, and what is left of it for an output that has no
styles: sequences are dropped and so are control characters, save the blank ones. A sequence that
is left open swallows what follows until something ends it. -/
namespace BuildingCode.Text

def bold (s : String) : String := "\x1b[1m" ++ s ++ "\x1b[0m"

inductive Sequence where
  | escape
  | intermediate
  | control
  | deviceStart
  | deviceParameters
  | deviceIntermediate
  | payload
  | command
deriving DecidableEq

namespace Sequence

/-- The sequence kept open by an ASCII character, or nothing when the character ends it. The
characters that end every sequence have been dealt with before. -/
def next (q : Sequence) (c : Char) : Option Sequence :=
  let idle := c < ' ' || c == '\x7f'
  match q with
  | escape =>
    if idle then some escape
    else if c < '0' then some intermediate
    else match c with
      | '[' => some control
      | ']' => some command
      | 'P' => some deviceStart
      | 'X' | '^' | '_' => some payload
      | _ => none
  | intermediate => if idle || c < '0' then some intermediate else none
  | control => if idle || c < '@' then some control else none
  | deviceStart =>
    if idle then some deviceStart
    else if c < '0' then some deviceIntermediate
    else if c < '@' then some deviceParameters
    else some payload
  | deviceParameters =>
    if idle then some deviceParameters
    else if c < '0' then some deviceIntermediate
    else if c < '<' then some deviceParameters
    else some payload
  | deviceIntermediate => if idle || c < '0' then some deviceIntermediate else some payload
  | payload => some payload
  | command => if c == '\x07' then none else some command

def showsBlanks : Sequence → Bool
  | escape | intermediate | control => true
  | _ => false

/-- The sequence after a character beyond ASCII. Data ends at the byte of the string terminator,
also when that byte is a part of a character. -/
def nextWide (q : Sequence) (c : Char) : Option Sequence :=
  if q = payload && (String.utf8EncodeChar c).contains 0x9c then none else some q

end Sequence

def isBlankControl (c : Char) : Bool := c == '\t' || c == '\n' || c == '\x0c' || c == '\r'

def isShown (c : Char) : Bool := (' ' ≤ c && c != '\x7f') || isBlankControl c

structure Styling where
  sequence : Option Sequence := none
  /-- A blank in the sequence has been shown, and characters are shown up to the next one that
  cannot be. -/
  interrupted : Bool := false

def Styling.step (s : Styling) (c : Char) : Bool × Styling :=
  match s.sequence with
  | none => (isShown c, { sequence := if c == '\x1b' then some .escape else none })
  | some q =>
    if s.interrupted && isShown c then (true, if c ≤ '\x7f' then s else {})
    else if isBlankControl c && q.showsBlanks then (true, { s with interrupted := true })
    else (false, { sequence := match c with
      | '\x18' | '\x1a' => none
      | '\x1b' => some .escape
      | c => if c ≤ '\x7f' then q.next c else q.nextWide c })

def Styling.shown (s : Styling) : List Char → List Char
  | [] => []
  | c :: cs =>
    let (keep, s) := s.step c
    if keep then c :: s.shown cs else s.shown cs

def unstyled (s : String) : String := String.ofList (Styling.shown {} s.toList)

end BuildingCode.Text

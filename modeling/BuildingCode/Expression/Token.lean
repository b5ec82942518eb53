import BuildingCode.Number.Layout

/-! The tokens of expressions. A lexeme also says where its token stands and how many characters
it takes, so a scan can be compared with the text that it came from. -/
namespace BuildingCode.Expression

inductive Token where
  | number (value : Float)
  | name (name : String)
  | dot | comma | openParen | closeParen
  | plus | minus | star | slash | percent | power
  | lt | le | gt | ge | eq | ne
  | question | colon
deriving DecidableEq

def Token.text : Token → String
  | .number v => Number.plainText v
  | .name n => n
  | .dot => "."
  | .comma => ","
  | .openParen => "("
  | .closeParen => ")"
  | .plus => "+"
  | .minus => "-"
  | .star => "*"
  | .slash => "/"
  | .percent => "%"
  | .power => "^"
  | .lt => "<"
  | .le => "<="
  | .gt => ">"
  | .ge => ">="
  | .eq => "=="
  | .ne => "!="
  | .question => "?"
  | .colon => ":"

structure Lexeme where
  token : Token
  start : Nat
  width : Nat
deriving DecidableEq

end BuildingCode.Expression

import SmallLisp.Number.Literal
import SmallLisp.Number.Shortest
import SmallLisp.Text.StringLiteral

/-! Tokens: what the text of a program consists of between blanks and comments, each with the place
where it starts. -/
namespace SmallLisp

/-- A line and a column, both from one; columns count characters. -/
structure Position where
  line : Nat
  col : Nat
deriving DecidableEq

inductive Bracket
  | round
  | curly
deriving DecidableEq

namespace Bracket

def openText : Bracket → Bytes
  | .round => Bytes.ofString "("
  | .curly => Bytes.ofString "\x7b"

def closeText : Bracket → Bytes
  | .round => Bytes.ofString ")"
  | .curly => Bytes.ofString "\x7d"

end Bracket

inductive Lexeme
  | opening (b : Bracket)
  | closing (b : Bracket)
  | symbol (text : Bytes)
  | number (text : Bytes) (value : Literal.Numeral)
  | string (contents : Bytes)
deriving DecidableEq

namespace Lexeme

/-- The name of the lexeme's class; a bracket is its own. -/
def kind : Lexeme → Bytes
  | .opening b => b.openText
  | .closing b => b.closeText
  | .symbol _ => Bytes.ofString "symbol"
  | .number _ (.int _) => Bytes.ofString "integer"
  | .number _ (.float _) => Bytes.ofString "float"
  | .string _ => Bytes.ofString "string"

/-- The text of a symbol or number, the contents of a string, nothing for a bracket. -/
def text : Lexeme → Bytes
  | .opening _ => []
  | .closing _ => []
  | .symbol t => t
  | .number t _ => t
  | .string s => s

private def within (kind body : Bytes) : Bytes := kind ++ 40 :: body ++ [41]

/-- The class with the value in parentheses. -/
def describe (l : Lexeme) : Bytes :=
  match l with
  | .opening _ | .closing _ => l.kind
  | .symbol t => within l.kind t
  | .number _ (.int n) => within l.kind (Bytes.ofInt n.toInt)
  | .number _ (.float x) => within l.kind (Shortest.render x)
  | .string s => within l.kind (StringLiteral.render s)

end Lexeme

structure Token where
  lexeme : Lexeme
  pos : Position
deriving DecidableEq

end SmallLisp

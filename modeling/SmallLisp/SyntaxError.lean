import SmallLisp.Text.Quoted
import SmallLisp.Token

/-! What can be wrong with the text of a program, where, and how it is reported: the fault, its
position, the source line and a caret under the column. -/
namespace SmallLisp

inductive SyntaxFault
  | unexpectedChar (c : Char)
  | malformedNumber (text : Bytes)
  | unterminatedString
  | invalidHexEscape
  | unknownEscape (c : Char)
  | unexpectedClosing (b : Bracket)
  | mismatched (expected found : Bracket)
  | notAfterHash
deriving DecidableEq

def SyntaxFault.message : SyntaxFault → Bytes
  | .unexpectedChar c => Bytes.ofString "unexpected character " ++ Quoted.char c
  | .malformedNumber t => Bytes.ofString "malformed number " ++ Quoted.text t
  | .unterminatedString => Bytes.ofString "unterminated string"
  | .invalidHexEscape => Bytes.ofString "invalid hex escape"
  | .unknownEscape c => Bytes.ofString "unknown escape character " ++ Quoted.char c
  | .unexpectedClosing b => Bytes.ofString "unexpected " ++ b.closeText
  | .mismatched e f =>
    Bytes.ofString "expected " ++ e.closeText ++ Bytes.ofString " but found " ++ f.closeText
  | .notAfterHash => Bytes.ofString "expected ( after #"

/-- A fault and where it is. -/
structure Flaw where
  fault : SyntaxFault
  pos : Position
deriving DecidableEq

/-- A flaw with the source line it is on. -/
structure SyntaxError where
  fault : SyntaxFault
  pos : Position
  text : Bytes
deriving DecidableEq

/-- Line `n` of a text, from one, without a carriage return at its end. -/
def sourceLine (src : Bytes) (n : Nat) : Bytes :=
  Bytes.dropReturn ((Bytes.lines src)[n - 1]?.getD [])

def Flaw.locate (f : Flaw) (src : Bytes) : SyntaxError :=
  ⟨f.fault, f.pos, sourceLine src f.pos.line⟩

/-- The line of a text that starts at this byte, without a carriage return at its end. -/
def lineFrom (src : Bytes) (start : Nat) : Bytes :=
  Bytes.dropReturn ((src.drop start).takeWhile (· != 10))

/-- Where a character of a text is: its position, its offset in bytes, and that of its line. -/
structure Place where
  pos : Position
  offset : Nat
  lineStart : Nat
deriving DecidableEq

/-- A fault in a lexeme and the place that it is reported at. -/
structure LexicalFlaw where
  fault : SyntaxFault
  place : Place
deriving DecidableEq

/-- The flaw with the line that starts where that of its place does. -/
def LexicalFlaw.locate (f : LexicalFlaw) (src : Bytes) : SyntaxError :=
  ⟨f.fault, f.place.pos, lineFrom src f.place.lineStart⟩

namespace SyntaxError

/-- The indentation of the caret: a tab under a tab, a space under any other character. -/
def caretPad (e : SyntaxError) : Bytes :=
  let under := ((Glyph.ofBytes e.text).take (e.pos.col - 1)).map fun g =>
    if g.char == '\t' then (9 : UInt8) else 32
  under ++ List.replicate (e.pos.col - 1 - under.length) 32

def message (e : SyntaxError) : Bytes :=
  e.fault.message ++ Bytes.ofString " at line " ++ Bytes.ofNat e.pos.line ++
    Bytes.ofString ", column " ++ Bytes.ofNat e.pos.col ++ 10 :: e.text ++ 10 :: e.caretPad ++ [94]

end SyntaxError
end SmallLisp

import SmallLisp.SyntaxError

/-! From text to tokens. The scanner takes one character at a time and remembers only what it is
inside of, so scanning a text is a fold over its characters. -/
namespace SmallLisp

/-- Blanks, brackets, the double quote and the semicolon end a symbol or number. -/
def isDelimiter (c : Char) : Bool :=
  CharClass.isSpace c || c == '(' || c == ')' || c == '\x7b' || c == '\x7d' || c == '"' || c == ';'

def isSymbolChar (c : Char) : Bool := !isDelimiter c && CharClass.isGraphic c

/-- A run of symbol characters is a number when it starts with a digit, or with a minus sign and a
digit. -/
def looksNumeric : List Glyph → Bool
  | g :: h :: _ => CharClass.isDigit g.char || (g.char == '-' && CharClass.isDigit h.char)
  | [g] => CharClass.isDigit g.char
  | [] => false

/-- What a run of symbol characters is. -/
def Lexeme.ofRun (gs : List Glyph) : Except SyntaxFault Lexeme :=
  let text := Glyph.toBytes gs
  if looksNumeric gs then
    match Literal.number? text with
    | some v => .ok (.number text v)
    | none => .error (.malformedNumber text)
  else .ok (.symbol text)

/-- What the scanner is inside of. A run and the contents of a string are kept in reverse; an
escape remembers where its backslash stands. -/
inductive Mode
  | blank
  | comment
  | run (start : Place) (seen : List Glyph)
  | string (start : Place) (seen : Bytes)
  | escape (start : Place) (seen : Bytes) (esc : Place)
  | hexHigh (start : Place) (seen : Bytes) (esc : Place)
  | hexLow (start : Place) (seen : Bytes) (esc : Place) (high : Nat)
deriving DecidableEq

/-- The place of the next character and the tokens so far, the latest first. -/
structure Scanner where
  mode : Mode
  here : Place
  tokens : List Token
deriving DecidableEq

def Position.next (p : Position) (c : Char) : Position :=
  if c == '\n' then ⟨p.line + 1, 1⟩ else ⟨p.line, p.col + 1⟩

namespace Place

def start : Place := ⟨⟨1, 1⟩, 0, 0⟩

/-- The place behind a character. A newline starts a line there. -/
def next (p : Place) (g : Glyph) : Place :=
  let offset := p.offset + g.raw.length
  ⟨p.pos.next g.char, offset, if g.char == '\n' then offset else p.lineStart⟩

end Place

/-- The value of a hexadecimal digit. -/
def hexValue? (c : Char) : Option Nat :=
  if '0' ≤ c && c ≤ '9' then some (c.toNat - 48)
  else if 'a' ≤ c && c ≤ 'f' then some (c.toNat - 87)
  else if 'A' ≤ c && c ≤ 'F' then some (c.toNat - 55)
  else none

namespace Scanner

def start : Scanner := ⟨.blank, .start, []⟩

/-- Past one character, in another mode. -/
def move (s : Scanner) (g : Glyph) (m : Mode) : Scanner := ⟨m, s.here.next g, s.tokens⟩

def emit (s : Scanner) (l : Lexeme) (p : Place) : Scanner :=
  { s with tokens := ⟨l, p.pos⟩ :: s.tokens }

/-- A character outside of all lexemes. -/
def stepBlank (s : Scanner) (g : Glyph) : Except LexicalFlaw Scanner :=
  let c := g.char
  if CharClass.isSpace c then .ok (s.move g .blank)
  else if c == ';' then .ok (s.move g .comment)
  else if c == '(' then .ok ((s.emit (.opening .round) s.here).move g .blank)
  else if c == ')' then .ok ((s.emit (.closing .round) s.here).move g .blank)
  else if c == '\x7b' then .ok ((s.emit (.opening .curly) s.here).move g .blank)
  else if c == '\x7d' then .ok ((s.emit (.closing .curly) s.here).move g .blank)
  else if c == '"' then .ok (s.move g (.string s.here []))
  else if isSymbolChar c then .ok (s.move g (.run s.here [g]))
  else .error ⟨.unexpectedChar c, s.here⟩

/-- The run is over: its lexeme is known. -/
def endRun (s : Scanner) (start : Place) (seen : List Glyph) : Except LexicalFlaw Scanner :=
  match Lexeme.ofRun seen.reverse with
  | .ok l => .ok { s.emit l start with mode := .blank }
  | .error f => .error ⟨f, start⟩

/-- The character after a backslash. -/
def stepEscape (s : Scanner) (g : Glyph) (start : Place) (seen : Bytes) (esc : Place) :
    Except LexicalFlaw Scanner :=
  let c := g.char
  let push (b : UInt8) := Except.ok (s.move g (.string start (b :: seen)))
  if c == 'n' then push 10
  else if c == 't' then push 9
  else if c == '"' then push 34
  else if c == '\\' then push 92
  else if c == 'x' then .ok (s.move g (.hexHigh start seen esc))
  else .error ⟨.unknownEscape c, esc⟩

def step (s : Scanner) (g : Glyph) : Except LexicalFlaw Scanner :=
  let c := g.char
  match s.mode with
  | .blank => s.stepBlank g
  | .comment => .ok (s.move g (if c == '\n' then .blank else .comment))
  | .run start seen =>
    if isSymbolChar c then .ok (s.move g (.run start (g :: seen)))
    else (s.endRun start seen).bind fun s => s.stepBlank g
  | .string start seen =>
    if c == '"' then .ok ((s.emit (.string seen.reverse) start).move g .blank)
    else if c == '\\' then .ok (s.move g (.escape start seen s.here))
    else .ok (s.move g (.string start ((Bytes.ofChar c).reverse ++ seen)))
  | .escape start seen esc => s.stepEscape g start seen esc
  | .hexHigh start seen esc =>
    match hexValue? c with
    | some h => .ok (s.move g (.hexLow start seen esc h))
    | none => .error ⟨.invalidHexEscape, esc⟩
  | .hexLow start seen esc high =>
    match hexValue? c with
    | some l => .ok (s.move g (.string start (UInt8.ofNat (16 * high + l) :: seen)))
    | none => .error ⟨.invalidHexEscape, esc⟩

/-- The end of the text: a run ends here, a string must not. -/
def finish (s : Scanner) : Except LexicalFlaw (List Token) :=
  match s.mode with
  | .blank | .comment => .ok s.tokens.reverse
  | .run start seen => (s.endRun start seen).map fun s => s.tokens.reverse
  | .string start _ | .escape start _ _ => .error ⟨.unterminatedString, start⟩
  | .hexHigh _ _ esc | .hexLow _ _ esc _ => .error ⟨.invalidHexEscape, esc⟩

end Scanner

/-- The tokens of a text, or the first flaw in it. -/
def scan (gs : List Glyph) : Except LexicalFlaw (List Token) :=
  (gs.foldlM Scanner.step Scanner.start).bind Scanner.finish

def tokenize (src : Bytes) : Except SyntaxError (List Token) :=
  (scan (Glyph.ofBytes src)).mapError (·.locate src)

end SmallLisp

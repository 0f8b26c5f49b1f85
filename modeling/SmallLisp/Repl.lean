import SmallLisp.Session

/-! Reading and evaluating line by line. Lines are gathered until they are complete as a text; what
is gathered is a command or is evaluated. -/
namespace SmallLisp.Repl

/-- What has been typed after one more line. -/
def gather (pending line : Bytes) : Bytes :=
  if pending.isEmpty then line else pending ++ 10 :: line

/-- More lines can complete the text. -/
def isIncomplete (src : Bytes) : Bool :=
  match parse src with
  | .error .incomplete => true
  | _ => false

/-- What the lines since the last input amount to. -/
inductive Gathered
  | complete (src : Bytes)
  | waiting (src : Bytes)
deriving DecidableEq

/-- One more line after the text that waits for it. -/
def addLine (pending line : Bytes) : Gathered :=
  let src := gather pending line
  if isIncomplete src then .waiting src else .complete src

/-- The next complete input and the lines after it, or nothing if the lines end before that. -/
def readInput (pending : Bytes) : List Bytes → Option (Bytes × List Bytes)
  | [] => none
  | line :: lines =>
    match addLine pending line with
    | .complete src => some (src, lines)
    | .waiting src => readInput src lines

inductive Command
  | nothing
  | quit
  | unknown
  | evaluate (code : Bytes)
deriving DecidableEq

/-- A colon starts a command; `code` is the input without white space around it. -/
def Command.ofInput (src : Bytes) : Command :=
  let code := Bytes.trim CharClass.isSpace src
  if code.isEmpty then .nothing
  else if code == Bytes.ofString ":quit" then .quit
  else if code.head? == some 58 then .unknown
  else .evaluate code

/-- A line of a file or of input, without the marks at its end. A line that is too long comes in
pieces, all but the last of which are marked. -/
structure Line where
  text : Bytes
  isPiece : Bool

namespace Line

/-- The length from which a line comes in pieces. -/
def limit : Nat := 4096

/-- One line cut into pieces. A newline followed it if it is `closed`; only then does a carriage
return at its end count as part of the mark. A carriage return at the end of a piece is left for
the next one. -/
private def pieces (closed : Bool) : Nat → Bytes → List Line
  | 0, _ => []
  | fuel + 1, l =>
    if l.length < limit then
      if closed then [⟨Bytes.dropReturn l, false⟩]
      else if l.isEmpty then [] else [⟨l, false⟩]
    else
      let piece := Bytes.dropReturn (l.take limit)
      ⟨piece, true⟩ :: pieces closed fuel (l.drop piece.length)

/-- The lines of a text. What follows its last newline is a line if it is not empty. -/
def ofText (text : Bytes) : List Line :=
  let lines := Bytes.lines text
  (lines.dropLast.flatMap fun l => pieces true (l.length + 1) l) ++
    (match lines.getLast? with
     | some l => pieces false (l.length + 1) l
     | none => [])

end Line

/-- Earlier inputs, the latest first. -/
abbrev History := List Bytes

namespace History

/-- How many inputs are kept. -/
def limit : Nat := 1000

/-- An input that repeats the one before it is not added. It is kept on one line. -/
def add (h : History) (code : Bytes) : History :=
  let entry := code.map fun b => if b == 10 then 32 else b
  if h.head? == some entry then h else (entry :: h).take limit

/-- The lines of a history file, up to one that is too long or is not UTF-8. -/
def ofFile (contents : Bytes) : History :=
  let whole := (Line.ofText contents).takeWhile fun l => !l.isPiece && Bytes.isUtf8 l.text
  (whole.map Line.text).reverse.take limit

def toFile (h : History) : Bytes := h.reverse.flatMap fun l => l ++ [10]

end History

/-- A prompt with a control character or one that stands for nothing cannot be shown. -/
def isPrompt (p : Bytes) : Bool := (Glyph.ofBytes p).all fun g => !CharClass.isOther g.char

end SmallLisp.Repl

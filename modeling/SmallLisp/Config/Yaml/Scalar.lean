import SmallLisp.Config.Yaml.Input
import SmallLisp.Number.Literal

/-! The text of scalars: plain ones and those in quotes. A line break inside a scalar is folded: it
is a space if one line follows, and otherwise it is dropped and the breaks after it are kept. -/
namespace SmallLisp.Yaml

/-- The white space between two words of a scalar, in reverse: blanks on one line, or line breaks
with the blanks around them dropped. The first break is missing when it was written as an escape. -/
inductive Gap
  | blanks (chars : List Char)
  | breaks (first : Option Char) (more : List Char)

namespace Gap

def none : Gap := .blanks []

def add : Gap → Char → Gap
  | .blanks chars, c => if isBreak c then .breaks (some c) [] else .blanks (c :: chars)
  | .breaks first more, c => .breaks first (if isBreak c then c :: more else more)

/-- What a gap stands for, in reverse. Separators of lines and paragraphs are not folded. -/
def reversed : Gap → List Char
  | .blanks chars => chars
  | .breaks first more =>
    if first != some '\n' then more ++ first.toList else if more.isEmpty then [' '] else more

end Gap

def isSpace (c : Char) : Bool := isBlank c || isBreak c

def isFlowMark (c : Char) : Bool :=
  c == ',' || c == '[' || c == ']' || c == '\x7b' || c == '\x7d'

/-- Characters that start something other than a plain scalar. -/
private def indicators : List Char := "-?:,[]\x7b\x7d#&*!|>'\"%@`".toList

/-- A dash may start a plain scalar if no white space follows, and outside of flow style so may a
question mark or a colon. -/
def startsPlain (flow : Bool) : Input → Bool
  | [] => false
  | c :: cs =>
    if c.char == '-' || (!flow && (c.char == '?' || c.char == ':')) then !endsWord cs
    else !isSpace c.char && !indicators.contains c.char

/-- Where a plain scalar ends: at a colon with white space after it, in flow style at a mark, after
white space at a comment, and outside of flow style at a line that is not indented by more than
`indent`. -/
private def endsPlain (flow : Bool) (indent : Nat) (gap : Gap) (c : Cell) (cs : Input) : Bool :=
  (c.char == ':' && endsWord cs) || (flow && (isFlowMark c.char || c.char == '?')) ||
    match gap with
    | .blanks chars => c.char == '#' && !chars.isEmpty
    | .breaks .. => c.char == '#' || (!flow && c.col ≤ indent)

/-- What follows the white space after a plain scalar. Of that the first break stays, so that the
end of the line can be seen. A line that could have gone on with the scalar is not loose if it is
the end of the text and has fewer than four characters. -/
private def afterPlain (first : Option Cell) (reaches : Bool) (c : Cell) (cs : Input) : Input :=
  first.toList ++ (if reaches && (cs.drop 2).isEmpty then { c with loose := false } else c) :: cs

/-- The characters of a plain scalar, in reverse, and what follows it. -/
private def plainFrom (flow : Bool) (indent : Nat) :
    List Char → Gap → Option Cell → Input → List Char × Input
  | seen, _, first, [] => (seen, first.toList)
  | seen, gap, first, c :: cs =>
    if isSpace c.char then
      let first := if isBreak c.char then first.or (some c) else first
      plainFrom flow indent seen (gap.add c.char) first cs
    else if endsPlain flow indent gap c cs then
      (seen, afterPlain first (flow || indent < c.col) c cs)
    else plainFrom flow indent (c.char :: (gap.reversed ++ seen)) .none none cs

/-- A plain scalar and what follows it. -/
def plain? (flow : Bool) (indent : Nat) (i : Input) : Option (Bytes × Input) :=
  if startsPlain flow i then
    let (seen, rest) := plainFrom flow indent [] .none none i
    some (Bytes.ofChars seen.reverse, rest)
  else none

/-- Inside apostrophes, where two of them stand for one. -/
private def singleQuoted : List Char → Gap → Input → Option (List Char × Input)
  | _, _, [] => none
  | seen, gap, c :: cs =>
    if isSpace c.char then singleQuoted seen (gap.add c.char) cs
    else
      let seen := gap.reversed ++ seen
      if c.char == '\'' then
        match cs with
        | d :: ds =>
          if d.char == '\'' then singleQuoted ('\'' :: seen) .none ds else some (seen, cs)
        | [] => some (seen, [])
      else singleQuoted (c.char :: seen) .none cs

private def hexDigits : Nat → Nat → Input → Option (Nat × Input)
  | 0, n, i => some (n, i)
  | _ + 1, _, [] => none
  | k + 1, n, c :: cs =>
    (Literal.digit? 16 (UInt8.ofNat (min c.char.toNat 255))).bind fun d =>
      hexDigits k (16 * n + d) cs

/-- The character that an escape with one letter stands for. -/
private def letterEscape (c : Char) : Option Char :=
  [('0', Char.ofNat 0), ('a', Char.ofNat 7), ('b', Char.ofNat 8), ('t', '\t'), ('\t', '\t'),
   ('n', '\n'), ('v', Char.ofNat 11), ('f', Char.ofNat 12), ('r', '\r'), ('e', Char.ofNat 27),
   (' ', ' '), ('"', '"'), ('\'', '\''), ('/', '/'), ('\\', '\\'), ('N', nextLine),
   ('_', Char.ofNat 0xA0), ('L', lineSeparator), ('P', paragraphSeparator)].lookup c

/-- The character that an escape stands for, and what follows it. -/
private def escape : Input → Option (Char × Input)
  | [] => none
  | c :: cs =>
    let code (width : Nat) :=
      (hexDigits width 0 cs).bind fun (n, rest) =>
        if n.isValidChar then some (Char.ofNat n, rest) else none
    if c.char == 'x' then code 2
    else if c.char == 'u' then code 4
    else if c.char == 'U' then code 8
    else (letterEscape c.char).map fun d => (d, cs)

/-- Inside double quotes. Only blanks written as such are dropped at a line break, and a break after
a backslash stands for nothing. -/
private def doubleQuoted : Nat → List Char → Gap → Input → Option (List Char × Input)
  | 0, _, _, _ => none
  | _ + 1, _, _, [] => none
  | fuel + 1, seen, gap, c :: cs =>
    if isSpace c.char then doubleQuoted fuel seen (gap.add c.char) cs
    else
      let seen := gap.reversed ++ seen
      if c.char == '"' then some (seen, cs)
      else if c.char != '\\' then doubleQuoted fuel (c.char :: seen) .none cs
      else match cs with
        | d :: ds =>
          if isBreak d.char then doubleQuoted fuel seen (.breaks none []) ds
          else (escape cs).bind fun (e, rest) => doubleQuoted fuel (e :: seen) .none rest
        | [] => none

/-- A scalar in quotes and what follows it. -/
def quoted? : Input → Option (Bytes × Input)
  | [] => none
  | c :: cs =>
    let body :=
      if c.char == '"' then doubleQuoted (cs.length + 1) [] .none cs
      else if c.char == '\'' then singleQuoted [] .none cs
      else none
    body.map fun (seen, rest) => (Bytes.ofChars seen.reverse, rest)

end SmallLisp.Yaml

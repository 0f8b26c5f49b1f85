import SmallLisp.Text.Glyph

/-! A text of YAML before it is read: which bytes it may hold, where its characters stand, and which
of them belong to its first document. -/
namespace SmallLisp.Yaml

/-- Why a text cannot be read. -/
inductive Fault
  | leadingOctet
  | trailingOctet
  | incomplete
  | length
  | noCharacter
  | incompleteUnit
  | incompletePair
  | unexpectedLow
  | expectedLow
  | control
  | malformed
deriving DecidableEq

def Fault.message : Fault → Bytes
  | .leadingOctet => Bytes.ofString "invalid leading UTF-8 octet"
  | .trailingOctet => Bytes.ofString "invalid trailing UTF-8 octet"
  | .incomplete => Bytes.ofString "incomplete UTF-8 octet sequence"
  | .length => Bytes.ofString "invalid length of a UTF-8 sequence"
  | .noCharacter => Bytes.ofString "invalid Unicode character"
  | .incompleteUnit => Bytes.ofString "incomplete UTF-16 character"
  | .incompletePair => Bytes.ofString "incomplete UTF-16 surrogate pair"
  | .unexpectedLow => Bytes.ofString "unexpected low surrogate area"
  | .expectedLow => Bytes.ofString "expected low surrogate area"
  | .control => Bytes.ofString "control characters are not allowed"
  | .malformed => Bytes.ofString "unknown problem parsing YAML content"

/-- Of the control characters only the tab and the line breaks may stand in a text. -/
private def allowed (n : Nat) : Except Fault Char :=
  if n == 9 || n == 10 || n == 13 || (0x20 ≤ n && n ≤ 0x7E) || n == 0x85 ||
      (0xA0 ≤ n && n != 0xFFFE && n != 0xFFFF) then .ok (Char.ofNat n)
  else .error .control

/-- How many octets follow the first one of a sequence, and the bits of the value in it. -/
private def lead? (n : Nat) : Option (Nat × Nat) :=
  if n < 0x80 then some (0, n)
  else if n < 0xC0 then none
  else if n < 0xE0 then some (1, n - 0xC0)
  else if n < 0xF0 then some (2, n - 0xE0)
  else if n < 0xF8 then some (3, n - 0xF0)
  else none

/-- The least value that needs so many octets after the first one. -/
private def least : Nat → Nat
  | 0 => 0
  | 1 => 0x80
  | 2 => 0x800
  | _ => 0x10000

/-- The character at the front, and how many octets of `rest` belong to it. -/
private def octets (b : UInt8) (rest : Bytes) : Except Fault (Char × Nat) :=
  match lead? b.toNat with
  | none => .error .leadingOctet
  | some (width, bits) =>
    let tail := (rest.take width).map UInt8.toNat
    let value := tail.foldl (fun v n => v * 64 + n % 64) bits
    if tail.length < width then .error .incomplete
    else if tail.any fun n => n / 64 != 2 then .error .trailingOctet
    else if value < least width then .error .length
    else if (0xD800 ≤ value && value ≤ 0xDFFF) || 0x10FFFF < value then .error .noCharacter
    else (allowed value).map fun c => (c, width)

private def utf8 : List Char → Nat → Bytes → Except Fault (List Char)
  | seen, _, [] => .ok seen.reverse
  | seen, skip + 1, _ :: s => utf8 seen skip s
  | seen, 0, b :: s =>
    match octets b s with
    | .error e => .error e
    | .ok (c, width) => utf8 (c :: seen) width s

private def utf16 (unit : UInt8 → UInt8 → Nat) : List Char → Bytes → Except Fault (List Char)
  | seen, [] => .ok seen.reverse
  | _, [_] => .error .incompleteUnit
  | seen, a :: b :: s =>
    let n := unit a b
    if n / 1024 == 55 then .error .unexpectedLow
    else if n / 1024 == 54 then
      match s with
      | c :: d :: s =>
        let m := unit c d
        if m / 1024 != 55 then .error .expectedLow
        else utf16 unit (Char.ofNat (0x10000 + n % 1024 * 1024 + m % 1024) :: seen) s
      | _ => .error .incompletePair
    else match allowed n with
      | .error e => .error e
      | .ok c => utf16 unit (c :: seen) s

/-- The characters of a text. A mark of the byte order at its front is not one of them; it tells the
encoding, which is UTF-8 without it. -/
def decode : Bytes → Except Fault (List Char)
  | 0xFF :: 0xFE :: s => utf16 (fun a b => a.toNat + 256 * b.toNat) [] s
  | 0xFE :: 0xFF :: s => utf16 (fun a b => 256 * a.toNat + b.toNat) [] s
  | 0xEF :: 0xBB :: 0xBF :: s => utf8 [] 0 s
  | s => utf8 [] 0 s

/-- A character and where it stands, line and column both from one. A loose character is lost unless
it stands inside a scalar. -/
structure Cell where
  char : Char
  line : Nat
  col : Nat
  loose : Bool

abbrev Input := List Cell

def isBlank (c : Char) : Bool := c == ' ' || c == '\t'

def nextLine : Char := Char.ofNat 0x85
def lineSeparator : Char := Char.ofNat 0x2028
def paragraphSeparator : Char := Char.ofNat 0x2029
def byteOrderMark : Char := Char.ofNat 0xFEFF

/-- What ends a line, once all plain line ends are line feeds. -/
def isBreak (c : Char) : Bool := c == '\n' || c == lineSeparator || c == paragraphSeparator

/-- Places characters from a line and a column on. Carriage returns and next-line characters become
line feeds. Of the next `reach` characters, those that start a line are loose, but for the last one
of a longer text and for a line end of two characters. -/
private def place : Nat → Nat → Nat → List Char → Input
  | _, _, _, [] => []
  | reach, line, col, '\r' :: '\n' :: cs =>
    ⟨'\n', line, col, false⟩ :: place (reach - 2) (line + 1) 1 cs
  | reach, line, col, c :: cs =>
    let d := if c == '\r' || c == nextLine then '\n' else c
    ⟨d, line, col, col == 1 && reach != 0 && (line == 1 || !cs.isEmpty)⟩ ::
      (if isBreak d then place (reach - 1) (line + 1) 1 cs
       else place (reach - 1) line (col + 1) cs)

/-- How many characters fit into so many bytes. -/
private def fitting : Nat → List Char → Nat
  | _, [] => 0
  | room, c :: cs => if c.utf8Size ≤ room then fitting (room - c.utf8Size) cs + 1 else 0

/-- The characters with their places. A mark of the byte order among them, at the front, makes the
starts of lines loose in the first 512 bytes, three of which the encoding takes. -/
def cells (chars : List Char) : Input :=
  place (if chars.head? == some byteOrderMark then fitting 509 chars else 0) 1 1 chars

/-- White space or the end follows. -/
def endsWord : Input → Bool
  | [] => true
  | c :: _ => isBlank c.char || isBreak c.char

/-- A character that counts as punctuation when white space follows it. -/
def isWord (c : Char) : Input → Bool
  | d :: ds => d.char == c && endsWord ds
  | [] => false

/-- Three times the same character, alone at the start of a line. -/
private def isMark (c : Char) : Input → Bool
  | d :: e :: f :: rest =>
    d.col == 1 && !d.loose && d.char == c && e.char == c && f.char == c && endsWord rest
  | _ => false

/-- Up to where a document ends. -/
private def untilMark : Input → Input
  | [] => []
  | c :: cs => if isMark '-' (c :: cs) || isMark '.' (c :: cs) then [] else c :: untilMark cs

/-- Where a skip is: on the line of a word, at white space of a later line, in a comment, or between
comments. Comments that start a line are taken together with those on the lines after them. -/
private inductive Skipping
  | word
  | line
  | comment (starts : Bool)
  | between

/-- The cells after a skip that has lost `lost` breaks, the last of them right before this line if
`joined`. -/
private def settle (lost : Nat) (joined : Bool) (c : Cell) (cs : Input) : Input :=
  if lost == 0 then c :: cs
  else (c :: cs).map fun d =>
    if joined && d.line == c.line then ⟨d.char, d.line - lost, d.col + 1, false⟩
    else { d with line := d.line - lost }

private def isComment (i : Input) : Bool :=
  (i.dropWhile fun c => isBlank c.char || isBreak c.char).head?.any fun c => c.char == '#'

private def skipFrom : Skipping → Nat → Bool → Input → Input
  | _, _, _, [] => []
  | .comment starts, lost, joined, c :: cs =>
    if !isBreak c.char then skipFrom (.comment starts) lost joined cs
    else skipFrom (if starts && isComment cs then .between else .line) lost false cs
  | .between, lost, joined, c :: cs =>
    skipFrom (if c.char == '#' then .comment true else .between) lost joined cs
  | stage, lost, joined, c :: cs =>
    if c.loose && !joined then
      if isBreak c.char then skipFrom .line (lost + 1) true cs else skipFrom .line lost false cs
    else if isBreak c.char then skipFrom .line lost false cs
    else if isBlank c.char then skipFrom stage lost joined cs
    else if c.char == '#' then
      skipFrom (.comment (match stage with | .word => false | _ => true)) lost joined cs
    else settle lost joined c cs

/-- Past white space, breaks, comments and loose characters. When a loose break is lost, the line
after it goes on where the break stood. -/
def skip (i : Input) : Input := skipFrom .word 0 false i

def skipBlanks (i : Input) : Input := i.dropWhile fun c => isBlank c.char

/-- The first document of a text, and the line of the mark that opens it, or zero. -/
structure Document where
  opening : Nat
  body : Input

/-- A text that starts with the mark of an end has no first document. -/
def document? (chars : List Char) : Option Document :=
  let i := skip (cells chars)
  if isMark '.' i then none
  else if isMark '-' i then some ⟨(i.head?.map Cell.line).getD 0, skip (untilMark (i.drop 3))⟩
  else some ⟨0, untilMark i⟩

end SmallLisp.Yaml

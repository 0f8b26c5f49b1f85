import SmallLisp.Primitive.Arguments
import SmallLisp.Text.LetterCase

/-! Strings and names. -/
namespace SmallLisp.Textual

def str (args : List Term) : Result Term := .ok (.string (args.flatMap Term.display))

def symbol (args : List Term) : Result Term := do
  let t ← Arguments.one "symbol" args
  let s ← Arguments.name "symbol" t
  return .symbol s

/-- One colon in front of the name is not part of it. -/
def keyword (args : List Term) : Result Term := do
  let t ← Arguments.one "keyword" args
  let s ← Arguments.name "keyword" t
  return .keyword (if s.head? == some 58 then s.tail else s)

def typeOf (args : List Term) : Result Term := do
  let t ← Arguments.one "type" args
  return .keyword t.kind.name

/-- Without a separator, the pieces are the characters. -/
def split (args : List Term) : Result Term := do
  let (t, u) ← Arguments.two "split" args
  let s ← Arguments.string "split" t
  let sep ← Arguments.string "split" u
  let pieces := if sep.isEmpty then s.cutGlyphs else Bytes.cut sep s
  return .list (pieces.map fun p => .string p)

def join (args : List Term) : Result Term := do
  let (t, u) ← Arguments.two "join" args
  let ts ← Arguments.list "join" t
  let sep ← Arguments.string "join" u
  return .string (Bytes.join sep (ts.map Term.display))

/-- A function from a string to a string. -/
def map (who : String) (f : Bytes → Bytes) (args : List Term) : Result Term := do
  let t ← Arguments.one who args
  let s ← Arguments.string who t
  return .string (f s)

/-- A relation between two strings. -/
def test (who : String) (p : Bytes → Bytes → Bool) (args : List Term) : Result Term := do
  let (t, u) ← Arguments.two who args
  let s ← Arguments.string who t
  let sub ← Arguments.string who u
  return .bool (p s sub)

def length (args : List Term) : Result Term := do
  let t ← Arguments.one "length" args
  let s ← Arguments.string "length" t
  return .int (Int64.ofNat s.charCount)

/-- The first term written in a string. -/
def readString (args : List Term) : Result Term := do
  let t ← Arguments.one "read-string" args
  let s ← Arguments.string "read-string" t
  (parseFirst s).mapError .ofParse

/-- The documentation of a function, or nil if it has none. -/
def doc (args : List Term) : Result Term := do
  let text (d : Bytes) : Term := if d.isEmpty then .nil else .string d
  match ← Arguments.one "doc" args with
  | .native b => return text b.doc
  | .closure f => return text f.doc
  | t => Arguments.complain (.wrongKind (Bytes.ofString "doc") .function t.kind)

def exit (args : List Term) : Result Term :=
  match args with
  | [] => .error (.exit 0)
  | [t] => do
    let code ← Arguments.int "exit" t
    .error (.exit code)
  | args => Arguments.arity "exit" .atMostOne args

def throw (args : List Term) : Result Term := do
  let t ← Arguments.one "throw" args
  Arguments.complain (.thrown t.display)

end SmallLisp.Textual

import SmallLisp.Config.Yaml.Scalar
import SmallLisp.Config.Yaml.Tag

/-! The part of YAML that configuration files use: mappings and sequences in block and flow style,
and plain and quoted scalars. Only the first document of a text counts. -/
namespace SmallLisp.Yaml

/-- A node remembers the line it starts on. A scalar is plain or quoted. -/
inductive Node
  | scalar (line : Nat) (plain : Bool) (text : Bytes)
  | seq (line : Nat) (items : List Node)
  | map (line : Nat) (entries : List (Node × Node))

def nullAt (line : Nat) : Node := .scalar line true []

def isQuote (c : Char) : Bool := c == '"' || c == '\''

def opensFlow (c : Char) : Bool := c == '[' || c == '\x7b'

/-- A scalar, of which a plain one ends at lines indented by no more than `indent`. -/
def scalar? (flow : Bool) (indent : Nat) : Input → Option (Node × Input)
  | [] => none
  | c :: cs =>
    if isQuote c.char then (quoted? (c :: cs)).map fun (t, rest) => (.scalar c.line false t, rest)
    else (plain? flow indent (c :: cs)).map fun (t, rest) => (.scalar c.line true t, rest)

/-- A key without a mark of its own stands on one line with its colon, and not far before it. -/
def isNear (key colon : Cell) : Bool := key.line == colon.line && colon.col ≤ key.col + 1024

mutual

/-- A node in flow style. -/
def flowNode : Nat → Input → Option (Node × Input)
  | 0, _ => none
  | fuel + 1, i =>
    match skip i with
    | [] => none
    | c :: cs =>
      if c.char == '[' then flowSeq fuel c.line [] cs
      else if c.char == '\x7b' then flowMap fuel c.line [] cs
      else scalar? true 0 (c :: cs)

/-- The elements of a sequence after its opening bracket. -/
def flowSeq : Nat → Nat → List Node → Input → Option (Node × Input)
  | 0, _, _, _ => none
  | fuel + 1, line, items, i =>
    match skip i with
    | [] => none
    | c :: cs =>
      if c.char == ']' then some (.seq line items.reverse, cs)
      else do
        let (item, rest) ← if c.char == '?' then flowEntry fuel c.line cs else flowItem fuel c cs
        match skip rest with
        | d :: ds =>
          if d.char == ',' then flowSeq fuel line (item :: items) ds
          else if d.char == ']' then some (.seq line (item :: items).reverse, ds)
          else none
        | [] => none

/-- An element of a sequence. If a colon follows it, it is a mapping of one entry. -/
def flowItem : Nat → Cell → Input → Option (Node × Input)
  | 0, _, _ => none
  | fuel + 1, c, cs => do
    let (key, rest) ← flowNode fuel (c :: cs)
    match skip rest with
    | d :: _ =>
      if d.char != ':' then some (key, rest)
      else if isNear c d then
        let (value, rest) ← flowValue fuel rest
        return (.map c.line [(key, value)], rest)
      else none
    | [] => some (key, rest)

/-- An element of a sequence after the mark of a key: a mapping of one entry. In place of a missing
key one mark is taken. -/
def flowEntry : Nat → Nat → Input → Option (Node × Input)
  | 0, _, _ => none
  | fuel + 1, line, i => do
    let (key, rest) ←
      match skip i with
      | d :: ds =>
        if d.char == ':' || d.char == ',' || d.char == ']' then some (nullAt d.line, ds)
        else flowNode fuel (d :: ds)
      | [] => none
    let (value, rest) ← flowValue fuel rest
    return (.map line [(key, value)], rest)

/-- The value of a key, after a colon. Both may be missing. -/
def flowValue : Nat → Input → Option (Node × Input)
  | 0, _ => none
  | fuel + 1, i =>
    match skip i with
    | [] => none
    | c :: cs =>
      if c.char != ':' then some (nullAt c.line, c :: cs)
      else match skip cs with
        | [] => none
        | d :: ds =>
          if d.char == ',' || d.char == '\x7d' || d.char == ']' then some (nullAt d.line, d :: ds)
          else flowNode fuel (d :: ds)

/-- A key of a mapping, and what follows it up to its colon. -/
def flowKey : Nat → Cell → Input → Option (Node × Input)
  | 0, _, _ => none
  | fuel + 1, c, cs =>
    if c.char == '?' then
      match skip cs with
      | d :: ds =>
        if d.char == ':' || d.char == ',' || d.char == '\x7d' then some (nullAt d.line, d :: ds)
        else flowNode fuel (d :: ds)
      | [] => none
    else do
      let (key, rest) ← flowNode fuel (c :: cs)
      match skip rest with
      | d :: _ => if d.char == ':' && !isNear c d then none else some (key, rest)
      | [] => none

/-- The entries of a mapping after its opening bracket. -/
def flowMap : Nat → Nat → List (Node × Node) → Input → Option (Node × Input)
  | 0, _, _, _ => none
  | fuel + 1, line, entries, i =>
    match skip i with
    | [] => none
    | c :: cs =>
      if c.char == '\x7d' then some (.map line entries.reverse, cs)
      else do
        let (key, rest) ← flowKey fuel c cs
        let (value, rest) ← flowValue fuel rest
        match skip rest with
        | d :: ds =>
          if d.char == ',' then flowMap fuel line ((key, value) :: entries) ds
          else if d.char == '\x7d' then some (.map line ((key, value) :: entries).reverse, ds)
          else none
        | [] => none

end

/-- A value that is no block collection. -/
def inlineNode (indent : Nat) (i : Input) : Option (Node × Input) :=
  match i with
  | c :: _ => if opensFlow c.char then flowNode (3 * i.length + 3) i else scalar? false indent i
  | [] => none

/-- A key and its colon; gives what follows the colon. -/
def key? (i : Input) : Option (Node × Input) :=
  (inlineNode 0 i).bind fun (node, rest) =>
    match i, skipBlanks rest with
    | c :: _, d :: ds =>
      if d.char == ':' && endsWord ds && isNear c d then some (node, ds) else none
    | _, _ => none

/-- Whether the keys of a mapping in block style start here: one that a question mark announces, or
one with its colon. -/
def startsEntry (i : Input) : Bool := isWord '?' i || (key? i).isSome

mutual

/-- A node of which every line is indented by more than `indent` columns. -/
def blockNode : Nat → Nat → Input → Option (Node × Input)
  | 0, _, _ => none
  | fuel + 1, indent, i =>
    match skip i with
    | [] => some (nullAt 0, [])
    | c :: cs =>
      if c.col ≤ indent then some (nullAt c.line, c :: cs)
      else if isWord '-' (c :: cs) then blockSeq fuel c.col c.line [] (c :: cs)
      else if startsEntry (c :: cs) then blockMap fuel c.col c.line [] (c :: cs)
      else inlineNode indent (c :: cs)

/-- The entries of a sequence whose dashes stand in one column. -/
def blockSeq : Nat → Nat → Nat → List Node → Input → Option (Node × Input)
  | 0, _, _, _, _ => none
  | fuel + 1, col, line, items, i =>
    match skip i with
    | c :: cs =>
      if c.col == col && isWord '-' (c :: cs) then do
        let (item, rest) ← blockNode fuel col cs
        blockSeq fuel col line (item :: items) rest
      else some (.seq line items.reverse, c :: cs)
    | [] => some (.seq line items.reverse, [])

/-- What belongs to an entry of a mapping. The dashes of a sequence may stand in the column of the
key. -/
def nested : Nat → Nat → Input → Option (Node × Input)
  | 0, _, _ => none
  | fuel + 1, col, i =>
    match skip i with
    | c :: cs =>
      if c.col == col && isWord '-' (c :: cs) then blockSeq fuel col c.line [] (c :: cs)
      else blockNode fuel col (c :: cs)
    | [] => some (nullAt 0, [])

/-- An entry of a mapping. After an announced key, the colon starts a line of its own. -/
def blockEntry : Nat → Nat → Cell → Input → Option ((Node × Node) × Input)
  | 0, _, _, _ => none
  | fuel + 1, col, c, cs =>
    if isWord '?' (c :: cs) then do
      let (key, rest) ← nested fuel col cs
      let (value, rest) ←
        match skip rest with
        | d :: ds =>
          if d.col == col && isWord ':' (d :: ds) then nested fuel col ds
          else some (nullAt d.line, d :: ds)
        | [] => some (nullAt c.line, [])
      return ((key, value), rest)
    else do
      let (key, rest) ← key? (c :: cs)
      let (value, rest) ←
        match skip rest with
        | v :: vs =>
          if v.line == c.line then inlineNode col (v :: vs) else nested fuel col (v :: vs)
        | [] => some (nullAt c.line, [])
      return ((key, value), rest)

/-- The entries of a mapping whose keys start in one column. -/
def blockMap : Nat → Nat → Nat → List (Node × Node) → Input → Option (Node × Input)
  | 0, _, _, _, _ => none
  | fuel + 1, col, line, entries, i =>
    match skip i with
    | c :: cs =>
      if c.col == col then do
        let (entry, rest) ← blockEntry fuel col c cs
        blockMap fuel col line (entry :: entries) rest
      else if c.col < col then some (.map line entries.reverse, c :: cs)
      else none
    | [] => some (.map line entries.reverse, [])

end

/-- Punctuation of block style. -/
private def isIndicator (i : Input) : Bool := isWord ':' i || isWord '-' i || isWord '?' i

/-- The node of a document that starts with `c`. A block collection goes on to a line that is
indented less, and any other node must not be followed by punctuation on its line. The rest is not
looked at. -/
private def root (opening : Nat) (c : Cell) (cs : Input) : Option Node :=
  let i := c :: cs
  if c.line != opening && (isWord '-' i || startsEntry i) then
    (blockNode (3 * i.length + 3) 0 i).bind fun (node, rest) =>
      if (skip rest).head?.all fun d => d.col < c.col then some node else none
  else
    (inlineNode 0 i).bind fun (node, rest) =>
      if isIndicator (skipBlanks rest) then none else some node

/-- The node of the first document; a text without one gives null. Anything outside of the notation
described here is refused. -/
def parse (text : Bytes) : Except Fault Node := do
  let chars ← decode text
  match document? chars with
  | none => .error .malformed
  | some d =>
    match d.body with
    | [] => .ok (nullAt 0)
    | c :: cs =>
      match root d.opening c cs with
      | some node => .ok node
      | none => .error .malformed

end SmallLisp.Yaml

import SmallLisp.Config.Yaml.Timestamp

/-! What a plain scalar is taken for, by its text alone. -/
namespace SmallLisp.Yaml

inductive Tag
  | null
  | bool (b : Bool)
  | int
  | float
  | timestamp
  | merge
  | str
deriving DecidableEq

def Tag.name : Tag → Bytes
  | .null => Bytes.ofString "!!null"
  | .bool _ => Bytes.ofString "!!bool"
  | .int => Bytes.ofString "!!int"
  | .float => Bytes.ofString "!!float"
  | .timestamp => Bytes.ofString "!!timestamp"
  | .merge => Bytes.ofString "!!merge"
  | .str => Bytes.ofString "!!str"

private def oneOf (words : List String) (s : Bytes) : Bool :=
  words.any fun w => Bytes.ofString w == s

private def digitsIn (base : Nat) : Nat → Bytes → Option Nat
  | n, [] => some n
  | n, b :: s =>
    (Literal.digit? 16 b).bind fun d => if d < base then digitsIn base (base * n + d) s else none

private def within (base : Nat) (s : Bytes) : Option Nat :=
  if s.isEmpty then none else digitsIn base 0 s

/-- A whole number after its sign, in the base that its first characters name. -/
private def magnitude? (s : Bytes) : Option Nat :=
  match s with
  | 48 :: b :: rest =>
    if b == 120 || b == 88 then within 16 rest
    else if b == 98 || b == 66 then within 2 rest
    else if b == 111 || b == 79 then within 8 rest
    else within 8 (b :: rest)
  | s => within 10 s

/-- A number after a sign fits into 64 bits with it. -/
private def fitsSigned (negative : Bool) (n : Nat) : Bool :=
  if negative then n ≤ Nat.pow 2 63 else n < Nat.pow 2 63

/-- A sign may also stand between the mark of base 2 or 8 and the digits. -/
private def isSignedInside (s : Bytes) : Bool :=
  match s with
  | 48 :: b :: rest =>
    let (negative, digits) := Literal.sign rest
    (b == 98 || b == 111) && (within (if b == 98 then 2 else 8) digits).any (fitsSigned negative)
  | _ => false

private def isInt (s : Bytes) : Bool :=
  let (negative, body) := Literal.sign s
  let whole :=
    (magnitude? body).any fun n =>
      if body.length == s.length then n < Nat.pow 2 64 else fitsSigned negative n
  whole || isSignedInside s

private def isDigit (b : UInt8) : Bool := (Literal.digit? 10 b).isSome

/-- Digits, perhaps with a point, and perhaps an exponent. -/
private def isDecimal (s : Bytes) : Bool :=
  let body := (Literal.sign s).2
  let whole := body.takeWhile isDigit
  let rest := body.drop whole.length
  let (fraction, rest) : Bytes × Bytes :=
    match rest with
    | 46 :: rest => (rest.takeWhile isDigit, rest.dropWhile isDigit)
    | rest => ([], rest)
  let exponentOk := match rest with
    | [] => true
    | b :: rest =>
      let digits := (Literal.sign rest).2
      (b == 101 || b == 69) && !digits.isEmpty && digits.all isDigit
  !(whole.isEmpty && fraction.isEmpty) && exponentOk

/-- The tag of a plain scalar. -/
def tagOf (s : Bytes) : Tag :=
  if oneOf ["", "~", "null", "Null", "NULL"] s then .null
  else if oneOf ["true", "True", "TRUE"] s then .bool true
  else if oneOf ["false", "False", "FALSE"] s then .bool false
  else if oneOf [".nan", ".NaN", ".NAN", ".inf", ".Inf", ".INF", "+.inf", "+.Inf", "+.INF",
      "-.inf", "-.Inf", "-.INF"] s then .float
  else if oneOf ["<<"] s then .merge
  else
    let digits := s.filter (· != 95)
    match s with
    | 46 :: _ => if (Literal.float? s).isSome then .float else .str
    | b :: _ =>
      if b == 43 || b == 45 || isDigit b then
        if Timestamp.denotes s then .timestamp
        else if isInt digits then .int
        else if isDecimal digits && (Literal.float? digits).isSome then .float
        else .str
      else .str
    | [] => .null

end SmallLisp.Yaml

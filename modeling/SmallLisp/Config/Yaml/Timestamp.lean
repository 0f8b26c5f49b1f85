import SmallLisp.Number.Literal

/-! The texts that denote a point in time: a date such as `2001-12-14`, alone or with a time. The
time follows a `T` and ends in a zone, or it follows blanks and has none. -/
namespace SmallLisp.Timestamp

/-- Two digits, or one if no other digit follows. -/
private def number? : Bytes → Option (Nat × Bytes)
  | [] => none
  | a :: s =>
    (Literal.digit? 10 a).map fun m =>
      match s with
      | b :: rest =>
        match Literal.digit? 10 b with
        | some n => (10 * m + n, rest)
        | none => (m, s)
      | [] => (m, s)

private def below? (limit : Nat) (s : Bytes) : Option Bytes :=
  (number? s).bind fun (n, rest) => if n < limit then some rest else none

private def byte? (b : UInt8) : Bytes → Option Bytes
  | c :: s => if c == b then some s else none
  | [] => none

private def isLeap (year : Nat) : Bool := year % 4 == 0 && (year % 100 != 0 || year % 400 == 0)

def daysIn (year month : Nat) : Nat :=
  if month == 2 then if isLeap year then 29 else 28
  else if month == 4 || month == 6 || month == 9 || month == 11 then 30
  else 31

/-- Past a year of four digits, a month and a day. -/
private def date? (s : Bytes) : Option Bytes := do
  let year ← if (s.take 4).length == 4 then Literal.whole? (s.take 4) else none
  let (month, s) ← (byte? 45 (s.drop 4)).bind number?
  let (day, s) ← (byte? 45 s).bind number?
  if 1 ≤ month && month ≤ 12 && 1 ≤ day && day ≤ daysIn year month then some s else none

/-- Past a fraction of a second, if there is one. -/
private def fraction : Bytes → Bytes
  | b :: d :: s =>
    if (b == 46 || b == 44) && (Literal.digit? 10 d).isSome then
      s.dropWhile fun c => (Literal.digit? 10 c).isSome
    else b :: d :: s
  | s => s

/-- Past hours, minutes and seconds. -/
private def time? (s : Bytes) : Option Bytes := do
  let s ← (below? 24 s).bind (byte? 58)
  let s ← (below? 60 s).bind (byte? 58)
  let s ← below? 60 s
  return fraction s

/-- Coordinated time, or the hours and minutes from it. -/
private def isZone : Bytes → Bool
  | [90] => true
  | [sign, h, h', 58, m, m'] =>
    (sign == 43 || sign == 45) &&
      (match Literal.whole? [h, h'], Literal.whole? [m, m'] with
       | some hours, some minutes => hours ≤ 24 && minutes ≤ 60
       | _, _ => false)
  | _ => false

/-- Whether a text denotes a point in time. -/
def denotes (s : Bytes) : Bool :=
  match date? s with
  | none => false
  | some [] => true
  | some (b :: rest) =>
    if b == 84 || b == 116 then (time? rest).any isZone
    else b == 32 && (time? (rest.dropWhile (· == 32))).any List.isEmpty

end SmallLisp.Timestamp

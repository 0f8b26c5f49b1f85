import SmallLisp.Text.Bytes
import SmallLisp.Number.Scaled

/-! The texts that denote numbers. A whole number is a sign and decimal digits, within 64 bits. A
float is a decimal or base 16 fraction with an optional exponent, which base 16 demands; digits
may be separated by single underscores. A float too large to represent is no number, one too small
is a zero. -/
namespace SmallLisp.Literal

/-- The value of a digit of base 10 or 16. -/
def digit? (base : Nat) (b : UInt8) : Option Nat :=
  let n := b.toNat
  if 48 ≤ n && n ≤ 57 then some (n - 48)
  else if base == 16 && 97 ≤ n && n ≤ 102 then some (n - 87)
  else if base == 16 && 65 ≤ n && n ≤ 70 then some (n - 55)
  else none

/-- A leading sign, true for minus, and what follows it. -/
def sign : Bytes → Bool × Bytes
  | 43 :: s => (false, s)
  | 45 :: s => (true, s)
  | s => (false, s)

private def wholeFrom : Nat → Bytes → Option Nat
  | n, [] => some n
  | n, b :: s => (digit? 10 b).bind fun d => wholeFrom (10 * n + d) s

/-- The number that one or more decimal digits denote. -/
def whole? (s : Bytes) : Option Nat := if s.isEmpty then none else wholeFrom 0 s

theorem digit?_ofNat {n : Nat} (h : 48 ≤ n ∧ n ≤ 57) :
    digit? 10 (UInt8.ofNat n) = some (n - 48) := by
  have hn : n % 256 = n := Nat.mod_eq_of_lt (by omega)
  simp [digit?, hn, h]

private theorem wholeFrom_ofChars {cs : List Char} (h : ∀ c ∈ cs, c.isDigit = true) (n : Nat) :
    wholeFrom n (Bytes.ofChars cs) = some (Nat.ofDigitChars 10 cs n) := by
  induction cs generalizing n with
  | nil => rfl
  | cons c cs ih =>
    have hc : 48 ≤ c.toNat ∧ c.toNat ≤ 57 := by
      simpa [Char.isDigit_iff_toNat] using h c List.mem_cons_self
    have hcs := ih (fun c hc => h c (List.mem_cons_of_mem _ hc)) (10 * n + (c.toNat - 48))
    rw [Bytes.ofChars_cons_ascii (by omega), Nat.ofDigitChars_cons, wholeFrom, digit?_ofNat hc]
    exact hcs

/-- The digits of a number denote it. -/
theorem whole?_ofNat (n : Nat) : whole? (Bytes.ofNat n) = some n := by
  have hw := wholeFrom_ofChars (fun c => Nat.isDigit_of_mem_toDigits (b := 10) (n := n)
    (by decide) (by decide)) 0
  rw [Nat.ofDigitChars_ten_toDigits] at hw
  rw [whole?, if_neg (by simp [Bytes.ofNat_ne_nil]), Bytes.ofNat, hw]

/-- A 64-bit whole number. -/
def int? (s : Bytes) : Option Int64 :=
  let (negative, s) := sign s
  (whole? s).bind fun n =>
    if negative then if n ≤ Nat.pow 2 63 then some (Int64.ofInt (-n)) else none
    else if n < Nat.pow 2 63 then some (Int64.ofInt n) else none

/-- The digits before an exponent: their value, how many stand after the point, and whether there
was a point, a digit, an underscore. -/
structure Mantissa where
  value : Nat := 0
  places : Nat := 0
  point : Bool := false
  nonempty : Bool := false
  underscore : Bool := false

/-- Reads digits, underscores and at most one point. -/
def mantissa (base : Nat) : Mantissa → Bytes → Mantissa × Bytes
  | m, [] => (m, [])
  | m, b :: s =>
    if b == 95 then mantissa base { m with underscore := true } s
    else if b == 46 then
      if m.point then (m, b :: s) else mantissa base { m with point := true } s
    else match digit? base b with
      | some d =>
        mantissa base { m with
          value := m.value * base + d
          places := if m.point then m.places + 1 else m.places
          nonempty := true } s
      | none => (m, b :: s)

/-- The digits of an exponent. Beyond five digits its size no longer matters. -/
def exponentDigits : Nat → Bool → Bytes → Nat × Bool × Bytes
  | e, u, [] => (e, u, [])
  | e, u, b :: s =>
    if b == 95 then exponentDigits e true s
    else match digit? 10 b with
      | some d => exponentDigits (if e < 10000 then 10 * e + d else e) u s
      | none => (e, u, b :: s)

/-- The exponent after its mark, whether it has underscores, and the rest. -/
def exponent? (s : Bytes) : Option (Int × Bool × Bytes) :=
  let (negative, s) := sign s
  match s with
  | b :: _ =>
    if (digit? 10 b).isSome then
      let (e, u, rest) := exponentDigits 0 false s
      some (if negative then -(e : Int) else e, u, rest)
    else none
  | [] => none

/-- What stood last when underscores are checked. -/
inductive Last
  | start
  | digit
  | underscore
  | sign
deriving DecidableEq

private def separatedFrom (base : Nat) : Last → Bytes → Bool
  | last, [] => last != .underscore
  | last, b :: s =>
    if (digit? base b).isSome then separatedFrom base .digit s
    else if b == 95 then last == .digit && separatedFrom base .underscore s
    else last != .underscore && separatedFrom base .sign s

private def lower (b : UInt8) : UInt8 := if 65 ≤ b && b ≤ 90 then b + 32 else b

/-- Underscores stand only between digits, the mark of a base counting as one. -/
def separated (s : Bytes) : Bool :=
  match (sign s).2 with
  | 48 :: b :: s =>
    if lower b == 120 then separatedFrom 16 .digit s
    else if lower b == 98 || lower b == 111 then separatedFrom 10 .digit s
    else separatedFrom 10 .start (48 :: b :: s)
  | s => separatedFrom 10 .start s

/-- The float `m · base^-places · (2 or 10)^e`, if it is not too large. -/
def assemble (negative hex : Bool) (m : Mantissa) (e : Int) : Option Float :=
  let radix := if hex then 2 else 10
  let e := e - (if hex then 4 * m.places else m.places)
  let num := m.value * Nat.pow radix e.toNat * Scaled.one
  let den := Nat.pow radix (-e).toNat
  if m.value != 0 && Scaled.infinityBits ≤ Scaled.nearestBits num den then none
  else some (Scaled.nearest negative num den)

/-- A float in the notation described above. -/
def float? (s : Bytes) : Option Float :=
  let (negative, body) := sign s
  let (hex, body) : Bool × Bytes :=
    match body with
    | 48 :: b :: c :: rest => if lower b == 120 then (true, c :: rest) else (false, body)
    | _ => (false, body)
  let (m, rest) := mantissa (if hex then 16 else 10) {} body
  if !m.nonempty then none
  else
    let tail : Option (Int × Bool × Bytes) :=
      match rest with
      | b :: rest =>
        if lower b == (if hex then 112 else 101) then exponent? rest
        else none
      | [] => if hex then none else some (0, false, [])
    tail.bind fun (e, u, rest) =>
      if !rest.isEmpty || ((m.underscore || u) && !separated s) then none
      else assemble negative hex m e

/-- What the text of a number denotes. -/
inductive Numeral
  | int (n : Int64)
  | float (x : Float)
deriving DecidableEq

/-- A point makes the difference between a float and a whole number. -/
def number? (s : Bytes) : Option Numeral :=
  if s.contains 46 then (float? s).map .float else (int? s).map .int

theorem digit?_eq_none {b : UInt8} (hb : 0x80 ≤ b.toNat) : digit? 10 b = none := by
  unfold digit?
  rw [if_neg (by simp; omega), if_neg (by simp), if_neg (by simp)]

/-- A text that goes on beyond ASCII after its sign denotes no number. -/
theorem number?_eq_none {s t : Bytes} {b : UInt8} (hs : (sign s).2 = b :: t)
    (hb : 0x80 ≤ b.toNat) : number? s = none := by
  have hne : ∀ x : UInt8, x.toNat < 0x80 → b ≠ x := fun _ => Bytes.ne_of_high hb
  have hd := digit?_eq_none hb
  have hint : int? s = none := by
    simp [int?, hs, whole?, wholeFrom, hd]
  have hfloat : float? s = none := by
    simp [float?, hs, mantissa, hd, hne 95 (by decide), hne 46 (by decide),
      hne 48 (by decide)]
  rw [number?, hint, hfloat]
  simp

end SmallLisp.Literal

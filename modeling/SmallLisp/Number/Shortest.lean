import SmallLisp.Text.Bytes
import SmallLisp.Number.Scaled

/-! How a float is written: with the fewest digits that read back as the same float, in plain
positional notation. Of several such decimals of one length the nearest is taken, and of two
equally near the one that ends in an even digit. -/
namespace SmallLisp.Shortest

/-- A decimal `digits · 10^exponent`. -/
structure Decimal where
  digits : Nat
  exponent : Int

/-- The number `p` with 10^(p-1) ≤ num / den < 10^p, for a positive ratio. -/
def magnitude (num den : Nat) : Int :=
  if den ≤ num then (Nat.toDigits 10 (num / den)).length
  else
    let l := (Nat.toDigits 10 (den / num)).length
    if den ≤ num * Nat.pow 10 (l - 1) then 2 - (l : Int) else 1 - (l : Int)

/-- The positive value of `n` units and the decimals that round to it: all from `low` to `high`,
counted in quarter units, with the ends if `closed`. -/
structure Interval where
  low : Nat
  centre : Nat
  high : Nat
  closed : Bool

/-- The gap to the next float below is only half as wide at a power of two. -/
def interval (n : Nat) : Interval :=
  let shift := n.log2 - 52
  let gap := Nat.pow 2 shift
  let narrow := n == Nat.pow 2 52 * gap && shift != 0
  { low := 4 * n - (if narrow then gap else 2 * gap)
    centre := 4 * n
    high := 4 * n + 2 * gap
    closed := n / gap % 2 == 0 }

def Interval.contains (i : Interval) (num den : Nat) : Bool :=
  if i.closed then i.low * den ≤ num && num ≤ i.high * den
  else i.low * den < num && num < i.high * den

/-- The best decimal in the interval with `count` digits, for a value of magnitude `p`. -/
def atLength (i : Interval) (p : Int) (count : Nat) : Option Decimal :=
  let e := p - count
  let num := 4 * Scaled.one * Nat.pow 10 e.toNat
  let den := Nat.pow 10 (-e).toNat
  let d := i.centre * den / num
  let below := i.contains (d * num) den
  let above := i.contains ((d + 1) * num) den
  let gapBelow := i.centre * den - d * num
  let gapAbove := (d + 1) * num - i.centre * den
  let takeAbove := above && (!below || gapAbove < gapBelow || (gapAbove == gapBelow && d % 2 == 1))
  if takeAbove then some ⟨d + 1, e⟩ else if below then some ⟨d, e⟩ else none

/-- Seventeen digits always suffice. -/
def ofUnits (n : Nat) : Decimal :=
  let p := magnitude n Scaled.one
  ((List.range 17).findSome? fun k => atLength (interval n) p (k + 1)).getD ⟨0, 0⟩

private def dropZeros : Nat → Decimal → Decimal
  | 0, d => d
  | k + 1, d => if d.digits % 10 == 0 then dropZeros k ⟨d.digits / 10, d.exponent + 1⟩ else d

private def zeros (n : Nat) : Bytes := List.replicate n 48

/-- Positional notation with at least one digit on both sides of the point. -/
def Decimal.render (d : Decimal) : Bytes :=
  let d := dropZeros 20 d
  let ds := Bytes.ofNat d.digits
  let places := (-d.exponent).toNat
  if places == 0 then ds ++ zeros d.exponent.toNat ++ Bytes.ofString ".0"
  else if places < ds.length then
    ds.take (ds.length - places) ++ 46 :: ds.drop (ds.length - places)
  else Bytes.ofString "0." ++ zeros (places - ds.length) ++ ds

/-- The text of a float. -/
def render (x : Float) : Bytes :=
  if x.isNaN then Bytes.ofString "NaN"
  else
    let sign := Scaled.isNegative x
    if x.isInf then Bytes.ofString (if sign then "-Inf" else "+Inf")
    else
      let n := (Scaled.units x).natAbs
      let body := if n == 0 then Bytes.ofString "0.0" else (ofUnits n).render
      if sign then 45 :: body else body

end SmallLisp.Shortest

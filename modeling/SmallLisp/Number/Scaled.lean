/-! The exact value of a float. Every finite float is a whole number of units of 2^-1074, the least
positive float, so that order, rounding to whole numbers and remainders are integer arithmetic.
Going back, `nearest` rounds a ratio of units to the nearest float, a tie to the even one. -/
namespace SmallLisp.Scaled

/-- How many units make one. -/
def one : Nat := Nat.pow 2 1074

/-- The units of the float with these bits, without its sign. An infinity comes out as the value
that would follow the largest finite one. -/
def magnitude (bits : Nat) : Nat :=
  let exponent := bits / Nat.pow 2 52 % 2048
  let fraction := bits % Nat.pow 2 52
  if exponent = 0 then fraction else (Nat.pow 2 52 + fraction) * Nat.pow 2 (exponent - 1)

def isNegative (x : Float) : Bool := Nat.pow 2 63 ≤ x.toBits.toNat

/-- The value in units; an infinity lies beyond all finite values. -/
def units (x : Float) : Int :=
  let m : Int := magnitude x.toBits.toNat
  if isNegative x then -m else m

/-- As `units`, but nothing for what is no number. -/
def units? (x : Float) : Option Int := if x.isNaN then none else some (units x)

/-- Smaller in value; false when one side is no number. -/
def less (x y : Float) : Bool :=
  match units? x, units? y with
  | some a, some b => a < b
  | _, _ => false

/-- Equal in value; false when one side is no number. Both zeros are equal. -/
def same (x y : Float) : Bool :=
  match units? x, units? y with
  | some a, some b => a == b
  | _, _ => false

def infinityBits : Nat := 2047 * Nat.pow 2 52

/-- The bits of the float nearest to `num / den` units. From `infinityBits` on, the value is too
large for a float. -/
def nearestBits (num den : Nat) : Nat :=
  let shift := (num / den).log2 - 52
  let step := den * Nat.pow 2 shift
  let q := num / step
  let r := num % step
  let up := step < 2 * r || (2 * r == step && q % 2 == 1)
  shift * Nat.pow 2 52 + q + (if up then 1 else 0)

/-- The float nearest to `num / den` units, or an infinity. -/
def nearest (negative : Bool) (num den : Nat) : Float :=
  let bits := min (nearestBits num den) infinityBits
  Float.ofBits (UInt64.ofNat (if negative then Nat.pow 2 63 + bits else bits))

def ofInt (n : Int) : Float := nearest (n < 0) (n.natAbs * one) 1

def isIntegral (x : Float) : Bool := x.isFinite && units x % one == 0

/-- The whole part of a float that is integral. -/
def toInt (x : Float) : Int := units x / one

/-- The largest whole number that is not above `x`. A zero keeps its sign. -/
def floor (x : Float) : Float :=
  if !x.isFinite || isIntegral x then x else ofInt (units x / one)

/-- The smallest whole number that is not below `x`. -/
def ceil (x : Float) : Float := -(floor (-x))

/-- What remains of `x` after taking away `y` a whole number of times towards zero. It has the
sign of `x`. -/
def remainder (x y : Float) : Float :=
  if !x.isFinite || y.isNaN || units y == 0 then 0.0 / 0.0
  else if !y.isFinite then x
  else nearest (isNegative x) ((units x).natAbs % (units y).natAbs) 1

/-- The product plus `z`, rounded once. For finite arguments. -/
def mulAdd (x y z : Float) : Float :=
  let exact := units x * units y + units z * one
  nearest (exact < 0) exact.natAbs one

/-- The value times 2^e, rounded once. -/
def scaleBy (x : Float) (e : Int) : Float :=
  if !x.isFinite || units x == 0 then x
  else nearest (isNegative x) ((units x).natAbs * Nat.pow 2 e.toNat) (Nat.pow 2 (-e).toNat)

/-- A fraction `f` with 1/2 ≤ |f| < 1 and an exponent `e` such that the value is f · 2^e. -/
def fraction (x : Float) : Float × Int :=
  if !x.isFinite || units x == 0 then (x, 0)
  else
    let e : Int := (units x).natAbs.log2 + 1 - 1074
    (scaleBy x (-e), e)

/-- A fraction from 1/2 to 1 and an exponent, read straight off the bits of a positive finite float.
The leading one that the bits leave out is always supplied: for a normal float this is `fraction`,
and a smaller one counts for the value that its bits would have in the least normal binade. -/
def bitFraction (x : Float) : Float × Int :=
  let bits := x.toBits.toNat
  (Float.ofBits (UInt64.ofNat (1022 * Nat.pow 2 52 + bits % Nat.pow 2 52)),
    (bits / Nat.pow 2 52 % 2048 : Nat) - 1022)

end SmallLisp.Scaled

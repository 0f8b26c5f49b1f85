import SmallLisp.Number.Scaled

/-! Powers. For whole numbers `int?` squares repeatedly and gives up when a product leaves the 64
bits. For floats `float` multiplies by squares of the base, kept as a fraction and an exponent of
two so that nothing overflows early, and takes only a fractional exponent through `exp` and
`log`. -/
namespace SmallLisp.Power

/-- The product, unless it does not fit. -/
def mul? (a b : Int64) : Option Int64 :=
  if a == 0 || b == 0 then some 0
  else if (a == -1 && b == Int64.minValue) || (b == -1 && a == Int64.minValue) then none
  else
    let c := a * b
    if c / b == a then some c else none

/-- `r` times the `y`-th power of `x`, by squaring; `y` is below 2^fuel. The base is squared ahead of
its use, but only while some of the exponent is left. -/
def intFrom : Nat → Int64 → Int64 → Nat → Option Int64
  | 0, r, _, _ => some r
  | fuel + 1, r, x, y =>
    if y == 0 then some r
    else
      (if y % 2 == 1 then mul? r x else some r).bind fun r =>
        if y / 2 == 0 then some r
        else (mul? x x).bind fun x => intFrom fuel r x (y / 2)

/-- `x` to the power `y`, unless the result does not fit. An exponent of 64 bits is halved at most
64 times. -/
def int? (x : Int64) (y : Nat) : Option Int64 := intFrom 64 1 x y

/-- The natural logarithm of a positive finite float: of 2^k · (1 + f), with 1 + f above √2/2 and at
most √2, through an odd polynomial in f / (2 + f). The fraction is read off the bits, so that the
result is a logarithm only from the least normal float up. -/
def log (x : Float) : Float :=
  let (g, e) := Scaled.bitFraction x
  let (g, e) := if Scaled.less 0.70710678118654752440 g then (g, e) else (g * 2.0, e - 1)
  let f := g - 1.0
  let k := Scaled.ofInt e
  let s := f / (2.0 + f)
  let s2 := s * s
  let s4 := s2 * s2
  let t1 := s2 * (6.666666666666735130e-01 + s4 * (2.857142874366239149e-01 +
    s4 * (1.818357216161805012e-01 + s4 * 1.479819860511658591e-01)))
  let t2 := s4 * (3.999999999940941908e-01 + s4 * (2.222219843214978396e-01 +
    s4 * 1.531383769920937332e-01))
  let r := t1 + t2
  let h := 0.5 * f * f
  k * 6.93147180369123816490e-01 - ((h - (s * (h + r) + k * 1.90821492927058770002e-10)) - f)

/-- The whole number nearest to `x`, a tie to the even one. -/
private def round (x : Float) : Int :=
  let n := Scaled.units x
  let q := n / Scaled.one
  let r := 2 * (n % Scaled.one)
  if r < Scaled.one || (r == Scaled.one && q % 2 == 0) then q else q + 1

/-- The exponential of a float of moderate size. With k the multiple of ln 2 nearest to `x`, the
rest is divided by 16, e^r - 1 is summed as a series, and e^2r - 1 = (e^r - 1)(e^r + 1) is applied
four times. -/
def exp (x : Float) : Float :=
  let k := round (x * 1.4426950408889634073599246810018920)
  let n := Scaled.ofInt k
  let r := Scaled.mulAdd (-0.69314718055966295651160180568695068359375) n x
  let r := Scaled.mulAdd (-0.28235290563031577122588448175013436025525412068e-12) n r
  let r := r * 0.0625
  let coefficients : List Float :=
    [1.9841269841269841270e-4, 1.3888888888888888889e-3, 8.3333333333333333333e-3,
     4.1666666666666666667e-2, 1.6666666666666666667e-1, 0.5, 1.0]
  let series := coefficients.foldl (fun y c => Scaled.mulAdd y r c) 2.4801587301587301587e-5
  let d := r * series
  let d := d * (d + 2.0)
  let d := d * (d + 2.0)
  let d := d * (d + 2.0)
  Scaled.scaleBy (Scaled.mulAdd d (d + 2.0) 1.0) k

private def isOdd (x : Float) : Bool := Scaled.isIntegral x && Scaled.toInt x % 2 == 1

/-- `a · 2^ae` times the `i`-th power of `x · 2^xe`, by squaring. -/
private def squares : Nat → Nat → Float → Int → Float → Int → Float × Int
  | 0, _, a, ae, _, _ => (a, ae)
  | fuel + 1, i, a, ae, x, xe =>
    if i == 0 then (a, ae)
    else if xe < -4096 || 4096 < xe then (a, ae + xe)
    else
      let (a, ae) := if i % 2 == 1 then (a * x, ae + xe) else (a, ae)
      let x := x * x
      let xe := 2 * xe
      let (x, xe) := if Scaled.less x 0.5 then (x + x, xe - 1) else (x, xe)
      squares fuel (i / 2) a ae x xe

/-- `x` to the power `y` for finite `y` other than zero and one, and finite `x` other than zero. -/
private def finite (x y : Float) : Float :=
  let ay := y.abs
  let whole := Scaled.units ay / Scaled.one
  let part := ay - Scaled.ofInt whole
  if Scaled.units part != 0 && Scaled.isNegative x then 0.0 / 0.0
  else if Nat.pow 2 63 ≤ whole then
    if Scaled.same x (-1.0) then 1.0
    else if Scaled.less x.abs 1.0 == !Scaled.isNegative y then 0.0
    else 1.0 / 0.0
  else
    let (part, whole) := if Scaled.less 0.5 part then (part - 1.0, whole + 1) else (part, whole)
    let start := if Scaled.units part == 0 then 1.0 else exp (part * log x)
    let (f, e) := Scaled.fraction x
    let (a, ae) := squares 64 whole.toNat start 0 f e
    if Scaled.isNegative y then Scaled.scaleBy (1.0 / a) (-ae) else Scaled.scaleBy a ae

/-- Powers of zero: an odd whole exponent keeps the sign. -/
private def ofZero (x y : Float) : Float :=
  if Scaled.isNegative y then
    if Scaled.isNegative x && isOdd y then -1.0 / 0.0 else 1.0 / 0.0
  else if Scaled.isNegative x && isOdd y then x else 0.0

/-- `x` to the power `y`. -/
def float (x y : Float) : Float :=
  if Scaled.same y 0.0 || Scaled.same x 1.0 then 1.0
  else if Scaled.same y 1.0 then x
  else if x.isNaN || y.isNaN then 0.0 / 0.0
  else if Scaled.same x 0.0 then ofZero x y
  else if y.isInf then
    if Scaled.same x (-1.0) then 1.0
    else if Scaled.less x.abs 1.0 == !Scaled.isNegative y then 0.0
    else 1.0 / 0.0
  else if x.isInf then
    if Scaled.isNegative x then ofZero (-0.0) (-y)
    else if Scaled.isNegative y then 0.0 else 1.0 / 0.0
  else if Scaled.same y 0.5 then x.sqrt
  else if Scaled.same y (-0.5) then 1.0 / x.sqrt
  else finite x y

end SmallLisp.Power

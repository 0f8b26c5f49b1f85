import SmallLisp.Number.Literal
import SmallLisp.Number.Shortest
import SmallLisp.Text.StringLiteral

/-! Values without parts: these are the ones that can be keys of a dict. This module says how they
are written, when two are equal, which stand for the same key, and in which order keys are
listed. -/
namespace SmallLisp

inductive Atom
  | nil
  | bool (b : Bool)
  | int (n : Int64)
  | float (x : Float)
  | string (s : Bytes)
  | keyword (name : Bytes)
  | symbol (name : Bytes)
deriving DecidableEq

namespace Atom

def render : Atom → Bytes
  | .nil => Bytes.ofString "nil"
  | .bool b => Bytes.ofString (if b then "true" else "false")
  | .int n => Bytes.ofInt n.toInt
  | .float x => Shortest.render x
  | .string s => StringLiteral.render s
  | .keyword name => 58 :: name
  | .symbol name => name

/-- A number as a float. -/
def toFloat? : Atom → Option Float
  | .int n => some (Scaled.ofInt n.toInt)
  | .float x => some x
  | _ => none

def isNaN : Atom → Bool
  | .float x => x.isNaN
  | _ => false

/-- Equality of the language: a whole number and a float are equal when the whole number, as a
float, has the value of the other. What is no number differs from itself. -/
def same : Atom → Atom → Bool
  | .int m, .int n => m == n
  | .int m, .float y => Scaled.same (Scaled.ofInt m.toInt) y
  | .float x, .int n => Scaled.same x (Scaled.ofInt n.toInt)
  | .float x, .float y => Scaled.same x y
  | a, b => a == b

/-- The representative of a key: a float without a fraction, within the whole numbers, is replaced
by the whole number. -/
def canonical : Atom → Atom
  | .float x =>
    if Scaled.isIntegral x && Int64.minValue.toInt ≤ Scaled.toInt x &&
        Scaled.toInt x ≤ Int64.maxValue.toInt then
      .int (Int64.ofInt (Scaled.toInt x))
    else .float x
  | a => a

/-- Whether two representatives are the same key. What is no number is never found again. -/
def isKey (a b : Atom) : Bool := a == b && !a.isNaN

/-- Keys are grouped: nil, bools, numbers, strings, keywords, symbols. -/
def rank : Atom → Nat
  | .nil => 0
  | .bool _ => 1
  | .int _ => 2
  | .float _ => 2
  | .string _ => 3
  | .keyword _ => 4
  | .symbol _ => 5

def isInt : Atom → Bool
  | .int _ => true
  | _ => false

/-- Numbers by their value as floats, a whole number before a float of that value. -/
def numberLess (a b : Atom) : Bool :=
  match a.toFloat?, b.toFloat? with
  | some x, some y => if Scaled.same x y then a.isInt else Scaled.less x y
  | _, _ => false

/-- The order in which keys are listed. -/
def keyLess (a b : Atom) : Bool :=
  if a.rank != b.rank then a.rank < b.rank
  else match a, b with
    | .bool p, .bool q => !p && q
    | .string s, .string t => s.less t
    | .keyword s, .keyword t => s.less t
    | .symbol s, .symbol t => s.less t
    | _, _ => numberLess a b

end Atom
end SmallLisp

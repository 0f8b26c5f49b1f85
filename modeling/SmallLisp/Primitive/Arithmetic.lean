import SmallLisp.Number.Power
import SmallLisp.Primitive.Arguments

/-! Numbers. Two whole numbers give a whole number modulo 2^64; with a float on either side both
become floats. An operation on many arguments works from the left, so the kind of the result is
decided pair by pair. -/
namespace SmallLisp

/-- The name of the function that compares so. -/
def Comparison.name : Comparison → String
  | .less => "<"
  | .greater => ">"
  | .lessEqual => "<="
  | .greaterEqual => ">="

def Comparison.holds : Comparison → Ordering → Bool
  | .less, o => o == .lt
  | .greater, o => o == .gt
  | .lessEqual, o => o != .gt
  | .greaterEqual, o => o != .lt

namespace Arithmetic

open Literal (Numeral)

def term : Numeral → Term
  | .int n => .int n
  | .float x => .float x

def toFloat : Numeral → Float
  | .int n => Scaled.ofInt n.toInt
  | .float x => x

/-- A binary operation on whole numbers and on floats. -/
structure Operation where
  int : Int64 → Int64 → Result Int64
  float : Float → Float → Float

namespace Operation

def add : Operation := ⟨fun a b => .ok (a + b), fun x y => x + y⟩

def sub : Operation := ⟨fun a b => .ok (a - b), fun x y => x - y⟩

def mul : Operation := ⟨fun a b => .ok (a * b), fun x y => x * y⟩

/-- Towards zero for whole numbers. -/
def div : Operation :=
  ⟨fun a b => if b == 0 then Arguments.fault .divisionByZero else .ok (a / b), fun x y => x / y⟩

/-- With the sign of the first operand. -/
def mod : Operation :=
  ⟨fun a b => if b == 0 then Arguments.fault .divisionByZero else .ok (a % b), Scaled.remainder⟩

def apply (op : Operation) : Numeral → Numeral → Result Numeral
  | .int a, .int b => (op.int a b).map .int
  | a, b => .ok (.float (op.float (toFloat a) (toFloat b)))

/-- Applies the operation to the numbers so far and the next argument, from the left. -/
def fold (op : Operation) (who : String) : Numeral → List Term → Result Numeral
  | acc, [] => .ok acc
  | acc, t :: ts => do
    let n ← Arguments.number who t
    let acc ← op.apply acc n
    op.fold who acc ts

/-- As `fold`, from the first argument, or from `unit` if it is the only one. -/
def reduce (op : Operation) (who : String) (unit : Int64) : List Term → Result Numeral
  | [] => Arguments.complain (.noArguments (Bytes.ofString who))
  | [t] => op.fold who (.int unit) [t]
  | t :: ts => do
    let n ← Arguments.number who t
    op.fold who n ts

end Operation

def add (args : List Term) : Result Term := (Operation.add.fold "+" (.int 0) args).map term

def mul (args : List Term) : Result Term := (Operation.mul.fold "*" (.int 1) args).map term

def sub (args : List Term) : Result Term := (Operation.sub.reduce "-" 0 args).map term

def div (args : List Term) : Result Term := (Operation.div.reduce "/" 1 args).map term

def mod (args : List Term) : Result Term := do
  let (a, b) ← Arguments.two "mod" args
  let n ← Arguments.number "mod" a
  (Operation.mod.fold "mod" n [b]).map term

/-- Neither less nor greater counts as equal, also when one side is no number. -/
def order : Numeral → Numeral → Ordering
  | .int a, .int b => if a < b then .lt else if b < a then .gt else .eq
  | a, b =>
    if Scaled.less (toFloat a) (toFloat b) then .lt
    else if Scaled.less (toFloat b) (toFloat a) then .gt
    else .eq

/-- Compares neighbours; every argument is checked to be a number, also after a comparison has
failed. -/
def chain (c : Comparison) (holds : Bool) : List Term → Result Bool
  | t :: u :: ts => do
    let a ← Arguments.number c.name t
    let b ← Arguments.number c.name u
    chain c (holds && c.holds (order a b)) (u :: ts)
  | _ => .ok holds

def compare (c : Comparison) (args : List Term) : Result Term :=
  if args.length < 2 then Arguments.arity c.name (.atLeast 2) args
  else (chain c true args).map fun b => .bool b

def sqrt (args : List Term) : Result Term := do
  let t ← Arguments.one "sqrt" args
  let n ← Arguments.number "sqrt" t
  return .float (toFloat n).sqrt

/-- A whole number to a power that is not negative is a whole number, or does not fit. -/
def pow (args : List Term) : Result Term := do
  let (t, u) ← Arguments.two "pow" args
  let x ← Arguments.number "pow" t
  let y ← Arguments.number "pow" u
  match x, y with
  | .int a, .int b =>
    if 0 ≤ b then
      match Power.int? a b.toInt.toNat with
      | some r => .ok (.int r)
      | none => Arguments.fault .powerOverflow
    else .ok (.float (Power.float (toFloat x) (toFloat y)))
  | _, _ => .ok (.float (Power.float (toFloat x) (toFloat y)))

/-- Rounds a float to a whole value; a whole number stays as it is. -/
def rounding (who : String) (f : Float → Float) (args : List Term) : Result Term := do
  let t ← Arguments.one who args
  match ← Arguments.number who t with
  | .int n => .ok (.int n)
  | .float x => .ok (.float (f x))

def abs (args : List Term) : Result Term := do
  let t ← Arguments.one "abs" args
  match ← Arguments.number "abs" t with
  | .int n => .ok (.int (if n < 0 then -n else n))
  | .float x => .ok (.float x.abs)

end Arithmetic
end SmallLisp

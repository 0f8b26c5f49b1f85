import SmallLisp.Error

/-! Checks on the arguments of a native function. `who` is the name under which it complains. -/
namespace SmallLisp

/-- The result of a native function that only looks at its arguments. -/
abbrev Result (α : Type) := Except Error α

namespace Arguments

def complain {α : Type} (c : Complaint) : Result α := .error (.general c)

def fault {α : Type} (f : RuntimeFault) : Result α := .error (.runtime f)

private def expected {α : Type} (who : String) (w : Wanted) (t : Term) : Result α :=
  complain (.wrongKind (Bytes.ofString who) w t.kind)

def arity {α : Type} (who : String) (a : Arity) (args : List Term) : Result α :=
  complain (.arity (Bytes.ofString who) a args.length)

def none (who : String) (args : List Term) : Result Unit :=
  match args with
  | [] => .ok ()
  | args => arity who (.exactly 0) args

def one (who : String) (args : List Term) : Result Term :=
  match args with
  | [t] => .ok t
  | args => arity who (.exactly 1) args

def two (who : String) (args : List Term) : Result (Term × Term) :=
  match args with
  | [t, u] => .ok (t, u)
  | args => arity who (.exactly 2) args

def number? : Term → Option Literal.Numeral
  | .int n => some (.int n)
  | .float x => some (.float x)
  | _ => Option.none

def number (who : String) (t : Term) : Result Literal.Numeral :=
  match number? t with
  | some n => .ok n
  | Option.none => expected who .number t

def string (who : String) : Term → Result Bytes
  | .string s => .ok s
  | t => expected who .string t

/-- Nil counts as the empty list. -/
def list (who : String) : Term → Result (List Term)
  | .list ts => .ok ts
  | .nil => .ok []
  | t => expected who .list t

def dict (who : String) : Term → Result Entries
  | .dict es => .ok es
  | t => expected who .dict t

def name (who : String) : Term → Result Bytes
  | .symbol s => .ok s
  | .string s => .ok s
  | t => expected who .name t

def bool (who : String) : Term → Result Bool
  | .bool b => .ok b
  | t => expected who .bool t

def int (who : String) : Term → Result Int64
  | .int n => .ok n
  | t => expected who .int t

def index (who : String) : Term → Result Int64
  | .int n => .ok n
  | t => expected who .index t

/-- The number of elements of a list or dict, or of characters of a string. -/
def size (who : String) : Term → Result Nat
  | .list ts => .ok ts.length
  | .dict es => .ok es.length
  | .string s => .ok s.charCount
  | .nil => .ok 0
  | t => expected who .sized t

/-- Whether there are no elements or characters. -/
def empty (who : String) : Term → Result Bool
  | .list ts => .ok ts.isEmpty
  | .dict es => .ok es.isEmpty
  | .string s => .ok s.isEmpty
  | .nil => .ok true
  | t => expected who .sized t

def key (who : String) : Term → Result Atom
  | .atom a => .ok a
  | t => complain (.badKey (Bytes.ofString who) t.kind)

end Arguments
end SmallLisp

import SmallLisp.Atom
import SmallLisp.Builtin

/-! The values of the language, which are also its programs: atoms, lists, dicts and functions. A
closure carries the environment it was made in as the names of its frames, so values are finite
data; its number stands for its identity. -/
namespace SmallLisp

/-- A chain of frames, the innermost first, and the namespace in which names that no frame binds
are looked up. -/
structure Env where
  frames : List Nat
  ns : Bytes
deriving DecidableEq

/-- A function written in the language. `home` is the namespace it was defined in; `rest` names
the list of arguments beyond the parameters, if it takes any. -/
structure Closure (τ : Type) where
  id : Nat
  isMacro : Bool
  doc : Bytes
  home : Bytes
  params : List Bytes
  rest : Option Bytes
  body : List τ
  env : Env

inductive Term
  | atom (a : Atom)
  | list (ts : List Term)
  | dict (entries : List (Atom × Term))
  | native (b : Builtin)
  | closure (f : Closure Term)

/-- The entries of a dict, in the order in which their keys were first entered. -/
abbrev Entries := List (Atom × Term)

namespace Term

@[match_pattern] abbrev nil : Term := .atom .nil
@[match_pattern] abbrev bool (b : Bool) : Term := .atom (.bool b)
@[match_pattern] abbrev int (n : Int64) : Term := .atom (.int n)
@[match_pattern] abbrev float (x : Float) : Term := .atom (.float x)
@[match_pattern] abbrev string (s : Bytes) : Term := .atom (.string s)
@[match_pattern] abbrev keyword (name : Bytes) : Term := .atom (.keyword name)
@[match_pattern] abbrev symbol (name : Bytes) : Term := .atom (.symbol name)

instance : Inhabited Term := ⟨.nil⟩

/-- The symbol with this name, written out. -/
def sym (name : String) : Term := .symbol (Bytes.ofString name)

def kind : Term → Kind
  | .list _ => .list
  | .dict _ => .dict
  | .symbol _ => .symbol
  | .int _ => .int
  | .float _ => .float
  | .string _ => .string
  | .bool _ => .bool
  | .nil => .nil
  | .keyword _ => .keyword
  | .native _ => .function
  | .closure _ => .function

end Term

/-- The name of a symbol. -/
def Term.symbol? : Term → Option Bytes
  | .symbol name => some name
  | _ => none

/-- The names of a list of symbols, unless something else is among them. -/
def symbols? (ts : List Term) : Option (List Bytes) := ts.mapM Term.symbol?

end SmallLisp

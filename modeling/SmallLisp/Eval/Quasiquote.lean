import SmallLisp.Error

/-! Templates. A quasiquoted term becomes calls of `core/cons` and `core/concat` that
build it, with the unquoted expressions in their places. Elements are taken from the right, so
of two ill-formed ones the last is reported. -/
namespace SmallLisp

/-- The arguments of a form with this name at its head. -/
def formArgs? (name : Bytes) : Term → Option (List Term)
  | .list (.symbol s :: args) => if s == name then some args else none
  | _ => none

private def singleArg (m : Mark) (args : List Term) : Except Complaint Term :=
  match args with
  | [t] => .ok t
  | args => .error (.arity m.form .one args.length)

/-- Symbols are quoted, other than those that denote a constant. -/
def quoteAtom : Atom → Term
  | .symbol s =>
    if s == Bytes.ofString "true" || s == Bytes.ofString "false" || s == Bytes.ofString "nil" then
      .symbol s
    else .list [.sym "quote", .symbol s]
  | a => .atom a

mutual

/-- The expression that builds a template. -/
def quasiquote : Term → Except Complaint Term
  | .list ts =>
    match formArgs? Mark.unquote.form (.list ts) with
    | some args => singleArg .unquote args
    | none =>
      match formArgs? Mark.splice.form (.list ts) with
      | some _ => .error .straySplice
      | none => quasiquoteAll ts
  | .atom a => .ok (quoteAtom a)
  | t => .ok t

def quasiquoteAll : List Term → Except Complaint Term
  | [] => .ok (.list [])
  | t :: ts => do
    let rest ← quasiquoteAll ts
    match formArgs? Mark.splice.form t with
    | some args =>
      let spliced ← singleArg .splice args
      return .list [.sym "core/concat", spliced, rest]
    | none =>
      let built ← quasiquote t
      return .list [.sym "core/cons", built, rest]

end

end SmallLisp

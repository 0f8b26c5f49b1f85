import SmallLisp.Eval.Call

/-! Making functions: an optional documentation, a list of parameters and a body. -/
namespace SmallLisp

/-- The parameters, and the name for further arguments after `&`, which must be followed by exactly
one name. A name for them that is empty binds nothing. -/
def splitParams (names : List Bytes) : Except Complaint (List Bytes × Option Bytes) :=
  let before := names.takeWhile (· != [38])
  match names.drop before.length with
  | [] => .ok (before, none)
  | [_, rest] => .ok (before, if rest.isEmpty then none else some rest)
  | _ => .error .restParameter

/-- Whether the first part of a function documents it: a string, a symbol bound to a string, or a
list that is not only of symbols and evaluates to a string. -/
def docString? (ev : Evaluate) (env : Env) : Term → Action (Option Bytes)
  | .string s => return some s
  | .symbol name => do
    match ← env.get name with
    | .string s => return some s
    | _ => return none
  | .list ts =>
    if (symbols? ts).isSome then return none
    else do
      match ← ev.value (.list ts) env with
      | .string s => return some s
      | v => Action.complain (.docKind v.kind)
  | _ => return none

/-- The names in a list of parameters. -/
def listedNames : Term → Action (List Bytes)
  | .list ts =>
    match symbols? ts with
    | some names => return names
    | none => Action.complain (.parameters (.list ts))
  | t => Action.complain (.parameters t)

/-- The names in a list of parameters, which a symbol may stand for. -/
def paramNames (env : Env) : Term → Action (List Bytes)
  | .symbol name => do listedNames (← env.get name)
  | t => listedNames t

/-- The function with this documentation, parameters and body. -/
def makeClosure (env : Env) (doc : Bytes) (params : Term) (body : List Term) : Action Term := do
  let names ← paramNames env params
  match splitParams names with
  | .error c => Action.complain c
  | .ok (params, rest) =>
    let id ← Action.read State.closures
    Action.update fun s => { s with closures := id + 1 }
    return .closure ⟨id, false, doc, env.ns, params, rest, body, env⟩

/-- The function with these parts, closed over the environment. -/
def makeFunction (ev : Evaluate) (env : Env) : List Term → Action Term
  | [] => Action.complain .noParameters
  | [params] => makeClosure env [] params []
  | first :: second :: body => do
    match ← docString? ev env first with
    | some doc => makeClosure env doc second body
    | none => makeClosure env [] first (second :: body)

end SmallLisp

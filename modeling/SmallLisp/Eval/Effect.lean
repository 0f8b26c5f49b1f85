import SmallLisp.Eval.Load
import SmallLisp.Primitive

/-! The native functions that read or change the state, and calling native functions at all. -/
namespace SmallLisp

namespace Effect

private def checked {α : Type} (r : Result α) : Action α := Action.ofExcept r

/-- Writes the arguments with spaces between them. -/
def write (host : Host) (render : Term → Bytes) (ending : Bytes) (args : List Term) :
    Action Term := do
  if host.outputFails then Action.fail .outputFailed
  else
    Action.update fun s => s.emit (.output (Bytes.join [32] (args.map render) ++ ending))
    return .nil

/-- A symbol with a number that no earlier one has. -/
def freshSymbol (args : List Term) : Action Term := do
  let base ← match args with
    | [] => pure (Bytes.ofString "G__")
    | [t] => checked (Arguments.name "gensym" t)
    | args => checked (Arguments.arity "gensym" .atMostOne args)
  Action.update fun s => { s with gensyms := s.gensyms + 1 }
  let n ← Action.read State.gensyms
  return .symbol (base ++ Bytes.ofNat n)

def importAll (ns : Bytes) : List Term → Action Unit
  | [] => return ()
  | t :: ts => do
    let name ← checked (Arguments.name "import" t)
    Action.update fun s => (s.require name).addImport ns name
    importAll ns ts

/-- Imports namespaces into that of the environment, one after the other. -/
def importNamespaces (env : Env) (args : List Term) : Action Term := do
  if args.isEmpty then Action.complain .noImports
  else
    importAll env.ns args
    return .nil

def addAlias (env : Env) (args : List Term) : Action Term := do
  let (t, u) ← checked (Arguments.two "alias" args)
  let short ← checked (Arguments.name "alias" t)
  let name ← checked (Arguments.name "alias" u)
  Action.update fun s => (s.require name).addAlias env.ns short name
  return .nil

/-- The names bound in a namespace that exists. -/
def namesIn (name : Bytes) : Action Term := do
  match ← Action.read fun s => s.namespaces.get? name with
  | some ns => return .list (ns.names.map fun n => .symbol n)
  | none => Action.complain (.noNamespace name)

/-- The names bound in the namespace that is given, or else in the current one. -/
def publicNames (env : Env) : List Term → Action Term
  | [] => namesIn env.ns
  | [t] => do namesIn (← checked (Arguments.name "ns-publics" t))
  | args => checked (Arguments.arity "ns-publics" .atMostOne args)

def call (host : Host) (ev : Evaluate) (env : Env) (e : Effect) (args : List Term) :
    Action Term :=
  match e with
  | .print => write host Term.display [] args
  | .println => write host Term.display [10] args
  | .prn => write host Term.render [10] args
  | .gensym => freshSymbol args
  | .eval => do
    let t ← checked (Arguments.one "eval" args)
    ev.value t env
  | .slurp => do
    let t ← checked (Arguments.one "slurp" args)
    let path ← checked (Arguments.string "slurp" t)
    readFile host path
  | .load => do
    let t ← checked (Arguments.one "load" args)
    let path ← checked (Arguments.string "load" t)
    loadFile host ev path env
  | .importNs => importNamespaces env args
  | .aliasTo => addAlias env args
  | .nsName => do
    checked (Arguments.none "ns-name" args)
    return .symbol env.ns
  | .nsPublics => publicNames env args

end Effect

def Builtin.call (host : Host) (ev : Evaluate) (env : Env) (b : Builtin) (args : List Term) :
    Action Term :=
  match b with
  | .primitive p => Action.ofExcept (p.call args)
  | .effect e => e.call host ev env args

end SmallLisp

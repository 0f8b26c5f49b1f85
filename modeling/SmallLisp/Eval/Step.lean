import SmallLisp.Eval.Effect
import SmallLisp.Eval.Function
import SmallLisp.Eval.Quasiquote

/-! One step of evaluation. The last form of a body, the chosen branch of an `if`, an expanded macro
and the body of a called function are not evaluated inside the step: the step ends by naming the
form and environment to go on with. -/
namespace SmallLisp

/-- Where evaluation stands: the form at hand and its environment; the environment to hand back to
the caller; whether a change of namespace here reaches the caller; and the last list form. -/
structure Cursor where
  form : Term
  env : Env
  out : Env
  top : Bool
  enclosing : Option Term

/-- The beginning of an evaluation. -/
def Cursor.start (form : Term) (env : Env) : Cursor := ⟨form, env, env, true, none⟩

inductive Step
  | done (value : Term) (out : Env)
  | next (c : Cursor)

namespace Cursor

def finish (c : Cursor) (v : Term) : Action Step := return .done v c.out

/-- Goes on with another form in the same environment. -/
def goOn (c : Cursor) (form : Term) : Action Step := return .next { c with form := form }

/-- Goes on inside a new frame, from which no change of namespace reaches the caller. -/
def tail (c : Cursor) (env : Env) (form : Term) : Action Step :=
  return .next { c with env := env, form := form, top := false }

/-- The environment is now another one; a caller is handed it if this is at top level. -/
def switch (c : Cursor) (env : Env) : Cursor :=
  { c with env := env, out := if c.top then env else c.out }

end Cursor

/-- Three symbols denote constants, whatever they are bound to. -/
def constant? (name : Bytes) : Option Term :=
  if name == Bytes.ofString "true" then some (.bool true)
  else if name == Bytes.ofString "false" then some (.bool false)
  else if name == Bytes.ofString "nil" then some .nil
  else none

/-- The value of a term that is no form: symbols are looked up, all else is its own value. -/
def evalAtom (env : Env) : Term → Action Term
  | .symbol name =>
    match constant? name with
    | some v => return v
    | none => env.get name
  | t => return t

namespace SpecialForm

/-- The form was given the wrong number of arguments. -/
def arity {α : Type} (f : SpecialForm) (a : Arity) (args : List Term) : Action α :=
  Action.complain (.arity f.name a args.length)

/-- The form was given a value of the wrong kind. -/
def wrongKind {α : Type} (f : SpecialForm) (w : Wanted) (t : Term) : Action α :=
  Action.complain (.wrongKind f.name w t.kind)

end SpecialForm

namespace Cursor

open SpecialForm (arity wrongKind)

/-- `(def name value)` binds a name in the namespace. -/
def define (c : Cursor) (ev : Evaluate) : List Term → Action Step
  | [.symbol name, form] => do
    let v ← ev.value form c.env
    Action.update fun s => s.bindRoot c.env.ns name v
    c.finish (.symbol (qualify c.env.ns name))
  | [t, _] => wrongKind .define .symbol t
  | args => arity .define (.exactly 2) args

/-- `(defmacro name function)` binds a copy of the function that is a macro. -/
def defineMacro (c : Cursor) (ev : Evaluate) : List Term → Action Step
  | [.symbol name, form] => do
    match ← ev.value form c.env with
    | .closure f =>
      Action.update fun s =>
        { s with closures := s.closures + 1 }.bindRoot c.env.ns name
          (.closure { f with id := s.closures, isMacro := true })
      c.finish (.symbol (qualify c.env.ns name))
    | v => Action.complain (.notInterpreted v)
  | [t, _] => wrongKind .defineMacro .symbol t
  | args => arity .defineMacro (.exactly 2) args

/-- The bindings of a `let`, one after the other, each seeing those before it. -/
def bindAll (ev : Evaluate) (env : Env) (frame : Nat) : List Term → Action Unit
  | .symbol name :: form :: rest => do
    let v ← ev.value form env
    Action.update fun s => s.define frame name v
    bindAll ev env frame rest
  | t :: _ :: _ => wrongKind .letIn .symbol t
  | _ => return ()

/-- `(let (name value ...) body ...)` binds names in a new frame. -/
def letIn (c : Cursor) (ev : Evaluate) : List Term → Action Step
  | [] => Action.complain .noBindings
  | .list bindings :: body =>
    if bindings.length % 2 == 1 then Action.complain .oddBindings
    else do
      let env ← Env.extend [] c.env.frames c.env.ns
      bindAll ev env (env.frames.headD 0) bindings
      match body.getLast? with
      | none => c.finish .nil
      | some last =>
        ev.each env body.dropLast
        c.tail env last
  | _ :: _ => Action.complain .oddBindings

/-- `(set! name value)` changes the innermost binding of a frame. -/
def assign (c : Cursor) (ev : Evaluate) : List Term → Action Step
  | [.symbol name, form] => do
    let v ← ev.value form c.env
    match ← Action.read fun s => s.find? c.env name with
    | some frame =>
      Action.update fun s => s.define frame name v
      c.finish v
    | none => Action.fault (.notLocal name)
  | [t, _] => wrongKind .assign .symbol t
  | args => arity .assign (.exactly 2) args

/-- Calls a function: a native one at once, the body of another one as what is left to do. -/
def call (c : Cursor) (host : Host) (ev : Evaluate) (f : Term) (args : List Term)
    (otherwise : Action Step) : Action Step :=
  match f with
  | .native b => do
    let v ← b.call host ev c.env args
    c.finish v
  | .closure g => do
    let (env, form) ← g.enter ev args
    c.tail env form
  | _ => otherwise

/-- `(apply f list)` calls a function with the elements of a list. -/
def apply (c : Cursor) (host : Host) (ev : Evaluate) : List Term → Action Step
  | [function, arguments] => do
    let f ← ev.value function c.env
    if f.kind == .function then
      match ← ev.value arguments c.env with
      | .list args => c.call host ev f args (wrongKind .apply .function f)
      | t => wrongKind .apply .list t
    else wrongKind .apply .function f
  | args => arity .apply (.exactly 2) args

/-- `(do form ...)`: a change of namespace by one form holds for the next. -/
def sequence (c : Cursor) (ev : Evaluate) : List Term → Action Step
  | [] => c.finish .nil
  | [last] => c.goOn last
  | form :: forms => do
    let (_, env) ← ev form c.env
    (c.switch env).sequence ev forms

/-- The branch of an `if` that is taken; without one the value is nil. -/
def branch (c : Cursor) (yes : Term) (no : Option Term) : Term → Action Step
  | .bool true => c.goOn yes
  | .bool false =>
    match no with
    | some form => c.goOn form
    | none => c.finish .nil
  | v => Action.complain (.condition SpecialForm.choose.name v.kind)

/-- `(if condition then else)`, where the last part may be missing. -/
def choose (c : Cursor) (ev : Evaluate) : List Term → Action Step
  | [condition, yes] => do
    let v ← ev.value condition c.env
    c.branch yes none v
  | [condition, yes, no] => do
    let v ← ev.value condition c.env
    c.branch yes (some no) v
  | args => arity .choose .twoOrThree args

/-- Evaluates the body while the condition is true, so many times at most. The value is that of the
last form evaluated. -/
def whileTrue (ev : Evaluate) (env : Env) (condition : Term) (body : List Term) :
    Nat → Term → Action Term
  | 0, _ => Action.timeout
  | fuel + 1, result => do
    match ← ev.value condition env with
    | .bool true =>
      let vs ← ev.values env body
      whileTrue ev env condition body fuel (vs.getLastD result)
    | .bool false => return result
    | v => Action.complain (.condition SpecialForm.loop.name v.kind)

/-- `(while condition body ...)`. -/
def loop (c : Cursor) (ev : Evaluate) (fuel : Nat) : List Term → Action Step
  | condition :: first :: body => do
    let v ← whileTrue ev c.env condition (first :: body) fuel .nil
    c.finish v
  | _ => Action.complain .noLoopBody

/-- The namespace named by a symbol as it stands, or by the value of another form. -/
def namespaceName (ev : Evaluate) (env : Env) : Term → Action Bytes
  | .symbol name => return name
  | t => do
    match ← ev.value t env with
    | .symbol name => return name
    | .string name => return name
    | v => wrongKind .inNs .name v

/-- `(in-ns name)` changes the namespace, which is created if need be. -/
def inNs (c : Cursor) (ev : Evaluate) : List Term → Action Step
  | [t] => do
    let name ← namespaceName ev c.env t
    Action.update fun s => s.require name
    (c.switch { c.env with ns := name }).finish (.symbol name)
  | args => arity .inNs .one args

/-- `(quasiquote template)` goes on with the expression that builds the template. -/
def template (c : Cursor) : List Term → Action Step
  | [t] =>
    match quasiquote t with
    | .ok expanded => c.goOn expanded
    | .error e => Action.complain e
  | args => arity .quasiquote .one args

/-- A special form with its arguments. -/
def special (c : Cursor) (host : Host) (ev : Evaluate) (fuel : Nat) (f : SpecialForm)
    (args : List Term) : Action Step :=
  match f with
  | .define => c.define ev args
  | .letIn => c.letIn ev args
  | .assign => c.assign ev args
  | .apply => c.apply host ev args
  | .quote =>
    match args with
    | [t] => c.finish t
    | args => arity .quote .one args
  | .quasiquote => c.template args
  | .sequence => c.sequence ev args
  | .function => do
    let f ← makeFunction ev c.env args
    c.finish f
  | .choose => c.choose ev args
  | .loop => c.loop ev fuel args
  | .defineMacro => c.defineMacro ev args
  | .macroExpand =>
    match args with
    | [t] => do
      let expanded ← SmallLisp.macroExpand ev c.env fuel t
      c.finish expanded
    | args => arity .macroExpand .one args
  | .inNs => c.inNs ev args

end Cursor

/-- The special form that the head of a form names. -/
def specialForm? : Term → Option SpecialForm
  | .symbol name => SpecialForm.ofName? name
  | _ => none

/-- Evaluates all parts of a form and calls the first. -/
def applyForm (host : Host) (ev : Evaluate) (c : Cursor) (head : Term) (args : List Term) :
    Action Step := do
  let f ← ev.value head c.env
  let vs ← ev.values c.env args
  c.call host ev f vs (Action.fault (.notFunction head))

/-- A list form: a macro comes before a special form, and that before a call. -/
def stepForm (host : Host) (ev : Evaluate) (fuel : Nat) (c : Cursor) (head : Term)
    (args : List Term) : Action Step := do
  match ← Action.read fun s => macroOf? s c.env head with
  | some m =>
    let expanded ← m.expand ev args
    c.goOn expanded
  | none =>
    match specialForm? head with
    | some f => c.special host ev fuel f args
    | none => applyForm host ev c head args

/-- Errors are reported in the form at hand, those of an atom in the last form before it. -/
def step (host : Host) (ev : Evaluate) (fuel : Nat) (c : Cursor) : Action Step :=
  match c.form with
  | .list (head :: args) =>
    let c := { c with enclosing := some c.form }
    Action.inForm c.form (stepForm host ev fuel c head args)
  | t => do
    let v ← match c.enclosing with
      | some form => Action.inForm form (evalAtom c.env t)
      | none => evalAtom c.env t
    c.finish v

end SmallLisp

import SmallLisp.Action
import SmallLisp.Eval.SpecialForm

/-! Calling functions. Evaluation of the parts of a form is a parameter here, `ev`; it gives a
value and the environment in which a following form would be evaluated. -/
namespace SmallLisp

abbrev Evaluate := Term → Env → Action (Term × Env)

namespace Evaluate

/-- The value alone. -/
def value (ev : Evaluate) (t : Term) (env : Env) : Action Term := do
  let (v, _) ← ev t env
  return v

/-- The values of terms, from the left. -/
def values (ev : Evaluate) (env : Env) : List Term → Action (List Term)
  | [] => return []
  | t :: ts => do
    let v ← ev.value t env
    let vs ← ev.values env ts
    return v :: vs

/-- Evaluates terms for their effects. -/
def each (ev : Evaluate) (env : Env) : List Term → Action Unit
  | [] => return ()
  | t :: ts => do
    let _ ← ev.value t env
    ev.each env ts

end Evaluate

/-- What a name is bound to. -/
def Env.get (env : Env) (name : Bytes) : Action Term := fun s =>
  match s.lookup env name with
  | .ok v => .value v s
  | .error f => .failure (.runtime f) s

/-- A new frame inside an environment. -/
def Env.extend (frame : Table Term) (frames : List Nat) (ns : Bytes) : Action Env := do
  let i ← Action.read fun s => s.frames.size
  Action.update fun s => s.addFrame frame
  return ⟨i :: frames, ns⟩

namespace Closure

private def bindParams : Table Term → List Bytes → List Term → Table Term
  | frame, p :: ps, t :: ts => bindParams (frame.insert p t) ps ts
  | frame, _, _ => frame

/-- The frame that binds the parameters to the arguments, if their number is right. -/
def bind (f : Closure Term) (args : List Term) : Except RuntimeFault (Table Term) :=
  let n := f.params.length
  let frame := bindParams [] f.params args
  match f.rest with
  | some rest =>
    if args.length < n then .error (.tooFewArguments n args.length)
    else .ok (frame.insert rest (.list (args.drop n)))
  | none => if args.length != n then .error (.argumentCount n args.length) else .ok frame

private theorem mem_of_bindParams {frame : Table Term} {ps : List Bytes} {args : List Term}
    {x : Bytes} {v : Term} (h : (bindParams frame ps args).get? x = some v) :
    v ∈ args ∨ frame.get? x = some v := by
  fun_induction bindParams frame ps args with
  | case1 frame p ps t ts ih =>
    rcases ih h with hmem | hframe
    · exact .inl (List.mem_cons_of_mem _ hmem)
    · rcases Table.eq_or_of_get?_insert hframe with rfl | hframe
      · exact .inl List.mem_cons_self
      · exact .inr hframe
  | case2 frame => exact .inr h

/-- A call binds names to its arguments, or to the list of the arguments beyond the parameters. -/
theorem mem_of_bind {f : Closure Term} {args : List Term} {frame : Table Term}
    (h : f.bind args = .ok frame) {x : Bytes} {v : Term} (hv : frame.get? x = some v) :
    v ∈ args ∨ v = .list (args.drop f.params.length) := by
  have hparams (hv : (bindParams [] f.params args).get? x = some v) : v ∈ args :=
    (mem_of_bindParams hv).resolve_right nofun
  unfold bind at h
  dsimp only at h
  split at h
  case h_1 rest _ =>
    split at h
    · cases h
    · cases h
      rcases Table.eq_or_of_get?_insert hv with rfl | hv
      · exact .inr rfl
      · exact .inl (hparams hv)
  case h_2 =>
    split at h
    · cases h
    · cases h
      exact .inl (hparams hv)

/-- Binds the arguments in a frame on top of the captured environment, in the namespace of the
definition, and evaluates all of the body but its last form. The result is the environment and
the form that are left to evaluate. -/
def enter (ev : Evaluate) (f : Closure Term) (args : List Term) : Action (Env × Term) :=
  match f.bind args with
  | .error fault => Action.fault fault
  | .ok frame => do
    let env ← Env.extend frame f.env.frames f.home
    ev.each env f.body.dropLast
    return (env, f.body.getLastD .nil)

/-- Applies a macro to the terms of a form as they stand. -/
def expand (ev : Evaluate) (m : Closure Term) (args : List Term) : Action Term := do
  let (env, tail) ← m.enter ev args
  ev.value tail env

end Closure

/-- The macro that the head of a form is bound to. -/
def macroOf? (s : State) (env : Env) (head : Term) : Option (Closure Term) :=
  match head with
  | .symbol name =>
    match s.lookup env name with
    | .ok (.closure f) => if f.isMacro then some f else none
    | _ => none
  | _ => none

/-- Expands a form until its head is no macro, with so many steps at most. -/
def macroExpand (ev : Evaluate) (env : Env) : Nat → Term → Action Term
  | 0, _ => Action.timeout
  | fuel + 1, .list (head :: args) => do
    match ← Action.read fun s => macroOf? s env head with
    | some m =>
      let expanded ← Action.inForm (.list (head :: args)) (m.expand ev args)
      macroExpand ev env fuel expanded
    | none => return .list (head :: args)
  | _ + 1, form => return form

end SmallLisp

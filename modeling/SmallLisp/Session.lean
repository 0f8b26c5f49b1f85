import SmallLisp.Eval
import SmallLisp.Library

/-! A session: the state of an interpreter and the environment in which input is evaluated at top
level. Evaluating a form may switch that environment to another namespace; loading a text or a
file does not. -/
namespace SmallLisp

structure Session where
  state : State
  env : Env

/-- How a request to a session ended. -/
inductive Answer (α : Type)
  | value (a : α)
  | failure (e : Error)
  | timeout

def Answer.map {α β : Type} (f : α → β) : Answer α → Answer β
  | .value a => .value (f a)
  | .failure e => .failure e
  | .timeout => .timeout

/-- Circle's ratio, as the nearest float. -/
def piValue : Float := 3.14159265358979323846264338327950288419716939937510582097494459

/-- The namespace that holds some native functions. -/
private def State.register (s : State) (ns : Bytes) (entries : List Builtin.Entry) : State :=
  entries.foldl (fun s e => s.bindRoot ns e.name (.native e.function)) (s.require ns)

/-- The native functions in their namespaces, and nothing else. -/
def State.initial : State :=
  let core := State.empty.register coreName Builtin.core
  let math := core.register (Bytes.ofString "math") Builtin.math
  let math := math.bindRoot (Bytes.ofString "math") (Bytes.ofString "pi") (.float piValue)
  math.register (Bytes.ofString "string") Builtin.string

/-- What holds when there is the namespace `core`, and stays so when a namespace is required and when
a name is bound to a native function or to a number, holds of the initial state. -/
theorem State.initial_induction {P : State → Prop} (core : P (State.empty.require coreName))
    (require : ∀ s name, P s → P (s.require name))
    (bindRoot : ∀ s ns name v, (∃ b, v = .native b) ∨ (∃ x, v = .float x) → P s →
      P (s.bindRoot ns name v)) : P State.initial := by
  have hregister (s : State) (ns : Bytes) (entries : List Builtin.Entry) (hs : P (s.require ns)) :
      P (s.register ns entries) := by
    unfold State.register
    generalize s.require ns = s' at hs
    induction entries generalizing s' with
    | nil => exact hs
    | cons e entries ih => exact ih _ (bindRoot s' ns e.name _ (.inl ⟨e.function, rfl⟩) hs)
  have hcore := hregister _ _ Builtin.core core
  have hmath := hregister _ (Bytes.ofString "math") Builtin.math (require _ _ hcore)
  exact hregister _ _ _ (require _ _ (bindRoot _ _ _ _ (.inr ⟨piValue, rfl⟩) hmath))

theorem State.initial_frames : State.initial.frames = #[] := by
  refine State.initial_induction (P := fun s => s.frames = #[]) rfl ?_ ?_
  · intro s name hs
    rw [s.require_frames, hs]
  · intro s ns name v _ hs
    exact hs

namespace Session

def userName : Bytes := Bytes.ofString "user"

/-- A new interpreter, in the namespace `user`, with one empty frame at top level. -/
def fresh : Session :=
  let s := (State.initial.require userName).addFrame []
  ⟨s, ⟨[0], userName⟩⟩

/-- Runs an action that may switch the environment. After a failure the environment is as before,
while the state is that of the failure. -/
def perform {α : Type} (m : Action (α × Env)) (s : Session) : Answer α × Session :=
  match m s.state with
  | .value (a, env) state => (.value a, ⟨state, env⟩)
  | .failure e state => (.failure e, { s with state := state })
  | .timeout => (.timeout, s)

/-- Runs an action that leaves the environment as it is. -/
def query {α : Type} (m : Env → Action α) (s : Session) : Answer α × Session :=
  s.perform do
    let a ← m s.env
    return (a, s.env)

def evalFormWith (ev : Evaluate) (t : Term) (s : Session) : Answer Term × Session :=
  s.perform (ev t s.env)

/-- Evaluates forms one after the other, up to the first that fails. The value is the last one. -/
def evalFormsWith (ev : Evaluate) : List Term → Term → Session → Answer Term × Session
  | [], last, s => (.value last, s)
  | t :: ts, _, s =>
    match s.evalFormWith ev t with
    | (.value v, s) => evalFormsWith ev ts v s
    | (.failure e, s) => (.failure e, s)
    | (.timeout, s) => (.timeout, s)

/-- Reads all of a text and evaluates its forms one by one. -/
def evalTextWith (ev : Evaluate) (src : Bytes) (s : Session) : Answer Term × Session :=
  match parse src with
  | .error e => (.failure (.ofParse e), s)
  | .ok forms => s.evalFormsWith ev forms .nil

/-- Reads all of a text and evaluates its forms as one. -/
def loadWith (ev : Evaluate) (src : Bytes) (s : Session) : Answer Unit × Session :=
  s.query fun env => do
    let _ ← loadText ev src env

/-- Reads all of a file and evaluates its forms as one. -/
def loadFileWith (host : Host) (ev : Evaluate) (path : Bytes) (s : Session) :
    Answer Unit × Session :=
  s.query fun env => do
    let _ ← SmallLisp.loadFile host ev path env

def evalForm (host : Host) (t : Term) (s : Session) : Answer Term × Session :=
  s.evalFormWith (eval host) t

def evalText (host : Host) (src : Bytes) (s : Session) : Answer Term × Session :=
  s.evalTextWith (eval host) src

def load (host : Host) (src : Bytes) (s : Session) : Answer Unit × Session :=
  s.loadWith (eval host) src

def loadFile (host : Host) (path : Bytes) (s : Session) : Answer Unit × Session :=
  s.loadFileWith host (eval host) path

/-- Switches to a namespace, which is created if need be. -/
def inNamespace (name : Bytes) (s : Session) : Session :=
  ⟨s.state.require name, { s.env with ns := name }⟩

/-- Loads libraries in order, up to the first that fails. -/
def loadLibraries (host : Host) : List Bytes → Session → Answer Unit × Session
  | [], s => (.value (), s)
  | name :: names, s =>
    match Library.source? name with
    | none => (.failure (.unknownLibrary name), s)
    | some src =>
      match s.load host src with
      | (.value (), s) => loadLibraries host names s
      | (.failure e, s) => (.failure (.during (Bytes.ofString "lib: load " ++ name) e), s)
      | (.timeout, s) => (.timeout, s)

/-- Expands macros at the head of a term. -/
def expand (host : Host) (t : Term) (s : Session) : Answer Term × Session :=
  s.query fun env => macroExpand (eval host) env ampleFuel t

/-- The value of a name at top level. -/
def get (name : Bytes) (s : Session) : Answer Term × Session := s.query fun env => env.get name

/-- Changes a binding of a frame at top level. -/
def set (name : Bytes) (v : Term) (s : Session) : Answer Unit × Session :=
  s.query fun env => do
    match ← Action.read fun st => st.find? env name with
    | some frame => Action.update fun st => st.define frame name v
    | none => Action.fault (.notLocal name)

/-- Binds a name in the frame at top level. -/
def define (name : Bytes) (v : Term) (s : Session) : Session :=
  { s with state := s.state.define (s.env.frames.headD 0) name v }

/-- Binds a name in the root of a namespace, which is created if need be. -/
def bind (ns name : Bytes) (v : Term) (s : Session) : Session :=
  { s with state := (s.state.require ns).bindRoot ns name v }

/-- The names bound in a namespace, if it exists. -/
def names? (ns : Bytes) (s : Session) : Option (List Bytes) :=
  (s.state.namespaces.get? ns).map Namespace.names

/-- What a namespace itself binds a name to. -/
def lookup? (ns name : Bytes) (s : Session) : Option Term :=
  (s.state.namespaces.get? ns).bind fun n => n.root.get? name

/-- The events so far, the first first, and the session without them. -/
def takeTrace (s : Session) : List Event × Session :=
  (s.state.trace.reverse, { s with state := { s.state with trace := [] } })

end Session
end SmallLisp

import SmallLisp.Error
import SmallLisp.Namespace

/-! The state of an interpreter, and the few ways in which it changes. Frames are never removed;
an environment refers to them by number. -/
namespace SmallLisp

/-- What the interpreter has written, and to where. -/
inductive Event
  | output (text : Bytes)
  | warning (text : Bytes)
  | log (line : Bytes)
deriving DecidableEq

namespace Event

/-- What an event adds to the output. -/
def printed : Event → Bytes
  | .output text => text
  | _ => []

/-- What an event adds to the diagnostics: a warning, or a log line if those are shown. -/
def reported (showLog : Bool) : Event → Bytes
  | .output _ => []
  | .warning text => text
  | .log line => if showLog then (if line.getLast? == some 10 then line else line ++ [10]) else []

end Event

/-- `dirs` are the directories of the files being loaded, the innermost first. `gensyms` and
`closures` count the symbols and functions made so far; these counters are taken not to wrap around.
The latest event comes first. -/
structure State where
  namespaces : Registry
  frames : Array (Table Term)
  dirs : List Bytes
  gensyms : Nat
  closures : Nat
  trace : List Event

namespace State

def empty : State := ⟨[], #[], [], 0, 0, []⟩

def emit (s : State) (e : Event) : State := { s with trace := e :: s.trace }

def log (s : State) (line : Bytes) : State := s.emit (.log line)

/-- A namespace that was not there, and the line logged about it. -/
def create (s : State) (name : Bytes) : State :=
  { s with namespaces := s.namespaces.insert name (Namespace.fresh name) }.log
    (Bytes.ofString "created namespace " ++ name)

/-- The namespace exists: it is created on first use, after `core`. -/
def require (s : State) (name : Bytes) : State :=
  if s.namespaces.contains name then s
  else if name == coreName || s.namespaces.contains coreName then s.create name
  else (s.create coreName).create name

/-- Binds a name in the root of an existing namespace. -/
def bindRoot (s : State) (ns name : Bytes) (v : Term) : State :=
  { s with namespaces := s.namespaces.modify ns (·.bind name v) }

def addImport (s : State) (ns other : Bytes) : State :=
  { s with namespaces := s.namespaces.modify ns (·.addImport other) }

def addAlias (s : State) (ns short target : Bytes) : State :=
  { s with namespaces := s.namespaces.modify ns (·.addAlias short target) }

/-- Adds a frame; its number is the number of frames before. -/
def addFrame (s : State) (f : Table Term) : State := { s with frames := s.frames.push f }

def frame (s : State) (i : Nat) : Table Term := s.frames.getD i []

/-- Binds a name in a frame. -/
def define (s : State) (i : Nat) (name : Bytes) (v : Term) : State :=
  { s with frames := s.frames.modify i (·.insert name v) }

def pushDir (s : State) (dir : Bytes) : State := { s with dirs := dir :: s.dirs }

def popDir (s : State) : State := { s with dirs := s.dirs.tail }

/-- The innermost frame of an environment that binds the name. -/
def find? (s : State) (env : Env) (name : Bytes) : Option Nat :=
  env.frames.find? fun i => (s.frame i).contains name

/-- The value of a name: in the frames, or else in the namespace that it names or that of the
environment. -/
def lookup (s : State) (env : Env) (name : Bytes) : Except RuntimeFault Term :=
  match env.frames.findSome? fun i => (s.frame i).get? name with
  | some v => .ok v
  | none =>
    match splitQualified name with
    | some (qualifier, rest) =>
      match s.namespaces.target? env.ns qualifier with
      | none => .error (.unknownNamespace qualifier)
      | some t =>
        match s.namespaces.resolve t rest with
        | some v => .ok v
        | none => .error (.unbound name)
    | none =>
      match s.namespaces.resolve env.ns name with
      | some v => .ok v
      | none => .error (.unbound name)

@[simp] theorem require_frames (s : State) (name : Bytes) : (s.require name).frames = s.frames := by
  unfold require
  split
  · rfl
  · split <;> rfl

@[simp] theorem addFrame_size (s : State) (f : Table Term) :
    (s.addFrame f).frames.size = s.frames.size + 1 := Array.size_push f

@[simp] theorem define_size (s : State) (i : Nat) (name : Bytes) (v : Term) :
    (s.define i name v).frames.size = s.frames.size := Array.size_modify

theorem frame_addFrame {s : State} {i : Nat} (hi : i < s.frames.size) (f : Table Term) :
    (s.addFrame f).frame i = s.frame i := by
  simp only [frame, addFrame, Array.getD_eq_getD_getElem?, Array.getElem?_push,
    if_neg (Nat.ne_of_lt hi)]

@[simp] theorem frame_addFrame_self (s : State) (f : Table Term) :
    (s.addFrame f).frame s.frames.size = f := by
  simp [frame, addFrame]

theorem frame_define_self {s : State} {i : Nat} (hi : i < s.frames.size) (name : Bytes) (v : Term) :
    (s.define i name v).frame i = (s.frame i).insert name v := by
  simp [frame, define, Array.getElem_modify, hi]

theorem frame_define_of_ne (s : State) {i j : Nat} (h : i ≠ j) (name : Bytes) (v : Term) :
    (s.define i name v).frame j = s.frame j := by
  simp [frame, define, Array.getElem?_modify, h]

/-- The frame found is one of the environment's and binds the name. -/
theorem find?_eq_some {s : State} {env : Env} {name : Bytes} {i : Nat}
    (h : s.find? env name = some i) : i ∈ env.frames ∧ (s.frame i).contains name = true :=
  ⟨List.mem_of_find?_eq_some h, List.find?_some (p := fun i => (s.frame i).contains name) h⟩

/-- The value of a name is bound in a frame of the environment or in the root of a namespace. -/
theorem lookup_source {s : State} {env : Env} {name : Bytes} {v : Term}
    (h : s.lookup env name = .ok v) :
    (∃ i ∈ env.frames, (s.frame i).get? name = some v) ∨
      ∃ ns n x, s.namespaces.get? ns = some n ∧ n.root.get? x = some v := by
  unfold lookup at h
  split at h
  case h_1 w hw =>
    cases h
    exact .inl (List.exists_of_findSome?_eq_some hw)
  case h_2 =>
    right
    split at h
    case h_1 qualifier rest _ =>
      split at h
      · cases h
      · split at h
        · cases h
          obtain ⟨ns, n, hn, hv⟩ := Registry.resolve_source ‹_›
          exact ⟨ns, n, rest, hn, hv⟩
        · cases h
    case h_2 =>
      split at h
      · cases h
        obtain ⟨ns, n, hn, hv⟩ := Registry.resolve_source ‹_›
        exact ⟨ns, n, name, hn, hv⟩
      · cases h

end State
end SmallLisp

import SmallLisp.State
import SmallLisp.Disk

/-! Actions of the interpreter. An action starts in a state and ends with a value or an error and
the state reached, or, when it was not given enough fuel, with neither. -/
namespace SmallLisp

inductive Outcome (α : Type)
  | value (a : α) (s : State)
  | failure (e : Error) (s : State)
  | timeout

def Action (α : Type) : Type := State → Outcome α

namespace Action

@[always_inline, inline]
protected def pure {α : Type} (a : α) : Action α := fun s => .value a s

@[always_inline, inline]
protected def bind {α β : Type} (m : Action α) (f : α → Action β) : Action β := fun s =>
  match m s with
  | .value a s => f a s
  | .failure e s => .failure e s
  | .timeout => .timeout

@[always_inline]
instance : Monad Action where
  pure := Action.pure
  bind := Action.bind

theorem bind_apply {α β : Type} (m : Action α) (f : α → Action β) (s : State) :
    (m >>= f) s =
      match m s with
      | .value a s => f a s
      | .failure e s => .failure e s
      | .timeout => .timeout := rfl

instance : LawfulMonad Action :=
  LawfulMonad.mk' Action
    (fun m => by funext s; change (m >>= pure) s = m s; rw [bind_apply]; cases m s <;> rfl)
    (fun _ _ => rfl)
    (fun m f g => by funext s; simp only [bind_apply]; cases m s <;> rfl)

theorem bind_eq_value {α β : Type} {m : Action α} {f : α → Action β} {s s' : State} {b : β} :
    (m >>= f) s = .value b s' ↔ ∃ a s₁, m s = .value a s₁ ∧ f a s₁ = .value b s' := by
  rw [bind_apply]
  constructor
  · intro h
    split at h
    case h_1 a s₁ hm => exact ⟨a, s₁, hm, h⟩
    case h_2 => cases h
    case h_3 => cases h
  · rintro ⟨a, s₁, hm, hf⟩
    rw [hm]
    exact hf

theorem bind_eq_failure {α β : Type} {m : Action α} {f : α → Action β} {s s' : State} {e : Error} :
    (m >>= f) s = .failure e s' ↔
      m s = .failure e s' ∨ ∃ a s₁, m s = .value a s₁ ∧ f a s₁ = .failure e s' := by
  rw [bind_apply]
  constructor
  · intro h
    split at h
    case h_1 a s₁ hm => exact .inr ⟨a, s₁, hm, h⟩
    case h_2 hm =>
      cases h
      exact .inl hm
    case h_3 => cases h
  · rintro (hm | ⟨a, s₁, hm, hf⟩)
    · rw [hm]
    · rw [hm]
      exact hf

def fail {α : Type} (e : Error) : Action α := fun s => .failure e s

def complain {α : Type} (c : Complaint) : Action α := fail (.general c)

def fault {α : Type} (f : RuntimeFault) : Action α := fail (.runtime f)

def timeout {α : Type} : Action α := fun _ => .timeout

/-- What `f` finds in the state. -/
def read {α : Type} (f : State → α) : Action α := fun s => .value (f s) s

def update (f : State → State) : Action Unit := fun s => .value () (f s)

/-- The result of a computation that does not touch the state. -/
def ofExcept {α : Type} : Except Error α → Action α
  | .ok a => Action.pure a
  | .error e => fail e

/-- Errors of the action are reported as arising in the form. -/
def inForm {α : Type} (form : Term) (m : Action α) : Action α := fun s =>
  match m s with
  | .failure e s => .failure (e.withForm form) s
  | r => r

private def dirLine (verb : String) (s : State) : Bytes :=
  Bytes.ofString verb ++ Bytes.ofString " dir " ++ s.dirs.headD [] ++ Bytes.ofString " (depth " ++
    Bytes.ofNat s.dirs.length ++ Bytes.ofString ")"

def enterDirectory (dir : Bytes) (s : State) : State :=
  let s := s.pushDir dir
  s.log (dirLine "push" s)

def leaveDirectory (s : State) : State := (s.log (dirLine "pop" s)).popDir

/-- The action with a directory on top of the stack of directories, which is taken off again
however the action ends. -/
def inDirectory {α : Type} (dir : Bytes) (m : Action α) : Action α := fun s =>
  match m (enterDirectory dir s) with
  | .value a s => .value a (leaveDirectory s)
  | .failure e s => .failure e (leaveDirectory s)
  | .timeout => .timeout

end Action

/-- The surroundings of a program that it cannot change: the files, the directories searched after
that of the loading file, and whether output can be written. -/
structure Host where
  disk : Disk
  libPaths : List Bytes
  outputFails : Bool

end SmallLisp

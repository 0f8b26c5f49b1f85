import SmallLisp.Proofs.NamespaceSwitch
import SmallLisp.Session

/-! Loading a text against evaluating its forms one by one. Loading evaluates all forms as one `do`
and leaves the environment of the session alone; evaluating them at top level switches it after each
form that completes. The values, the errors and the states reached are the same. -/
namespace SmallLisp

def Loads (host : Host) (src : Bytes) (env : Env) (s : State) (r : Outcome Term) : Prop :=
  r ≠ .timeout ∧ ∃ fuel, loadText (evalWith host fuel) src env s = r

namespace Session

/-- Evaluating the forms of a text one by one ends with this answer and this session. -/
def Answers (host : Host) (src : Bytes) (s : Session) (a : Answer Term) (s' : Session) : Prop :=
  a ≠ .timeout ∧ ∃ fuel, s.evalTextWith (evalWith host fuel) src = (a, s')

/-- How the evaluation of forms came to its end, with `rest` not yet completed: none is left, or the
first one fails. -/
def Stops (host : Host) (rest : List Term) (env : Env) (s s' : State) : Answer Term → Prop
  | .value _ => rest = [] ∧ s = s'
  | .failure e => ∃ t ts, rest = t :: ts ∧ Evaluates host t env s (.failure e s')
  | .timeout => False

/-- The outcome of a request as seen from a form around it. -/
def outcomeIn (form : Term) : Answer Term × Session → Outcome Term
  | (.value v, s) => .value v s.state
  | (.failure e, s) => .failure (e.withForm form) s.state
  | (.timeout, _) => .timeout

theorem outcomeIn_eq_value {form v : Term} {r : Answer Term × Session} {st : State} :
    outcomeIn form r = .value v st ↔ ∃ env, r = (.value v, ⟨st, env⟩) := by
  constructor
  · intro h
    match r, h with
    | (.value _, s), rfl => exact ⟨s.env, rfl⟩
  · rintro ⟨env, rfl⟩
    rfl

theorem outcomeIn_eq_failure {form : Term} {r : Answer Term × Session} {e : Error} {st : State} :
    outcomeIn form r = .failure e st ↔
      ∃ e' env, r = (.failure e', ⟨st, env⟩) ∧ e = e'.withForm form := by
  constructor
  · intro h
    match r, h with
    | (.failure e', s), rfl => exact ⟨e', s.env, rfl, rfl⟩
  · rintro ⟨e', env, rfl, rfl⟩
    rfl

/-! ## One form after the other -/

/-- The session goes through the same states as the forms in turn. -/
theorem outcomeIn_evalForms (ev : Evaluate) (form : Term) (forms : List Term) (w : Term)
    (s : Session) :
    outcomeIn form (s.evalFormsWith ev forms w) =
      match Action.inForm form (ev.inTurn forms w s.env) s.state with
      | .value (v, _) st => .value v st
      | .failure e st => .failure e st
      | .timeout => .timeout := by
  induction forms generalizing w s with
  | nil => rfl
  | cons t ts ih =>
    simp only [Action.inForm, inTurn_cons, evalFormsWith, evalFormWith, perform]
    cases ev t s.env s.state with
    | value p st => exact ih p.1 ⟨st, p.2⟩
    | failure e st => rfl
    | timeout => rfl

/-- The environment of the session is switched by the forms that completed, and by no other. -/
theorem evalForms_switches {host : Host} {fuel : Nat} {forms : List Term} {w : Term}
    {s s' : Session} {a : Answer Term} (ha : a ≠ .timeout)
    (h : s.evalFormsWith (evalWith host fuel) forms w = (a, s')) :
    ∃ completed rest names st, forms = completed ++ rest ∧
      Completes host completed s.env s.state names s'.env st ∧
      Stops host rest s'.env st s'.state a ∧ s'.env = s.env.switched names := by
  induction forms generalizing w s with
  | nil =>
    cases h
    exact ⟨[], [], [], _, rfl, .nil, ⟨rfl, rfl⟩, rfl⟩
  | cons t ts ih =>
    simp only [evalFormsWith, evalFormWith, perform] at h
    cases ht : evalWith host fuel t s.env s.state with
    | timeout =>
      simp only [ht] at h
      cases h
      exact absurd rfl ha
    | failure e st =>
      simp only [ht] at h
      cases h
      exact ⟨[], t :: ts, [], s.state, rfl, .nil, ⟨t, ts, rfl, nofun, fuel, ht⟩, rfl⟩
    | value p st =>
      simp only [ht] at h
      obtain ⟨names, hnames, henv⟩ := evalWith_switches host fuel t s.env s.state p.1 p.2 st ht
      obtain ⟨completed, rest, more, st', rfl, hcompleted, hstops, hlast⟩ := ih h
      refine ⟨t :: completed, rest, names ++ more, st', rfl, ?_, hstops, ?_⟩
      · exact .cons (evaluates_of_evalWith ht) hnames hcompleted
      · rw [hlast, switched_append, ← henv]

/-! ## All forms as one -/

/-- Loading a text gives the outcome of its forms one by one with less fuel, as seen from the `do`
around them. -/
theorem loadText_outcome {host : Host} {fuel : Nat} {src : Bytes} {forms : List Term} {s : Session}
    (hsrc : parse src = .ok forms) (hdo : macroOf? s.state s.env (.sym "do") = none) :
    loadText (evalWith host (fuel + 1)) src s.env s.state =
      outcomeIn (sequenceOf forms) (s.evalTextWith (evalWith host fuel) src) := by
  simp only [loadText, evalTextWith, hsrc, outcomeIn_evalForms, Evaluate.value, Action.bind_apply]
  rw [sequenceOf, evalWith_do host fuel hdo specialForm_do]
  cases Action.inForm _ ((evalWith host fuel).inTurn forms .nil s.env) s.state <;> rfl

theorem query_env {α : Type} (m : Env → Action α) (s : Session) : (s.query m).2.env = s.env := by
  unfold query perform
  rw [Action.bind_apply]
  cases m s.env s.state <;> rfl

/-! ## The one against the other -/

section

variable {host : Host} {src : Bytes} {forms : List Term} {s : Session} {st : State}

theorem loads_iff (hsrc : parse src = .ok forms) (hdo : macroOf? s.state s.env (.sym "do") = none)
    {r : Outcome Term} :
    Loads host src s.env s.state r ↔ r ≠ .timeout ∧
      ∃ fuel, outcomeIn (sequenceOf forms) (s.evalTextWith (evalWith host fuel) src) = r := by
  refine and_congr_right fun hr => ?_
  constructor
  · rintro ⟨fuel, h⟩
    cases fuel with
    | zero =>
      simp only [loadText, hsrc] at h
      exact absurd h.symm hr
    | succ fuel => exact ⟨fuel, (loadText_outcome hsrc hdo).symm.trans h⟩
  · rintro ⟨fuel, h⟩
    exact ⟨fuel + 1, (loadText_outcome hsrc hdo).trans h⟩

theorem loads_value (hsrc : parse src = .ok forms)
    (hdo : macroOf? s.state s.env (.sym "do") = none) {v : Term} :
    Loads host src s.env s.state (.value v st) ↔
      ∃ env, Answers host src s (.value v) ⟨st, env⟩ := by
  simp only [loads_iff hsrc hdo, outcomeIn_eq_value, Answers]
  constructor
  · rintro ⟨-, fuel, env, h⟩
    exact ⟨env, nofun, fuel, h⟩
  · rintro ⟨env, -, fuel, h⟩
    exact ⟨nofun, fuel, env, h⟩

theorem loads_failure (hsrc : parse src = .ok forms)
    (hdo : macroOf? s.state s.env (.sym "do") = none) {e : Error} :
    Loads host src s.env s.state (.failure e st) ↔
      ∃ e' env, Answers host src s (.failure e') ⟨st, env⟩ ∧
        e = e'.withForm (sequenceOf forms) := by
  simp only [loads_iff hsrc hdo, outcomeIn_eq_failure, Answers]
  constructor
  · rintro ⟨-, fuel, e', env, h, he⟩
    exact ⟨e', env, ⟨nofun, fuel, h⟩, he⟩
  · rintro ⟨e', env, ⟨-, fuel, h⟩, he⟩
    exact ⟨nofun, fuel, e', env, h, he⟩

variable (host) in
/-- Loading a text and evaluating its forms one by one end in the same cases: with the same value
and state, or with the same error and state, but for the `do` that loading may report the error in.
Loading leaves the environment of the session as it is. Evaluating switches it by the `in-ns` forms
that ran at top level in the forms that completed: all forms, or those before the first that
fails. -/
theorem load_agrees_with_eval (hsrc : parse src = .ok forms)
    (hdo : macroOf? s.state s.env (.sym "do") = none) :
    (∀ v st, Loads host src s.env s.state (.value v st) ↔
      ∃ env, Answers host src s (.value v) ⟨st, env⟩) ∧
    (∀ e st, Loads host src s.env s.state (.failure e st) ↔
      ∃ e' env, Answers host src s (.failure e') ⟨st, env⟩ ∧
        e = e'.withForm (sequenceOf forms)) ∧
    (∀ fuel, (s.loadWith (evalWith host fuel) src).2.env = s.env) ∧
    (∀ fuel path, (s.loadFileWith host (evalWith host fuel) path).2.env = s.env) ∧
    ∀ a s', Answers host src s a s' →
      ∃ completed rest names st, forms = completed ++ rest ∧
        Completes host completed s.env s.state names s'.env st ∧
        Stops host rest s'.env st s'.state a ∧ s'.env = s.env.switched names := by
  refine ⟨fun v st => loads_value hsrc hdo, fun e st => loads_failure hsrc hdo,
    fun fuel => query_env _ s, fun fuel path => query_env _ s, ?_⟩
  rintro a s' ⟨ha, fuel, h⟩
  simp only [evalTextWith, hsrc] at h
  exact evalForms_switches ha h

end

/-! ### A switch that stays and one that does not -/

/-- `(do (in-ns b) y)` -/
def switchAndFail : Term := .list [.sym "do", .list [.sym "in-ns", .sym "b"], .sym "y"]

def switchingText : Bytes := Bytes.ofString "(in-ns a) (do (in-ns b) y) 1"

/-- The second form fails after its own switch: both ways end with its error in the state that it
left, and the session of the forms one by one is in the namespace of the first. -/
theorem switchingText_loaded :
    let session : Session := ⟨State.empty, ⟨[], []⟩⟩
    let e := (Error.runtime (.unbound (Bytes.ofString "y"))).withForm switchAndFail
    let st := (State.empty.require (Bytes.ofString "a")).require (Bytes.ofString "b")
    Answers Host.bare switchingText session (.failure e) ⟨st, ⟨[], Bytes.ofString "a"⟩⟩ ∧
      Loads Host.bare switchingText session.env session.state (.failure e st) := by
  intro session e st
  have hsrc : parse switchingText =
      .ok [.list [.sym "in-ns", .sym "a"], switchAndFail, .int 1] := rfl
  have hanswers : Answers Host.bare switchingText session (.failure e)
      ⟨st, ⟨[], Bytes.ofString "a"⟩⟩ := by
    refine ⟨nofun, 4, ?_⟩
    simp only [evalTextWith, hsrc]
    rfl
  have hagrees := load_agrees_with_eval Host.bare hsrc (s := session) rfl
  exact ⟨hanswers, (hagrees.2.1 e st).mpr ⟨e, _, hanswers, rfl⟩⟩

end Session
end SmallLisp

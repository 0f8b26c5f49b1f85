import SmallLisp.Proofs.TailCalls

/-! Forms in sequence. A `do` evaluates all its forms but the last by nested evaluations and goes on
with the last one in its own loop. That is the same as evaluating its forms in turn, each in the
environment that the one before it hands back, with errors reported in the `do` unless they are
reported in a form inside of it (`evalWith_do`). -/
namespace SmallLisp

/-- Evaluates forms one after the other, each in the environment handed back by the one before. The
value is the last one, or `v` if there are no forms. -/
def Evaluate.inTurn (ev : Evaluate) : List Term → Term → Env → Action (Term × Env)
  | [], v, env => return (v, env)
  | t :: ts, _, env => do
    let (v, env) ← ev t env
    ev.inTurn ts v env

theorem inTurn_cons (ev : Evaluate) (t : Term) (ts : List Term) (v : Term) (env : Env) (s : State) :
    ev.inTurn (t :: ts) v env s =
      match ev t env s with
      | .value (v, env) s => ev.inTurn ts v env s
      | .failure e s => .failure e s
      | .timeout => .timeout := by
  rw [Evaluate.inTurn, Action.bind_apply]
  cases ev t env s <;> rfl

/-! ## Errors are reported once -/

/-- No further form is attached to the error. -/
def Error.Reported (e : Error) : Prop := ∀ form, e.withForm form = e

theorem withForm_reported (e : Error) (form : Term) : (e.withForm form).Reported := by
  intro other
  unfold Error.withForm
  by_cases h : (e.form?.isNone && e.takesForm) = true
  · simp [h, Error.form?]
  · simp [h]

/-- Errors of a loop that has come to a list form are reported in that form or in one inside of
it. -/
theorem run_reported (host : Host) (fuel : Nat) {c : Cursor} (hc : c.Coherent) {s s' : State}
    {e : Error} (hf : c.form.isForm = true ∨ c.enclosing.isSome = true)
    (h : run host fuel c s = .failure e s') : e.Reported := by
  induction fuel generalizing c s with
  | zero => cases h
  | succ fuel ih =>
    rw [run_succ] at h
    cases hstep : step host (evalWith host fuel) fuel c s with
    | timeout => simp [hstep] at h
    | value r s₁ =>
      simp only [hstep] at h
      cases r with
      | done v out => cases h
      | next d =>
        obtain ⟨hd, hlast, -⟩ := tailStep_cursor hc ⟨fuel, hstep⟩
        exact ih hd (.inr (by simp [hlast])) h
    | failure e₁ s₁ =>
      simp only [hstep] at h
      cases h
      cases hform : c.form.isForm with
      | true =>
        match hlist : c.form, hform with
        | .list (head :: args), _ =>
          rw [step_form host _ fuel hlist, Action.inForm] at hstep
          split at hstep
          · cases hstep
            exact withForm_reported _ _
          · next hne => exact absurd hstep (hne _ _)
      | false =>
        obtain ⟨last, hlast⟩ := Option.isSome_iff_exists.mp (hf.resolve_left (by simp [hform]))
        rw [step_atom host _ fuel hform] at hstep
        split at hstep
        · cases hstep
        · cases hstep
          simp only [Error.inTail, hlast, hform]
          exact withForm_reported _ _
        · cases hstep

/-! ## The loop of a `do` -/

/-- What is left of the loop after a step. -/
def finishRun (host : Host) (fuel : Nat) : Outcome Step → Outcome (Term × Env)
  | .value (.done v out) s => .value (v, out) s
  | .value (.next d) s => run host fuel d s
  | .failure e s => .failure e s
  | .timeout => .timeout

theorem run_eq_finishRun (host : Host) (fuel : Nat) (c : Cursor) (s : State) :
    run host (fuel + 1) c s = finishRun host fuel (step host (evalWith host fuel) fuel c s) := by
  rw [run_succ]
  rfl

/-- The last form in tail position is evaluated as by itself, inside the `do`. -/
theorem run_last (host : Host) (fuel : Nat) (form last : Term) (env : Env) (s : State) :
    run host fuel ⟨last, env, env, true, some form⟩ s =
      Action.inForm form (evalWith host fuel last env) s := by
  have hco : Cursor.Coherent ⟨last, env, env, true, some form⟩ := fun _ => rfl
  rw [run_eq_handBack host fuel hco s, Action.inForm]
  cases h : evalWith host fuel last env s with
  | value p s' => rfl
  | timeout => rfl
  | failure e s' =>
    cases hlast : last.isForm with
    | false => simp [Outcome.handBack, Error.inTail, hlast]
    | true =>
      have hrep := run_reported host fuel (Cursor.start_coherent last env) (.inl hlast) h
      simp [Outcome.handBack, Error.inTail, hlast, hrep form]

theorem sequence_cons (ev : Evaluate) (c : Cursor) (t u : Term) (us : List Term) (s : State) :
    c.sequence ev (t :: u :: us) s =
      match ev t c.env s with
      | .value (_, env) s => (c.switch env).sequence ev (u :: us) s
      | .failure e s => .failure e s
      | .timeout => .timeout := by
  rw [Cursor.sequence, Action.bind_apply]
  · cases ev t c.env s <;> rfl
  · simp

theorem finishRun_sequence (host : Host) (fuel : Nat) (form : Term) (forms : List Term)
    (f : Term) (env : Env) (s : State) :
    finishRun host fuel (Action.inForm form
        (Cursor.sequence ⟨f, env, env, true, some form⟩ (evalWith host fuel) forms) s) =
      Action.inForm form ((evalWith host fuel).inTurn forms .nil env) s := by
  induction forms generalizing env s with
  | nil => rfl
  | cons t ts ih =>
    cases ts with
    | nil =>
      have hturn : (evalWith host fuel).inTurn [t] .nil env s = evalWith host fuel t env s := by
        rw [inTurn_cons]
        cases evalWith host fuel t env s <;> rfl
      have hlast := run_last host fuel form t env s
      simp only [Action.inForm, hturn] at hlast ⊢
      exact hlast
    | cons u us =>
      simp only [Action.inForm, sequence_cons, inTurn_cons]
      cases evalWith host fuel t env s with
      | timeout => rfl
      | failure e s' => rfl
      | value p s' =>
        have hrest := ih p.2 s'
        simp only [Action.inForm, inTurn_cons] at hrest
        exact hrest

/-- The forms of a `do` are evaluated in turn. -/
theorem evalWith_do (host : Host) (fuel : Nat) {head : Term} {env : Env} {s : State}
    (hm : macroOf? s env head = none) (hf : specialForm? head = some .sequence)
    (forms : List Term) :
    evalWith host (fuel + 1) (.list (head :: forms)) env s =
      Action.inForm (.list (head :: forms)) ((evalWith host fuel).inTurn forms .nil env) s := by
  rw [evalWith, run_eq_finishRun, ← finishRun_sequence host fuel _ forms (.list (head :: forms)),
    step_form host _ fuel rfl]
  have hspecial := stepForm_special host (evalWith host fuel) fuel forms
    (c := ⟨.list (head :: forms), env, env, true, some (.list (head :: forms))⟩) hm hf
  simp only [Action.inForm, Cursor.start]
  rw [hspecial]
  rfl

theorem specialForm_do : specialForm? (.sym "do") = some .sequence := by decide

end SmallLisp

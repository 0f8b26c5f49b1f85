import SmallLisp.Proofs.TailCalls

/-! Macro calls. The evaluation of a form expands macros at its head step by step, as `macroExpand`
does, and goes on with what comes out; so evaluating a form is expanding it and evaluating the
result where the expansion left off (`evaluates_of_expansion`). A fully expanded form is not
expanded further. -/
namespace SmallLisp

def macroCall? (s : State) (env : Env) : Term → Option (Closure Term × List Term)
  | .list (head :: args) => (macroOf? s env head).map fun m => (m, args)
  | _ => none

def Expands (host : Host) (form : Term) (env : Env) (s : State) (r : Outcome Term) : Prop :=
  r ≠ .timeout ∧ ∃ fuel, macroExpand (evalWith host fuel) env fuel form s = r

def Outcome.bare {α : Type} : Outcome α → Outcome α
  | .value a s => .value a s
  | .failure e s => .failure e.bare s
  | .timeout => .timeout

/-! ## One expansion -/

section

variable {s : State} {env : Env} {form : Term}

theorem macroCall_eq_some {m : Closure Term} {args : List Term}
    (h : macroCall? s env form = some (m, args)) :
    ∃ head, form = .list (head :: args) ∧ macroOf? s env head = some m := by
  match form, h with
  | .list (head :: args'), h =>
    obtain ⟨m', hm, heq⟩ := Option.map_eq_some_iff.mp h
    obtain ⟨rfl, rfl⟩ := Prod.mk.inj heq
    exact ⟨head, rfl, hm⟩

theorem macroCall_isForm {call : Closure Term × List Term} (h : macroCall? s env form = some call) :
    form.isForm = true := by
  match form, h with
  | .list (_ :: _), _ => rfl

theorem macroExpand_of_call (ev : Evaluate) (fuel : Nat) {m : Closure Term} {args : List Term}
    (h : macroCall? s env form = some (m, args)) :
    macroExpand ev env (fuel + 1) form s =
      match m.expand ev args s with
      | .value t s' => macroExpand ev env fuel t s'
      | .failure e s' => .failure (e.withForm form) s'
      | .timeout => .timeout := by
  obtain ⟨head, rfl, hm⟩ := macroCall_eq_some h
  rw [macroExpand, Action.bind_apply]
  simp only [Action.read, hm, Action.bind_apply, Action.inForm]
  cases m.expand ev args s <;> rfl

theorem macroExpand_of_none (ev : Evaluate) (fuel : Nat) (h : macroCall? s env form = none) :
    macroExpand ev env (fuel + 1) form s = .value form s := by
  match form, h with
  | .list (head :: args), h =>
    have hm : macroOf? s env head = none := Option.map_eq_none_iff.mp h
    rw [macroExpand, Action.bind_apply]
    simp only [Action.read, hm]
    rfl
  | .list [], _ | .atom _, _ | .dict _, _ | .native _, _ | .closure _, _ => rfl

theorem step_of_call (host : Host) (ev : Evaluate) (fuel : Nat) {c : Cursor} {m : Closure Term}
    {args : List Term} (h : macroCall? s c.env c.form = some (m, args)) :
    step host ev fuel c s =
      match m.expand ev args s with
      | .value t s' => .value (.next { c with form := t, enclosing := some c.form }) s'
      | .failure e s' => .failure (e.withForm c.form) s'
      | .timeout => .timeout := by
  obtain ⟨head, hform, hm⟩ := macroCall_eq_some h
  have hexpand := stepForm_expand host ev fuel args (c := { c with enclosing := some c.form }) hm
  rw [step_form host ev fuel hform, Action.inForm, hexpand, Action.bind_apply]
  cases m.expand ev args s <;> rfl

end

/-! ## Expansion without fuel -/

theorem macroExpand_mono (host : Host) (form : Term) (env : Env) {fuel fuel' : Nat}
    (hle : fuel ≤ fuel') :
    (macroExpand (evalWith host fuel) env fuel form).Below
      (macroExpand (evalWith host fuel') env fuel' form) :=
  macroExpand_below (evalWith_below host hle) env hle form

theorem expand_mono {host : Host} {m : Closure Term} {args : List Term} {s : State}
    {r : Outcome Term} {fuel fuel' : Nat} (h : m.expand (evalWith host fuel) args s = r)
    (hr : r ≠ .timeout) (hle : fuel ≤ fuel') : m.expand (evalWith host fuel') args s = r := by
  subst h
  exact ((expand_below (evalWith_below host hle) m args s).resolve_left hr).symm

theorem expands_unique {host : Host} {form : Term} {env : Env} {s : State} {r r' : Outcome Term}
    (h : Expands host form env s r) (h' : Expands host form env s r') : r = r' := by
  obtain ⟨hr, fuel, rfl⟩ := h
  obtain ⟨hr', fuel', rfl⟩ := h'
  exact Action.Below.agree (fun hle => macroExpand_mono host form env hle) hr hr'

theorem expands_of_none {host : Host} {form : Term} {env : Env} {s : State}
    (h : macroCall? s env form = none) : Expands host form env s (.value form s) :=
  ⟨nofun, 1, macroExpand_of_none _ 0 h⟩

/-- A form whose first expansion is known expands as that does. -/
theorem Expands.after_call {host : Host} {form t : Term} {env : Env} {s s' : State}
    {m : Closure Term} {args : List Term} {r : Outcome Term} {fuel : Nat}
    (hr : Expands host t env s' r) (h : macroCall? s env form = some (m, args))
    (ht : m.expand (evalWith host fuel) args s = .value t s') : Expands host form env s r := by
  obtain ⟨hne, n, rfl⟩ := hr
  refine ⟨hne, max n fuel + 1, ?_⟩
  have hle : n ≤ max n fuel + 1 := by omega
  have hrest := macroExpand_below (evalWith_below host hle) env (Nat.le_max_left n fuel) t s'
  rw [macroExpand_of_call _ _ h, expand_mono ht nofun (by omega)]
  exact (hrest.resolve_left hne).symm

/-- An expansion that ends with a form has expanded all macros at its head. -/
theorem macroCall_of_expanded {ev : Evaluate} {env : Env} {fuel : Nat} {form t : Term}
    {s s' : State} (h : macroExpand ev env fuel form s = .value t s') :
    macroCall? s' env t = none := by
  induction fuel generalizing form s with
  | zero => cases h
  | succ fuel ih =>
    cases hcall : macroCall? s env form with
    | none =>
      rw [macroExpand_of_none ev fuel hcall] at h
      cases h
      exact hcall
    | some call =>
      rw [macroExpand_of_call ev fuel hcall] at h
      cases hx : call.1.expand ev call.2 s with
      | value u s₁ => simp only [hx] at h; exact ih h
      | failure e s₁ => simp [hx] at h
      | timeout => simp [hx] at h

/-! ## Evaluation after expansion -/

theorem handBack_none (form : Term) (r : Outcome (Term × Env)) : r.handBack form none none = r := by
  cases r <;> rfl

theorem bare_handBack (form : Term) (last : Option Term) (r : Outcome (Term × Env)) :
    (r.handBack form last none).bare = r.bare := by
  cases r with
  | value p s => rfl
  | timeout => rfl
  | failure e s =>
    cases last with
    | none => rfl
    | some l =>
      simp only [Outcome.handBack, Outcome.bare, Error.inTail]
      split
      · rfl
      · rw [Error.bare_withForm]

/-- After one expansion the evaluation goes on as a fresh one. -/
theorem evaluates_of_call {host : Host} {form t : Term} {env : Env} {s s' : State}
    {m : Closure Term} {args : List Term} {fuel : Nat}
    (h : macroCall? s env form = some (m, args))
    (ht : m.expand (evalWith host fuel) args s = .value t s') {r : Outcome (Term × Env)} :
    Evaluates host form env s r ↔
      ∃ r', Evaluates host t env s' r' ∧ r = r'.handBack t (some form) none := by
  have hstep : TailStep host (Cursor.start form env) s ⟨t, env, env, true, some form⟩ s' := by
    refine ⟨fuel, ?_⟩
    rw [step_of_call host _ fuel h, ht]
    rfl
  have hco : Cursor.Coherent ⟨t, env, env, true, some form⟩ := fun _ => rfl
  exact (returns_tailStep hstep).trans (returns_iff_evaluates hco)

/-- The evaluation of a form that expands to `t` is that of `t`, but an error of an atom is reported
in the last form that was expanded. -/
theorem evaluates_of_expansion {host : Host} {fuel n : Nat} {form t : Term} {env : Env}
    {s s' : State} (h : macroExpand (evalWith host fuel) env n form s = .value t s') :
    ∃ last, ∀ r, Evaluates host form env s r ↔
      ∃ r', Evaluates host t env s' r' ∧ r = r'.handBack t last none := by
  induction n generalizing form s with
  | zero => cases h
  | succ n ih =>
    cases hcall : macroCall? s env form with
    | none =>
      rw [macroExpand_of_none _ n hcall] at h
      cases h
      exact ⟨none, fun r => by simp [handBack_none]⟩
    | some call =>
      rw [macroExpand_of_call _ n hcall] at h
      cases hx : call.1.expand (evalWith host fuel) call.2 s with
      | failure e s₁ => simp [hx] at h
      | timeout => simp [hx] at h
      | value u s₁ =>
        simp only [hx] at h
        cases hu : u.isForm with
        | true =>
          obtain ⟨last, hlast⟩ := ih h
          refine ⟨last, fun r => ?_⟩
          rw [evaluates_of_call hcall hx]
          constructor
          · rintro ⟨r₁, hr₁, rfl⟩
            obtain ⟨r', hr', rfl⟩ := (hlast r₁).mp hr₁
            exact ⟨r', hr', handBack_handBack hu t (some form) last none none r'⟩
          · rintro ⟨r', hr', rfl⟩
            refine ⟨_, (hlast _).mpr ⟨r', hr', rfl⟩, ?_⟩
            exact (handBack_handBack hu t (some form) last none none r').symm
        | false =>
          -- an atom is not expanded, so this was the last step
          have hnone : macroCall? s₁ env u = none := by
            cases hc : macroCall? s₁ env u with
            | none => rfl
            | some c => rw [macroCall_isForm hc] at hu; cases hu
          cases n with
          | zero => cases h
          | succ n =>
            rw [macroExpand_of_none _ n hnone] at h
            cases h
            exact ⟨some form, fun r => evaluates_of_call hcall hx⟩

theorem macroExpand_failure_isForm {ev : Evaluate} {env : Env} {n : Nat} {form : Term}
    {s s' : State} {e : Error} (h : macroExpand ev env n form s = .failure e s') :
    form.isForm = true := by
  cases n with
  | zero => cases h
  | succ n =>
    cases hcall : macroCall? s env form with
    | some call => exact macroCall_isForm hcall
    | none =>
      rw [macroExpand_of_none ev n hcall] at h
      cases h

/-- An error of the expansion is the error of the evaluation. -/
theorem evaluates_of_failed_expansion {host : Host} {fuel n : Nat} {form : Term} {env : Env}
    {s s' : State} {e : Error}
    (h : macroExpand (evalWith host fuel) env n form s = .failure e s') :
    Evaluates host form env s (.failure e s') := by
  induction n generalizing form s with
  | zero => cases h
  | succ n ih =>
    cases hcall : macroCall? s env form with
    | none =>
      rw [macroExpand_of_none _ n hcall] at h
      cases h
    | some call =>
      rw [macroExpand_of_call _ n hcall] at h
      cases hx : call.1.expand (evalWith host fuel) call.2 s with
      | timeout => simp [hx] at h
      | failure e₁ s₁ =>
        simp only [hx] at h
        cases h
        refine ⟨nofun, fuel + 1, ?_⟩
        rw [run_succ, step_of_call host _ fuel hcall, hx]
        rfl
      | value u s₁ =>
        simp only [hx] at h
        have hu := macroExpand_failure_isForm h
        refine (evaluates_of_call hcall hx).mpr ⟨_, ih h, ?_⟩
        simp [Outcome.handBack, Error.inTail, hu]

/-- If the evaluation of a form ends then so does its expansion. -/
theorem expands_of_evaluates {host : Host} {form : Term} {env : Env} {s : State}
    {r : Outcome (Term × Env)} (h : Evaluates host form env s r) :
    ∃ r', Expands host form env s r' := by
  obtain ⟨hr, fuel, rfl⟩ := h
  induction fuel generalizing form s with
  | zero => exact absurd rfl hr
  | succ fuel ih =>
    cases hcall : macroCall? s env form with
    | none => exact ⟨_, expands_of_none hcall⟩
    | some call =>
      rw [run_succ, step_of_call host _ fuel hcall] at hr
      cases hx : call.1.expand (evalWith host fuel) call.2 s with
      | timeout => simp [hx] at hr
      | failure e s₁ =>
        refine ⟨.failure (e.withForm form) s₁, nofun, fuel + 1, ?_⟩
        rw [macroExpand_of_call _ fuel hcall, expand_mono hx nofun (Nat.le_succ fuel)]
      | value u s₁ =>
        simp only [hx] at hr
        have hco : Cursor.Coherent ⟨u, env, env, true, some form⟩ := fun _ => rfl
        have hrun := run_eq_handBack host fuel hco s₁
        have hu : evalWith host fuel u env s₁ ≠ .timeout := by
          intro ht
          rw [ht] at hrun
          exact hr hrun
        obtain ⟨r', hr'⟩ := ih hu
        exact ⟨r', hr'.after_call hcall hx⟩

/-- Evaluating a form is expanding it and evaluating what comes out, in the state that the expansion
left: with the same value, environment and state, or with the same error but for the form it is
reported in. An error of the expansion is that of the evaluation, and if the evaluation ends then so
does the expansion. A form that was expanded calls no macro; it expands to itself and changes
nothing. -/
theorem evaluation_expands_first (host : Host) (form : Term) (env : Env) (s : State) :
    (∀ t s₁, Expands host form env s (.value t s₁) →
      macroCall? s₁ env t = none ∧
      (∀ r, Evaluates host form env s r →
        ∃ r', Evaluates host t env s₁ r' ∧ r.bare = r'.bare) ∧
      (∀ r', Evaluates host t env s₁ r' →
        ∃ r, Evaluates host form env s r ∧ r.bare = r'.bare) ∧
      ∀ r, Expands host t env s₁ r ↔ r = .value t s₁) ∧
    (∀ e s₁, Expands host form env s (.failure e s₁) →
      Evaluates host form env s (.failure e s₁)) ∧
    ∀ r, Evaluates host form env s r → ∃ r', Expands host form env s r' := by
  refine ⟨fun t s₁ h => ?_, fun e s₁ h => ?_, fun r h => expands_of_evaluates h⟩
  · obtain ⟨-, fuel, hfuel⟩ := h
    obtain ⟨last, hlast⟩ := evaluates_of_expansion hfuel
    have hdone : macroCall? s₁ env t = none := macroCall_of_expanded hfuel
    have hagain : Expands host t env s₁ (.value t s₁) := expands_of_none hdone
    refine ⟨hdone, fun r hr => ?_, fun r' hr' => ?_, fun r => ?_⟩
    · obtain ⟨r', hr', rfl⟩ := (hlast r).mp hr
      exact ⟨r', hr', bare_handBack t last r'⟩
    · exact ⟨_, (hlast _).mpr ⟨r', hr', rfl⟩, bare_handBack t last r'⟩
    · constructor
      · intro hr
        exact expands_unique hr hagain
      · rintro rfl
        exact hagain
  · obtain ⟨-, fuel, hfuel⟩ := h
    exact evaluates_of_failed_expansion hfuel

/-! ### A chain of two macros -/

/-- A macro without parameters that expands to `t`, in the namespace with the empty name. -/
def constantMacro (t : Term) : Closure Term :=
  ⟨0, true, [], [], [], none, [.list [.sym "quote", t]], ⟨[], []⟩⟩

/-- `a` stands for `(b)`, and that for the symbol `c`, which is not bound. -/
def twoMacros : State :=
  { State.empty with namespaces := [([], ⟨[],
      [(Bytes.ofString "a", .closure (constantMacro (.list [.sym "b"]))),
        (Bytes.ofString "b", .closure (constantMacro (.sym "c")))], [], []⟩)] }

theorem twoMacros_expanded :
    Expands Host.bare (.list [.sym "a"]) ⟨[], []⟩ twoMacros
      (.value (.sym "c") ((twoMacros.addFrame []).addFrame [])) := ⟨nofun, 3, rfl⟩

theorem twoMacros_error :
    ∃ r, Evaluates Host.bare (.list [.sym "a"]) ⟨[], []⟩ twoMacros r ∧
      r.bare = .failure (.runtime (.unbound (Bytes.ofString "c")))
        ((twoMacros.addFrame []).addFrame []) := by
  have hsymbol : Evaluates Host.bare (.sym "c") ⟨[], []⟩ ((twoMacros.addFrame []).addFrame [])
      (.failure (.runtime (.unbound (Bytes.ofString "c")))
        ((twoMacros.addFrame []).addFrame [])) := ⟨nofun, 1, rfl⟩
  have hfirst := (evaluation_expands_first Host.bare (.list [.sym "a"]) ⟨[], []⟩ twoMacros).1
  exact (hfirst _ _ twoMacros_expanded).2.2.1 _ hsymbol

end SmallLisp

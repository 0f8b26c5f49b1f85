import SmallLisp.Proofs.Nesting

/-! The form that an error is reported in. Errors of the program get the form that they arose in, at
the first list form that they pass on their way out, and no other after that; errors of other kinds
get none. -/
namespace SmallLisp

/-- At most one form is attached to the error, a list form, and only if it takes one. -/
def Error.Single (e : Error) : Prop :=
  e.forms = [] ∨ e.takesForm = true ∧ ∃ t, e.forms = [t] ∧ t.isForm = true

theorem Error.Single.withForm {e : Error} (h : e.Single) {form : Term}
    (hform : form.isForm = true) : (e.withForm form).Single := by
  unfold Error.withForm
  split
  case isTrue hc =>
    rw [Bool.and_eq_true, Option.isNone_iff_eq_none, form?_eq_head, List.head?_eq_none_iff] at hc
    refine .inr ⟨hc.2, form, ?_, hform⟩
    rw [forms, hc.1]
  case isFalse => exact h

/-- An error that takes a form is not left without one by a list form. -/
theorem Error.Reported.forms_ne_nil {e : Error} (h : e.Reported) (htakes : e.takesForm = true) :
    e.forms ≠ [] := by
  intro hnone
  -- any form would be attached now, and the error would not stay the same
  have hattached : e.withForm .nil = .inForm .nil e := by
    simp [withForm, form?_eq_head, hnone, htakes]
  have hforms := congrArg forms ((h .nil).symm.trans hattached)
  rw [forms, hnone] at hforms
  cases hforms

/-- An action attaches at most one form if the evaluations on its way do. -/
theorem Composed.single {assigns : Bool} {own : List Nat} {α : Type} {m : Evaluate → Action α}
    (h : Composed assigns own m) {ev : Evaluate}
    (hev : ∀ t env s e s', ev t env s = .failure e s' → e.Single) {s s' : State} {e : Error}
    (hfail : m ev s = .failure e s') : e.Single := by
  induction h generalizing s s' e with
  | inspect f hf =>
    dsimp only [Action.inspect] at hfail
    split at hfail
    case h_1 => cases hfail
    case h_2 heq =>
      cases hfail
      exact .inl (hf s _ heq)
  | timeout => cases hfail
  | change f _ => cases hfail
  | define _ name v => cases hfail
  | assign _ env name v =>
    dsimp only at hfail
    rw [assign_apply] at hfail
    split at hfail
    · cases hfail
    · cases hfail
      exact .inl rfl
  | eval t env => exact hev t env s e s' hfail
  | @bind own α β m f _ _ ihm ihf =>
    dsimp only at hfail
    rw [Action.bind_apply] at hfail
    split at hfail
    case h_1 a s₁ _ => exact ihf a hfail
    case h_2 hm =>
      cases hfail
      exact ihm hm
    case h_3 => cases hfail
  | extend frame frames ns _ ih => exact ih s.frames.size (s := s.addFrame frame) hfail
  | inForm hform _ ih =>
    dsimp only [Action.inForm] at hfail
    split at hfail
    case h_1 e₁ s₁ hm =>
      cases hfail
      exact (ih hm).withForm hform
    case h_2 hne => exact absurd hfail (hne _ _)
  | inDirectory dir _ ih =>
    dsimp only [Action.inDirectory] at hfail
    split at hfail
    case h_1 => cases hfail
    case h_2 hm =>
      cases hfail
      exact ih hm
    case h_3 => cases hfail

theorem run_single (host : Host) (fuel : Nat) {c : Cursor} (hc : c.Sound) {s s' : State} {e : Error}
    (h : run host fuel c s = .failure e s') : e.Single := by
  induction fuel generalizing c s s' e with
  | zero => cases h
  | succ fuel ih =>
    have hev : ∀ t env s e s', evalWith host fuel t env s = .failure e s' → e.Single :=
      fun t env s e s' => ih (start_sound t env)
    have hstep : Composed true [] fun ev => step host ev fuel c :=
      step_composed host fuel hc.2 fun _ _ _ _ _ => rfl
    rw [run_succ] at h
    split at h
    case h_1 => cases h
    case h_2 d s₁ hnext => exact ih (TailStep.sound ⟨fuel, hnext⟩ hc) h
    case h_3 hfail =>
      cases h
      exact hstep.single hev hfail
    case h_4 => cases h

theorem evalAtom_plain {env : Env} {t : Term} {s s' : State} {e : Error}
    (h : evalAtom env t s = .failure e s') : e.forms = [] := by
  revert h
  fun_cases evalAtom env t with
  | case1 name v hconstant => exact nofun
  | case2 name hconstant =>
    unfold Env.get
    cases s.lookup env name with
    | ok v => exact nofun
    | error f =>
      rintro ⟨⟩
      rfl
  | case3 t hsymbol => exact nofun

/-- The errors of an atom are not reported in a form. -/
theorem evaluates_atom_plain {host : Host} {form : Term} {env : Env} {s s' : State} {e : Error}
    (h : Evaluates host form env s (.failure e s')) (hform : form.isForm = false) :
    e.forms = [] := by
  obtain ⟨-, fuel, h⟩ := h
  cases fuel with
  | zero => cases h
  | succ fuel =>
    rw [run_succ, step_atom host _ fuel (c := Cursor.start form env) hform] at h
    cases hatom : evalAtom env form s with
    | value v s₁ =>
      simp only [Cursor.start, hatom] at h
      cases h
    | failure e₁ s₁ =>
      simp only [Cursor.start, hatom, Error.inTail] at h
      cases h
      exact evalAtom_plain hatom
    | timeout =>
      simp only [Cursor.start, hatom] at h
      cases h

/-- An action that makes the evaluation `q` on its way ends with the error `e`. -/
def PassesOn (host : Host) (q : Query) (e : Error) {α : Type} (m : Evaluate → Action α) : Prop :=
  ∀ fuel s, Begins m (evalWith host fuel) s q → ∃ s', m (evalWith host fuel) s = .failure e s'

theorem Composed.passesOn {host : Host} {q : Query} {e : Error} {s' : State}
    (hfail : Evaluates host q.form q.env q.state (.failure e s')) (he : e.forms ≠ []) {α : Type}
    {m : Evaluate → Action α} (hm : Composed true [] m) : PassesOn host q e m := by
  intro fuel s hq
  have hends : Evaluates host q.form q.env q.state ((evalWith host fuel).outcome q) :=
    ⟨hq.outcome_ne_timeout, fuel, rfl⟩
  exact hm.failure hq (returns_unique hends hfail) he

/-- If an evaluation fails with an error that takes a form, one form is attached to it, a list form,
unless an atom was evaluated, and then none is. No form is attached to an error of another kind.
Once a form is attached, all evaluations around this one fail with the same error, and so do the
expansion of macros, native functions, and the loading of texts and files that it is made for. -/
theorem one_form_attached {host : Host} {form : Term} {env : Env} {s s' : State} {e : Error}
    (h : Evaluates host form env s (.failure e s')) :
    (e.takesForm = true → form.isForm = true → ∃ t, e.forms = [t] ∧ t.isForm = true) ∧
    (form.isForm = false → e.forms = []) ∧
    (e.takesForm = false → e.forms = []) ∧
    (e.forms ≠ [] →
      (∀ outer env₀ s₀, Comes host (Cursor.start outer env₀) s₀ (Cursor.start form env) s →
        ∃ s₁, Evaluates host outer env₀ s₀ (.failure e s₁)) ∧
      (∀ env₀ n t, PassesOn host ⟨form, env, s⟩ e fun ev => macroExpand ev env₀ n t) ∧
      (∀ b env₀ args, PassesOn host ⟨form, env, s⟩ e fun ev => Builtin.call host ev env₀ b args) ∧
      (∀ src env₀, PassesOn host ⟨form, env, s⟩ e fun ev => loadText ev src env₀) ∧
      ∀ path env₀, PassesOn host ⟨form, env, s⟩ e fun ev => loadFile host ev path env₀) := by
  have hsingle : e.Single := by
    obtain ⟨-, fuel, hfuel⟩ := h
    exact run_single host fuel (start_sound form env) hfuel
  refine ⟨fun htakes hform => ?_, evaluates_atom_plain h, fun htakes => ?_, fun he => ?_⟩
  · obtain ⟨-, fuel, hfuel⟩ := h
    have hreported := run_reported host fuel (Cursor.start_coherent form env) (.inl hform) hfuel
    exact (hsingle.resolve_left (hreported.forms_ne_nil htakes)).2
  · rcases hsingle with hnone | ⟨htakes', -⟩
    · exact hnone
    · cases htakes.symm.trans htakes'
  · refine ⟨?_, ?_, ?_, ?_, ?_⟩
    · intro outer env₀ s₀ hcomes
      exact hcomes.failure (start_sound outer env₀) h he
    · exact fun env₀ n t => (macroExpand_composed env₀ n t).passesOn h he
    · exact fun b env₀ args => (native_composed host env₀ b args).passesOn h he
    · exact fun src env₀ => (loadText_composed src env₀).passesOn h he
    · exact fun path env₀ => (loadFile_composed host path env₀).passesOn h he

/-- `(y)` -/
def unboundCall : Term := .list [.sym "y"]

/-- `(do (y) 1)` -/
def unboundCallFirst : Term := .list [.sym "do", unboundCall, .int 1]

/-- The error of the inner form stays reported in it. -/
theorem unboundCall_error :
    let e := Error.inForm unboundCall (.runtime (.unbound (Bytes.ofString "y")))
    Evaluates Host.bare unboundCall ⟨[], []⟩ State.empty (.failure e State.empty) ∧
      (∃ t, e.forms = [t] ∧ t.isForm = true) ∧
      ∃ s₁, Evaluates Host.bare unboundCallFirst ⟨[], []⟩ State.empty (.failure e s₁) := by
  intro e
  have hinner : Evaluates Host.bare unboundCall ⟨[], []⟩ State.empty (.failure e State.empty) :=
    ⟨nofun, 3, rfl⟩
  let c := Cursor.start unboundCallFirst ⟨[], []⟩
  let d : Cursor := { c with enclosing := some unboundCallFirst }
  have hstep (ev : Evaluate) : step Host.bare ev 3 c State.empty =
      Action.inForm unboundCallFirst (ev unboundCall ⟨[], []⟩ >>= fun p =>
        (d.switch p.2).sequence ev [.int 1]) State.empty := rfl
  have hcomes : Comes Host.bare c State.empty (Cursor.start unboundCall ⟨[], []⟩) State.empty := by
    refine .inside (q := ⟨unboundCall, ⟨[], []⟩, State.empty⟩) .here ⟨3, ?_⟩
    refine (Begins.congr hstep).mpr (Begins.inForm_iff.mpr (.bind_left ?_ nofun))
    exact Begins.eval_iff.mpr ⟨rfl, nofun⟩
  have hone := one_form_attached hinner
  exact ⟨hinner, hone.1 rfl rfl, (hone.2.2.2 (List.cons_ne_nil _ _)).1 _ _ _ hcomes⟩

end SmallLisp

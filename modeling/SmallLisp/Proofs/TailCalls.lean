import SmallLisp.Proofs.Fuel

/-! The loop of an evaluation against plain recursion. Wherever the loop goes on with a form in tail
position, a fresh evaluation of that form gives the same value or error and the same state. Only
what is handed back around it depends on the way there: the last list form, in which errors of an
atom are reported, and the environment held since a new frame was entered. -/
namespace SmallLisp

/-- Forms are the non-empty lists; every other term is evaluated as an atom. -/
def Term.isForm : Term → Bool
  | .list (_ :: _) => true
  | _ => false

/-- An error of a tail form as the loop reports it: one of an atom arose in the last list form. -/
def Error.inTail (e : Error) (form : Term) (last : Option Term) : Error :=
  match last with
  | some l => if form.isForm then e else e.withForm l
  | none => e

/-- The outcome of a tail form as the loop hands it back: with the environment held, if one is. -/
def Outcome.handBack (form : Term) (last : Option Term) (held : Option Env) :
    Outcome (Term × Env) → Outcome (Term × Env)
  | .value (v, env) s => .value (v, held.getD env) s
  | .failure e s => .failure (e.inTail form last) s
  | .timeout => .timeout

/-- Whether a form evaluates its tail in a new frame, as `let`, `apply` and calls do. Macro calls,
`do`, `if` and templates do not. -/
def entersFrame (s : State) (env : Env) : Term → Bool
  | .list (head :: _) =>
    (macroOf? s env head).isNone &&
      match specialForm? head with
      | some .letIn | some .apply | none => true
      | some _ => false
  | _ => false

/-- The loop at `c` has evaluated what is not in tail position and goes on at `d`. -/
def TailStep (host : Host) (c : Cursor) (s : State) (d : Cursor) (s' : State) : Prop :=
  ∃ fuel, step host (evalWith host fuel) fuel c s = .value (.next d) s'

/-- The evaluation of `form` has come to a cursor by tail steps: `last` is the last list form on the
way, and `held` the environment that was current before the first frame was entered. -/
inductive TailSteps (host : Host) (form : Term) (env : Env) (s : State) :
    Cursor → State → Option Term → Option Env → Prop
  | start : TailSteps host form env s (Cursor.start form env) s none none
  | stay {c d : Cursor} {s₁ s₂ : State} {last : Option Term} {held : Option Env} :
      TailSteps host form env s c s₁ last held → TailStep host c s₁ d s₂ →
      entersFrame s₁ c.env c.form = false → TailSteps host form env s d s₂ (some c.form) held
  | enter {c d : Cursor} {s₁ s₂ : State} {last : Option Term} {held : Option Env} :
      TailSteps host form env s c s₁ last held → TailStep host c s₁ d s₂ →
      entersFrame s₁ c.env c.form = true →
      TailSteps host form env s d s₂ (some c.form) (some (held.getD c.env))

/-! ## Cursors -/

namespace Cursor

/-- The environment that is handed back whatever the rest of the loop does. -/
def held (c : Cursor) : Option Env := if c.top then none else some c.out

/-- At top level the environment to hand back is the current one. -/
def Coherent (c : Cursor) : Prop := c.top = true → c.out = c.env

theorem start_coherent (form : Term) (env : Env) : (start form env).Coherent := fun _ => rfl

theorem Coherent.held_getD {c : Cursor} (h : c.Coherent) : c.held.getD c.env = c.out := by
  unfold held
  cases ht : c.top with
  | true => exact (h ht).symm
  | false => rfl

theorem held_getD_eq (c : Cursor) (env : Env) :
    c.held.getD env = if c.top then env else c.out := by
  cases ht : c.top <;> simp [held, ht]

theorem switch_coherent (c : Cursor) (env : Env) : (c.switch env).Coherent := by
  intro ht
  have ht : c.top = true := ht
  simp [switch, ht]

def stay (c : Cursor) (form : Term) (env : Env) : Cursor := { c.switch env with form := form }

def enter (c : Cursor) (form : Term) (env : Env) : Cursor :=
  { c with form := form, env := env, top := false }

theorem stay_held (c : Cursor) (form : Term) (env : Env) : (c.stay form env).held = c.held := by
  cases ht : c.top <;> simp [stay, switch, held, ht]

theorem stay_coherent (c : Cursor) (form : Term) (env : Env) : (c.stay form env).Coherent :=
  c.switch_coherent env

theorem enter_held (c : Cursor) (form : Term) (env : Env) : (c.enter form env).held = some c.out :=
  rfl

theorem enter_coherent (c : Cursor) (form : Term) (env : Env) : (c.enter form env).Coherent := nofun

end Cursor

/-! ## What one step does -/

/-- What a step comes to, apart from the loop it is part of: a value with the environment for the
next form, or a form to go on with, in the same frame or in a new one. -/
inductive Turn
  | done (v : Term) (env : Env)
  | stay (form : Term) (env : Env)
  | enter (form : Term) (env : Env)

namespace Turn

def apply (c : Cursor) : Turn → Step
  | .done v env => .done v (if c.top then env else c.out)
  | .stay form env => .next (c.stay form env)
  | .enter form env => .next (c.enter form env)

def Stays : Turn → Prop
  | .enter _ _ => False
  | _ => True

def Enters : Turn → Prop
  | .stay _ _ => False
  | _ => True

theorem apply_switch (c : Cursor) (env : Env) {turn : Turn} (h : turn.Stays) :
    turn.apply (c.switch env) = turn.apply c := by
  cases turn with
  | done v env => cases ht : c.top <;> simp [apply, Cursor.switch, ht]
  | stay form env => cases ht : c.top <;> simp [apply, Cursor.stay, Cursor.switch, ht]
  | enter form env => exact h.elim

end Turn

def Outcome.map {α β : Type} (g : α → β) : Outcome α → Outcome β
  | .value a s => .value (g a) s
  | .failure e s => .failure e s
  | .timeout => .timeout

/-- What `m` does in state `s` at a cursor in `env` comes to a turn of the kind `q`, the same for
every such cursor. -/
def TakesTurn (env : Env) (q : Turn → Prop) (m : Cursor → Action Step) (s : State) : Prop :=
  ∃ o : Outcome Turn, (∀ turn s', o = .value turn s' → q turn) ∧
    ∀ c : Cursor, c.env = env → c.Coherent → m c s = o.map (Turn.apply c)

namespace TakesTurn

variable {env : Env} {q : Turn → Prop} {s : State}

theorem pure {m : Cursor → Action Step} (turn : Turn) (hq : q turn)
    (h : ∀ c : Cursor, c.env = env → c.Coherent → m c = Pure.pure (turn.apply c)) :
    TakesTurn env q m s := by
  refine ⟨.value turn s, ?_, ?_⟩
  · rintro _ _ ⟨⟩
    exact hq
  · intro c hc hco
    rw [h c hc hco]
    rfl

theorem fail (e : Error) : TakesTurn env q (fun _ => Action.fail e) s :=
  ⟨.failure e s, by rintro _ _ ⟨⟩, fun _ _ _ => rfl⟩

/-- The first action may look at the environment of the cursor, but at nothing else of it. -/
theorem bind {α : Type} {m : Cursor → Action α} {f : Cursor → α → Action Step}
    (hm : ∀ c : Cursor, c.env = env → m c = m (Cursor.start .nil env))
    (h : ∀ a s, TakesTurn env q (fun c => f c a) s) :
    TakesTurn env q (fun c => m c >>= f c) s := by
  have hb : ∀ c : Cursor, c.env = env → (m c >>= f c) s =
      match m (Cursor.start .nil env) s with
      | .value a s => f c a s
      | .failure e s => .failure e s
      | .timeout => .timeout := by
    intro c hc
    rw [hm c hc]
    rfl
  cases hs : m (Cursor.start .nil env) s with
  | value a s' =>
    simp only [hs] at hb
    obtain ⟨o, hq, ho⟩ := h a s'
    exact ⟨o, hq, fun c hc hco => (hb c hc).trans (ho c hc hco)⟩
  | failure e s' =>
    simp only [hs] at hb
    exact ⟨.failure e s', by rintro _ _ ⟨⟩, fun c hc _ => hb c hc⟩
  | timeout =>
    simp only [hs] at hb
    exact ⟨.timeout, by rintro _ _ ⟨⟩, fun c hc _ => hb c hc⟩

/-- The first action does not look at the cursor. -/
theorem after {α : Type} {m : Action α} {f : Cursor → α → Action Step}
    (h : ∀ a s, TakesTurn env q (fun c => f c a) s) : TakesTurn env q (fun c => m >>= f c) s :=
  bind (fun _ _ => rfl) h

theorem inForm {m : Cursor → Action Step} (form : Term) (h : TakesTurn env q m s) :
    TakesTurn env q (fun c => Action.inForm form (m c)) s := by
  obtain ⟨o, hq, ho⟩ := h
  cases o with
  | value turn s' =>
    refine ⟨.value turn s', hq, fun c hc hco => ?_⟩
    simp only [Action.inForm, ho c hc hco, Outcome.map]
  | failure e s' =>
    refine ⟨.failure (e.withForm form) s', by rintro _ _ ⟨⟩, fun c hc hco => ?_⟩
    simp only [Action.inForm, ho c hc hco, Outcome.map]
  | timeout =>
    refine ⟨.timeout, by rintro _ _ ⟨⟩, fun c hc hco => ?_⟩
    simp only [Action.inForm, ho c hc hco, Outcome.map]

/-- The value may be named after the environment. -/
theorem finishAt (hq : ∀ v env, q (.done v env)) (v : Env → Term) :
    TakesTurn env q (fun c => c.finish (v c.env)) s := by
  refine pure (.done (v env) env) (hq _ env) fun c hc hco => ?_
  subst hc
  cases ht : c.top with
  | true => simp [Cursor.finish, Turn.apply, ht, hco ht]
  | false => simp [Cursor.finish, Turn.apply, ht]

theorem finish (hq : ∀ v env, q (.done v env)) (v : Term) :
    TakesTurn env q (fun c => c.finish v) s := finishAt hq fun _ => v

theorem goOn (form : Term) : TakesTurn env Turn.Stays (fun c => c.goOn form) s := by
  refine pure (.stay form env) trivial fun c hc hco => ?_
  subst hc
  cases ht : c.top with
  | true => simp [Cursor.goOn, Turn.apply, Cursor.stay, Cursor.switch, ht, hco ht]
  | false => simp [Cursor.goOn, Turn.apply, Cursor.stay, Cursor.switch, ht]

theorem tail (inner : Env) (form : Term) :
    TakesTurn env Turn.Enters (fun c => c.tail inner form) s :=
  pure (.enter form inner) trivial fun _ _ _ => rfl

end TakesTurn

namespace Cursor

variable (env : Env) (host : Host) (ev : Evaluate)

theorem sequence_turn (args : List Term) (s : State) :
    TakesTurn env Turn.Stays (fun c => c.sequence ev args) s := by
  induction args generalizing env s with
  | nil => exact .finish (fun _ _ => trivial) _
  | cons form forms ih =>
    cases forms with
    | nil => exact .goOn form
    | cons next forms =>
      refine .bind (fun _ h => h ▸ rfl) fun r s => ?_
      -- the rest runs at the cursor switched to the environment that the form hands back
      obtain ⟨o, hq, ho⟩ := ih r.2 s
      refine ⟨o, hq, fun c _ _ => (ho (c.switch r.2) rfl (c.switch_coherent r.2)).trans ?_⟩
      cases o with
      | value turn s' => simp only [Outcome.map, Turn.apply_switch c r.2 (hq turn s' rfl)]
      | failure e s' => rfl
      | timeout => rfl

theorem branch_turn (yes : Term) (no : Option Term) (v : Term) (s : State) :
    TakesTurn env Turn.Stays (fun c => c.branch yes no v) s := by
  unfold branch
  split
  · exact .goOn yes
  · cases no with
    | some form => exact .goOn form
    | none => exact .finish (fun _ _ => trivial) _
  · exact .fail _

theorem choose_turn (args : List Term) (s : State) :
    TakesTurn env Turn.Stays (fun c => c.choose ev args) s := by
  unfold choose
  split
  · exact .bind (fun _ h => h ▸ rfl) fun v => branch_turn env _ _ v
  · exact .bind (fun _ h => h ▸ rfl) fun v => branch_turn env _ _ v
  · exact .fail _

theorem template_turn (args : List Term) (s : State) :
    TakesTurn env Turn.Stays (fun c => c.template args) s := by
  unfold template
  split
  · split
    · exact .goOn _
    · exact .fail _
  · exact .fail _

theorem letIn_turn (args : List Term) (s : State) :
    TakesTurn env Turn.Enters (fun c => c.letIn ev args) s := by
  unfold letIn
  split
  · exact .fail _
  · split
    · exact .fail _
    · refine .bind (fun _ h => h ▸ rfl) fun inner _ => .after fun _ _ => ?_
      split
      · exact .finish (fun _ _ => trivial) _
      · exact .after fun _ _ => .tail inner _
  · exact .fail _

theorem call_turn (f : Term) (args : List Term) (e : Error) (s : State) :
    TakesTurn env Turn.Enters (fun c => c.call host ev f args (Action.fail e)) s := by
  unfold call
  split
  · exact .bind (fun _ h => h ▸ rfl) fun v _ => .finish (fun _ _ => trivial) v
  · exact .after fun r _ => .tail r.1 r.2
  · exact .fail e

theorem apply_turn (args : List Term) (s : State) :
    TakesTurn env Turn.Enters (fun c => c.apply host ev args) s := by
  unfold apply
  split
  · refine .bind (fun _ h => h ▸ rfl) fun f _ => ?_
    split
    · refine .bind (fun _ h => h ▸ rfl) fun l s => ?_
      split
      · exact call_turn env host ev f _ _ s
      · exact .fail _
    · exact .fail _
  · exact .fail _

theorem define_turn (args : List Term) (s : State) :
    TakesTurn env Turn.Stays (fun c => c.define ev args) s := by
  unfold define
  split
  · exact .bind (fun _ h => h ▸ rfl) fun _ _ => .bind (fun _ h => h ▸ rfl) fun _ _ =>
      .finishAt (fun _ _ => trivial) fun env => .symbol (qualify env.ns _)
  · exact .fail _
  · exact .fail _

theorem defineMacro_turn (args : List Term) (s : State) :
    TakesTurn env Turn.Stays (fun c => c.defineMacro ev args) s := by
  unfold defineMacro
  split
  · refine .bind (fun _ h => h ▸ rfl) fun v _ => ?_
    split
    · exact .bind (fun _ h => h ▸ rfl) fun _ _ =>
        .finishAt (fun _ _ => trivial) fun env => .symbol (qualify env.ns _)
    · exact .fail _
  · exact .fail _
  · exact .fail _

theorem assign_turn (args : List Term) (s : State) :
    TakesTurn env Turn.Stays (fun c => c.assign ev args) s := by
  unfold assign
  split
  · refine .bind (fun _ h => h ▸ rfl) fun v _ => .bind (fun _ h => h ▸ rfl) fun found _ => ?_
    cases found with
    | some frame => exact .after fun _ _ => .finish (fun _ _ => trivial) v
    | none => exact .fail _
  · exact .fail _
  · exact .fail _

theorem loop_turn (fuel : Nat) (args : List Term) (s : State) :
    TakesTurn env Turn.Stays (fun c => c.loop ev fuel args) s := by
  unfold loop
  split
  · exact .bind (fun _ h => h ▸ rfl) fun v _ => .finish (fun _ _ => trivial) v
  · exact .fail _

theorem inNs_turn (args : List Term) (s : State) :
    TakesTurn env Turn.Stays (fun c => c.inNs ev args) s := by
  unfold inNs
  split
  · refine .bind (fun _ h => h ▸ rfl) fun name _ => .after fun _ _ => ?_
    refine .pure (.done (.symbol name) { env with ns := name }) trivial fun c hc _ => ?_
    subst hc
    rfl
  · exact .fail _

/-- Only `let` and `apply` go on in a new frame. -/
theorem special_turn (fuel : Nat) (f : SpecialForm) (args : List Term) (s : State) :
    TakesTurn env (if f = .letIn ∨ f = .apply then Turn.Enters else Turn.Stays)
      (fun c => c.special host ev fuel f args) s := by
  cases f with
  | define => exact define_turn env ev args s
  | letIn => exact letIn_turn env ev args s
  | assign => exact assign_turn env ev args s
  | apply => exact apply_turn env host ev args s
  | quote =>
    change TakesTurn env Turn.Stays _ s
    simp only [special]
    split
    · exact .finish (fun _ _ => trivial) _
    · exact .fail _
  | quasiquote => exact template_turn env args s
  | sequence => exact sequence_turn env ev args s
  | function => exact .bind (fun _ h => h ▸ rfl) fun v _ => .finish (fun _ _ => trivial) v
  | choose => exact choose_turn env ev args s
  | loop => exact loop_turn env ev fuel args s
  | defineMacro => exact defineMacro_turn env ev args s
  | macroExpand =>
    change TakesTurn env Turn.Stays _ s
    simp only [special]
    split
    · exact .bind (fun _ h => h ▸ rfl) fun v _ => .finish (fun _ _ => trivial) v
    · exact .fail _
  | inNs => exact inNs_turn env ev args s

end Cursor

section

variable (host : Host) (ev : Evaluate) (fuel : Nat) {c : Cursor} {head : Term} (args : List Term)
  {s : State}

theorem stepForm_expand {m : Closure Term} (hm : macroOf? s c.env head = some m) :
    stepForm host ev fuel c head args s =
      (m.expand ev args >>= fun expanded => c.goOn expanded) s := by
  rw [stepForm, Action.bind_apply]
  simp only [Action.read, hm]

theorem stepForm_special (hm : macroOf? s c.env head = none) {f : SpecialForm}
    (hf : specialForm? head = some f) :
    stepForm host ev fuel c head args s = c.special host ev fuel f args s := by
  rw [stepForm, Action.bind_apply]
  simp only [Action.read, hm, hf]

theorem stepForm_apply (hm : macroOf? s c.env head = none) (hf : specialForm? head = none) :
    stepForm host ev fuel c head args s = applyForm host ev c head args s := by
  rw [stepForm, Action.bind_apply]
  simp only [Action.read, hm, hf]

end

/-- Whether a list form goes on in a new frame is settled by what its head names. -/
theorem stepForm_turn (host : Host) (ev : Evaluate) (fuel : Nat) (env : Env) (head : Term)
    (args : List Term) (s : State) :
    TakesTurn env
      (if entersFrame s env (.list (head :: args)) then Turn.Enters else Turn.Stays)
      (fun c => stepForm host ev fuel c head args) s := by
  cases hm : macroOf? s env head with
  | some m =>
    have hk : entersFrame s env (.list (head :: args)) = false := by simp [entersFrame, hm]
    rw [hk]
    obtain ⟨o, hq, ho⟩ : TakesTurn env Turn.Stays
      (fun c => m.expand ev args >>= fun expanded => c.goOn expanded) s := .after fun t _ => .goOn t
    refine ⟨o, hq, fun c hc hco => ?_⟩
    exact (stepForm_expand host ev fuel args (hc ▸ hm)).trans (ho c hc hco)
  | none =>
    cases hf : specialForm? head with
    | some f =>
      have hk : entersFrame s env (.list (head :: args)) = decide (f = .letIn ∨ f = .apply) := by
        cases f <;> simp [entersFrame, hm, hf]
      obtain ⟨o, hq, ho⟩ := Cursor.special_turn env host ev fuel f args s
      rw [hk]
      simp only [decide_eq_true_eq]
      refine ⟨o, hq, fun c hc hco => ?_⟩
      exact (stepForm_special host ev fuel args (hc ▸ hm) hf).trans (ho c hc hco)
    | none =>
      have hk : entersFrame s env (.list (head :: args)) = true := by simp [entersFrame, hm, hf]
      rw [hk]
      obtain ⟨o, hq, ho⟩ : TakesTurn env Turn.Enters (fun c => applyForm host ev c head args) s :=
        .bind (fun _ h => h ▸ rfl) fun f _ => .bind (fun _ h => h ▸ rfl) fun vs s =>
          Cursor.call_turn env host ev f vs _ s
      refine ⟨o, hq, fun c hc hco => ?_⟩
      exact (stepForm_apply host ev fuel args (hc ▸ hm) hf).trans (ho c hc hco)

theorem step_form (host : Host) (ev : Evaluate) (fuel : Nat) {c : Cursor} {head : Term}
    {args : List Term} (h : c.form = .list (head :: args)) :
    step host ev fuel c = Action.inForm c.form
      (stepForm host ev fuel { c with enclosing := some c.form } head args) := by
  cases c
  subst h
  rfl

theorem step_atom (host : Host) (ev : Evaluate) (fuel : Nat) {c : Cursor}
    (h : c.form.isForm = false) (s : State) :
    step host ev fuel c s =
      match evalAtom c.env c.form s with
      | .value v s' => .value (.done v c.out) s'
      | .failure e s' => .failure (e.inTail c.form c.enclosing) s'
      | .timeout => .timeout := by
  obtain ⟨form, env, out, top, enclosing⟩ := c
  have hs : step host ev fuel ⟨form, env, out, top, enclosing⟩ =
      (match enclosing with
        | some last => Action.inForm last (evalAtom env form)
        | none => evalAtom env form) >>= fun v =>
          Cursor.finish ⟨form, env, out, top, enclosing⟩ v := by
    match form, h with
    | .list [], _ | .atom _, _ | .dict _, _ | .native _, _ | .closure _, _ =>
      cases enclosing <;> rfl
  rw [hs, Action.bind_apply]
  cases enclosing with
  | none =>
    simp only [Error.inTail]
    cases evalAtom env form s <;> rfl
  | some last =>
    simp only [Action.inForm, Error.inTail, h]
    cases evalAtom env form s <;> rfl

/-- A form takes the same turn in every loop that comes to it in `env`. -/
theorem step_turn (host : Host) (ev : Evaluate) (fuel : Nat) (form : Term) (env : Env)
    (h : form.isForm = true) (s : State) :
    ∃ o : Outcome Turn,
      (∀ turn s', o = .value turn s' →
        if entersFrame s env form then turn.Enters else turn.Stays) ∧
      ∀ c : Cursor, c.form = form → c.env = env → c.Coherent →
        step host ev fuel c s = o.map (Turn.apply { c with enclosing := some form }) := by
  match form, h with
  | .list (head :: args), _ =>
    obtain ⟨o, hq, ho⟩ := (stepForm_turn host ev fuel env head args s).inForm (.list (head :: args))
    refine ⟨o, ?_, ?_⟩
    · intro turn s' he
      have hk := hq turn s' he
      split at hk <;> simp_all
    · intro c hf hc hco
      rw [step_form host ev fuel hf, hf]
      exact hf ▸ ho { c with enclosing := some (.list (head :: args)) } hc hco

/-! ## The loop and the fresh evaluation -/

theorem handBack_eq_timeout {form : Term} {last : Option Term} {held : Option Env}
    {r : Outcome (Term × Env)} : r.handBack form last held = .timeout ↔ r = .timeout := by
  cases r <;> simp [Outcome.handBack]

theorem handBack_handBack {form : Term} (h : form.isForm = true) (inner : Term)
    (last last' : Option Term) (held held' : Option Env) (r : Outcome (Term × Env)) :
    (r.handBack inner last' held').handBack form last held =
      r.handBack inner last' (held.or held') := by
  cases r with
  | value p s => cases held <;> rfl
  | failure e s => cases last <;> simp [Outcome.handBack, Error.inTail, h]
  | timeout => rfl

theorem run_atom_eq_handBack (host : Host) (fuel : Nat) {c : Cursor} (hc : c.Coherent)
    (hf : c.form.isForm = false) (s : State) :
    run host (fuel + 1) c s =
      (evalWith host (fuel + 1) c.form c.env s).handBack c.form c.enclosing c.held := by
  have hrun : ∀ d : Cursor, d.form.isForm = false → run host (fuel + 1) d s =
      match evalAtom d.env d.form s with
      | .value v s' => .value (v, d.out) s'
      | .failure e s' => .failure (e.inTail d.form d.enclosing) s'
      | .timeout => .timeout := by
    intro d hd
    rw [run_succ, step_atom _ _ _ hd]
    cases evalAtom d.env d.form s <;> rfl
  have hstart := hrun (Cursor.start c.form c.env) hf
  simp only [Cursor.start] at hstart
  rw [evalWith, hrun c hf, Cursor.start, hstart]
  cases evalAtom c.env c.form s with
  | value v s' => simp only [Outcome.handBack, hc.held_getD]
  | failure e s' => rfl
  | timeout => rfl

/-- Going on with the loop is evaluating the form at hand afresh, but for what is handed back. -/
theorem run_eq_handBack (host : Host) (fuel : Nat) {c : Cursor} (hc : c.Coherent) (s : State) :
    run host fuel c s =
      (evalWith host fuel c.form c.env s).handBack c.form c.enclosing c.held := by
  induction fuel generalizing c s with
  | zero => rfl
  | succ fuel ih =>
    cases hf : c.form.isForm with
    | false => exact run_atom_eq_handBack host fuel hc hf s
    | true =>
      obtain ⟨o, -, ho⟩ := step_turn host (evalWith host fuel) fuel c.form c.env hf s
      have hstart := ho (Cursor.start c.form c.env) rfl rfl (Cursor.start_coherent _ _)
      rw [evalWith, run_succ, run_succ, ho c rfl rfl hc, hstart]
      cases o with
      | timeout => rfl
      | failure e s' => cases c.enclosing <;> simp [Outcome.map, Outcome.handBack, Error.inTail, hf]
      | value turn s' =>
        -- both loops take the turn and, by induction, come to the same fresh evaluation
        cases turn with
        | done v env => simp only [Outcome.map, Turn.apply, Outcome.handBack, c.held_getD_eq]; rfl
        | stay form env =>
          simp only [Outcome.map, Turn.apply]
          rw [ih (Cursor.stay_coherent _ form env), ih (Cursor.stay_coherent _ form env),
            handBack_handBack hf, Cursor.stay_held, Cursor.stay_held]
          exact congrArg (Outcome.handBack _ _ · _) (Option.or_none).symm
        | enter form env =>
          have hout : c.held.or (some c.env) = some c.out := by
            rw [← hc.held_getD]
            cases c.held <;> rfl
          simp only [Outcome.map, Turn.apply]
          rw [ih (Cursor.enter_coherent _ form env), ih (Cursor.enter_coherent _ form env),
            handBack_handBack hf, Cursor.enter_held, Cursor.enter_held]
          exact congrArg (Outcome.handBack _ _ · _) hout.symm

theorem returns_iff_evaluates {host : Host} {c : Cursor} (hc : c.Coherent) {s : State}
    {r : Outcome (Term × Env)} :
    Returns host c s r ↔
      ∃ r', Evaluates host c.form c.env s r' ∧ r = r'.handBack c.form c.enclosing c.held := by
  constructor
  · rintro ⟨hr, fuel, rfl⟩
    rw [run_eq_handBack host fuel hc s] at hr ⊢
    exact ⟨_, ⟨mt handBack_eq_timeout.mpr hr, fuel, rfl⟩, rfl⟩
  · rintro ⟨r', ⟨hr, fuel, rfl⟩, rfl⟩
    exact ⟨mt handBack_eq_timeout.mp hr, fuel, run_eq_handBack host fuel hc s⟩

/-- The loop before a tail step ends as it does after it. -/
theorem returns_tailStep {host : Host} {c d : Cursor} {s s' : State}
    (h : TailStep host c s d s') {r : Outcome (Term × Env)} :
    Returns host c s r ↔ Returns host d s' r := by
  obtain ⟨fuel, hstep⟩ := h
  have hmono {n m : Nat} (hle : n ≤ m) :
      (step host (evalWith host n) n c).Below (step host (evalWith host m) m c) :=
    step_below (evalWith_below host hle) host hle c
  constructor
  · rintro ⟨hr, n, rfl⟩
    cases n with
    | zero => exact absurd rfl hr
    | succ n =>
      have hn : step host (evalWith host n) n c s ≠ .timeout := by
        intro ht
        rw [run_succ, ht] at hr
        exact hr rfl
      have hsame : step host (evalWith host n) n c s = .value (.next d) s' := by
        rw [← hstep]
        exact Action.Below.agree hmono hn (by rw [hstep]; exact nofun)
      refine ⟨hr, n, ?_⟩
      rw [run_succ, hsame]
  · rintro ⟨hr, n, rfl⟩
    have hfuel : step host (evalWith host (max n fuel)) (max n fuel) c s = .value (.next d) s' :=
      ((hmono (Nat.le_max_right n fuel) s).resolve_left (by rw [hstep]; exact nofun)).symm.trans
        hstep
    refine ⟨hr, max n fuel + 1, ?_⟩
    rw [run_succ, hfuel]
    exact ((run_below host (Nat.le_max_left n fuel) d s').resolve_left hr).symm

/-- What a tail step does to the variables of the loop. -/
theorem tailStep_cursor {host : Host} {c d : Cursor} {s s' : State} (hc : c.Coherent)
    (h : TailStep host c s d s') :
    d.Coherent ∧ d.enclosing = some c.form ∧
      d.held = if entersFrame s c.env c.form then some c.out else c.held := by
  obtain ⟨fuel, hstep⟩ := h
  cases hf : c.form.isForm with
  | false =>
    rw [step_atom _ _ _ hf] at hstep
    split at hstep <;> cases hstep
  | true =>
    obtain ⟨o, hq, ho⟩ := step_turn host (evalWith host fuel) fuel c.form c.env hf s
    rw [ho c rfl rfl hc] at hstep
    cases o with
    | failure e s₁ => cases hstep
    | timeout => cases hstep
    | value turn s₁ =>
      have hk := hq turn s₁ rfl
      cases turn with
      | done v env => cases hstep
      | stay form env =>
        have he : entersFrame s c.env c.form = false := by
          cases he : entersFrame s c.env c.form with
          | false => rfl
          | true => simp [he, Turn.Enters] at hk
        cases hstep
        rw [he]
        exact ⟨Cursor.stay_coherent _ form env, rfl, Cursor.stay_held _ form env⟩
      | enter form env =>
        have he : entersFrame s c.env c.form = true := by
          cases he : entersFrame s c.env c.form with
          | false => simp [he, Turn.Stays] at hk
          | true => rfl
        cases hstep
        rw [he]
        exact ⟨Cursor.enter_coherent _ form env, rfl, Cursor.enter_held _ form env⟩

/-- The loop variables after tail steps record the way there and nothing else. -/
theorem TailSteps.cursor {host : Host} {form : Term} {env : Env} {s s' : State} {c : Cursor}
    {last : Option Term} {held : Option Env} (h : TailSteps host form env s c s' last held) :
    c.Coherent ∧ c.enclosing = last ∧ c.held = held := by
  induction h with
  | start => exact ⟨Cursor.start_coherent form env, rfl, rfl⟩
  | stay _ hstep hk ih =>
    obtain ⟨hd, hlast, hheld⟩ := tailStep_cursor ih.1 hstep
    rw [hk] at hheld
    exact ⟨hd, hlast, hheld.trans ih.2.2⟩
  | enter _ hstep hk ih =>
    obtain ⟨hd, hlast, hheld⟩ := tailStep_cursor ih.1 hstep
    rw [hk] at hheld
    rw [← ih.2.2, ih.1.held_getD]
    exact ⟨hd, hlast, hheld⟩

theorem TailSteps.returns {host : Host} {form : Term} {env : Env} {s s' : State} {c : Cursor}
    {last : Option Term} {held : Option Env} (h : TailSteps host form env s c s' last held)
    {r : Outcome (Term × Env)} : Evaluates host form env s r ↔ Returns host c s' r := by
  induction h with
  | start => exact Iff.rfl
  | stay _ hstep _ ih => exact ih.trans (returns_tailStep hstep)
  | enter _ hstep _ ih => exact ih.trans (returns_tailStep hstep)

/-- Once an evaluation has come to a form in tail position, it ends exactly as going on with the
loop does, and that is how a fresh evaluation of this form in its environment ends: with the same
value or error, in the same state. An error of an atom is reported in the last list form on the way, and
the environment handed back is that of the fresh evaluation as long as no frame was entered, and
afterwards the one that was current before. -/
theorem loop_refines_recursion {host : Host} {form : Term} {env : Env} {s s' : State} {c : Cursor}
    {last : Option Term} {held : Option Env} (h : TailSteps host form env s c s' last held)
    (r : Outcome (Term × Env)) :
    (Evaluates host form env s r ↔ Returns host c s' r) ∧
      (Returns host c s' r ↔
        ∃ r', Evaluates host c.form c.env s' r' ∧ r = r'.handBack c.form last held) := by
  obtain ⟨hc, hlast, hheld⟩ := h.cursor
  subst hlast hheld
  exact ⟨h.returns, returns_iff_evaluates hc⟩

def Host.bare : Host := ⟨⟨fun _ => none⟩, [], false⟩

/-- `(let () (in-ns b))` -/
def switchInLet : Term := .list [.sym "let", .list [], .list [.sym "in-ns", .sym "b"]]

/-- `(do (in-ns a) (let () (in-ns b)))` -/
def twoSwitches : Term := .list [.sym "do", .list [.sym "in-ns", .sym "a"], switchInLet]

/-- The second switch is evaluated in tail position, but from inside a frame: the caller is left in
the namespace `a` of the first. -/
theorem twoSwitches_outcome :
    let a := Bytes.ofString "a"
    let s := (State.empty.require a).addFrame []
    TailSteps Host.bare twoSwitches ⟨[], []⟩ State.empty
        ⟨.list [.sym "in-ns", .sym "b"], ⟨[0], a⟩, ⟨[], a⟩, false, some switchInLet⟩ s
        (some switchInLet) (some ⟨[], a⟩) ∧
      Evaluates Host.bare twoSwitches ⟨[], []⟩ State.empty
        (.value (.sym "b", ⟨[], a⟩) (s.require (Bytes.ofString "b"))) := by
  intro a s
  have first : TailSteps Host.bare twoSwitches ⟨[], []⟩ State.empty
      ⟨switchInLet, ⟨[], a⟩, ⟨[], a⟩, true, some twoSwitches⟩ (State.empty.require a)
      (some twoSwitches) none := .stay .start ⟨2, rfl⟩ rfl
  have second : TailSteps Host.bare twoSwitches ⟨[], []⟩ State.empty
      ⟨.list [.sym "in-ns", .sym "b"], ⟨[0], a⟩, ⟨[], a⟩, false, some switchInLet⟩ s
      (some switchInLet) (some ⟨[], a⟩) := .enter first ⟨2, rfl⟩ rfl
  have fresh : Evaluates Host.bare (.list [.sym "in-ns", .sym "b"]) ⟨[0], a⟩ s
      (.value (.sym "b", ⟨[0], Bytes.ofString "b"⟩) (s.require (Bytes.ofString "b"))) :=
    ⟨nofun, 2, rfl⟩
  have outcome := loop_refines_recursion second
  exact ⟨second, (outcome _).1.mpr ((outcome _).2.mpr ⟨_, fresh, rfl⟩)⟩

end SmallLisp

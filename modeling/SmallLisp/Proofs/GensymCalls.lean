import SmallLisp.Proofs.Growth

/-! The calls of `gensym` that a run makes, in their order. The parts of an action make calls by the
evaluations on their way (`Gathers`); a step of the loop makes those of its parts, and then one of
its own if it applies `gensym` itself (`StepMakes`); an evaluation makes those of its steps
(`Makes`), also if it is cut off before it ends. -/
namespace SmallLisp

structure FreshCall where
  args : List Term
  before : State
  name : Bytes
  after : State
  given : Effect.freshSymbol args before = .value (.symbol name) after

/-- A call is given its symbol by its arguments and the state before it. -/
theorem FreshCall.eq_of_args {c d : FreshCall} (hargs : c.args = d.args)
    (hbefore : c.before = d.before) : c = d := by
  obtain ⟨args, before, name, after, given⟩ := c
  obtain ⟨args', before', name', after', given'⟩ := d
  cases hargs
  cases hbefore
  cases given.symm.trans given'
  rfl

/-! ## The parts of a step -/

/-- The calls that an action makes by the evaluations on its way, if `log` tells what calls each of
these makes. Between the evaluations the counter is not set back. What comes first in a row is
composed, so that without one of its evaluations it does not end or ends as before. -/
inductive Gathers (log : Query → List FreshCall → Prop) (ev : Evaluate) :
    {α : Type} → (Evaluate → Action α) → State → List FreshCall → Prop
  | silent {α : Type} {m : Action α} {s : State}
      (hm : ∀ s', (m s).state? = some s' → s.gensyms ≤ s'.gensyms) :
      Gathers log ev (fun _ => m) s []
  | eval {t : Term} {env : Env} {s : State} {calls : List FreshCall} (h : log ⟨t, env, s⟩ calls) :
      Gathers log ev (fun ev => ev t env) s calls
  | bind {assigns : Bool} {own : List Nat} {α β : Type} {m : Evaluate → Action α}
      {f : α → Evaluate → Action β} {s s' : State} {a : α} {first later : List FreshCall}
      (hparts : Composed assigns own m) (hm : Gathers log ev m s first)
      (hv : m ev s = .value a s') (hf : Gathers log ev (f a) s' later) :
      Gathers log ev (fun ev => m ev >>= fun a => f a ev) s (first ++ later)
  | stop {assigns : Bool} {own : List Nat} {α β : Type} {m : Evaluate → Action α}
      {f : α → Evaluate → Action β} {s : State} {calls : List FreshCall}
      (hparts : Composed assigns own m) (hm : Gathers log ev m s calls)
      (hv : ∀ a s', m ev s ≠ .value a s') :
      Gathers log ev (fun ev => m ev >>= fun a => f a ev) s calls
  | extend {β : Type} {f : Env → Evaluate → Action β} {s : State} {calls : List FreshCall}
      {frames : List Nat} {ns : Bytes} (frame : Table Term)
      (hf : Gathers log ev (f ⟨s.frames.size :: frames, ns⟩) (s.addFrame frame) calls) :
      Gathers log ev (fun ev => Env.extend frame frames ns >>= fun env => f env ev) s calls
  | inForm {α : Type} {m : Evaluate → Action α} {s : State} {calls : List FreshCall} (form : Term)
      (hm : Gathers log ev m s calls) : Gathers log ev (fun ev => Action.inForm form (m ev)) s calls
  | inDirectory {α : Type} {m : Evaluate → Action α} {s : State} {calls : List FreshCall}
      (dir : Bytes) (hm : Gathers log ev m (Action.enterDirectory dir s) calls) :
      Gathers log ev (fun ev => Action.inDirectory dir (m ev)) s calls

/-- All that evaluation is made of gathers the calls of the evaluations on its way. -/
theorem Composed.gathers {assigns : Bool} {own : List Nat} {α : Type} {m : Evaluate → Action α}
    (h : Composed assigns own m) {log : Query → List FreshCall → Prop}
    (hlog : ∀ q, ∃ calls, log q calls) (ev : Evaluate) (s : State) :
    ∃ calls, Gathers log ev m s calls := by
  have hsame {β : Type} {m : Action β} {s : State}
      (hm : ∀ s', (m s).state? = some s' → s'.gensyms = s.gensyms) :
      ∃ calls, Gathers log ev (fun _ => m) s calls :=
    ⟨[], .silent fun s' hs' => Nat.le_of_eq (hm s' hs').symm⟩
  induction h generalizing s with
  | inspect f _ =>
    refine hsame fun s' hs' => ?_
    unfold Action.inspect at hs'
    split at hs' <;> cases hs' <;> rfl
  | timeout => exact hsame nofun
  | change f hf =>
    refine ⟨[], .silent fun s' hs' => ?_⟩
    cases hs'
    exact (Grows.change (hf s)).gensyms
  | define hi name v =>
    refine hsame fun s' hs' => ?_
    cases hs'
    rfl
  | assign ha env name v =>
    refine hsame fun s' hs' => ?_
    rw [assign_apply] at hs'
    split at hs' <;> cases hs' <;> rfl
  | eval t env =>
    obtain ⟨calls, hcalls⟩ := hlog ⟨t, env, s⟩
    exact ⟨calls, .eval hcalls⟩
  | @bind own α β m f hm _ ihm ihf =>
    obtain ⟨first, hfirst⟩ := ihm s
    cases hv : m ev s with
    | value a s' =>
      obtain ⟨later, hlater⟩ := ihf a s'
      exact ⟨first ++ later, .bind hm hfirst hv hlater⟩
    | failure e s' => exact ⟨first, .stop hm hfirst (by simp [hv])⟩
    | timeout => exact ⟨first, .stop hm hfirst (by simp [hv])⟩
  | extend frame frames ns _ ih =>
    obtain ⟨calls, hcalls⟩ := ih s.frames.size (s.addFrame frame)
    exact ⟨calls, .extend frame hcalls⟩
  | inForm _ _ ih =>
    obtain ⟨calls, hcalls⟩ := ih s
    exact ⟨calls, .inForm _ hcalls⟩
  | inDirectory dir _ ih =>
    obtain ⟨calls, hcalls⟩ := ih (Action.enterDirectory dir s)
    exact ⟨calls, .inDirectory dir hcalls⟩

/-- The calls of each evaluation that the action begins are among them. -/
theorem Gathers.sublist {log : Query → List FreshCall → Prop} {ev : Evaluate} {α : Type}
    {m : Evaluate → Action α} {s : State} {calls : List FreshCall} (h : Gathers log ev m s calls)
    {q : Query} (hq : Begins m ev s q) : ∃ inner, log q inner ∧ inner.Sublist calls := by
  induction h with
  | silent _ => exact absurd hq Begins.not_const
  | eval h =>
    obtain ⟨rfl, -⟩ := Begins.eval_iff.mp hq
    exact ⟨_, h, .refl _⟩
  | bind hparts _ hv _ ihm ihf =>
    rcases hq.of_bind hparts with hq | ⟨a, s₁, hv', hq⟩
    · obtain ⟨inner, hinner, hsub⟩ := ihm hq
      exact ⟨inner, hinner, hsub.trans (List.sublist_append_left ..)⟩
    · cases hv.symm.trans hv'
      obtain ⟨inner, hinner, hsub⟩ := ihf hq
      exact ⟨inner, hinner, hsub.trans (List.sublist_append_right ..)⟩
  | stop hparts _ hv ih =>
    rcases hq.of_bind hparts with hq | ⟨a, s₁, hv', -⟩
    · exact ih hq
    · exact absurd hv' (hv a s₁)
  | extend frame _ ih => exact ih hq
  | inForm form _ ih => exact ih (Begins.inForm_iff.mp hq)
  | inDirectory dir _ ih => exact ih (Begins.inDirectory_iff.mp hq)

/-! ## A step -/

def Evaluate.operands (ev : Evaluate) (env : Env) (head : Term) (args : List Term) :
    Action (Term × List Term) := do
  let f ← ev.value head env
  let vs ← ev.values env args
  return (f, vs)

/-- The function of an `apply` and the elements of the list of its arguments. -/
def Evaluate.applied (ev : Evaluate) (env : Env) (function arguments : Term) :
    Action (Term × List Term) := do
  let f ← ev.value function env
  if f.kind == .function then
    match ← ev.value arguments env with
    | .list vs => return (f, vs)
    | t => SpecialForm.wrongKind .apply .list t
  else SpecialForm.wrongKind .apply .function f

/-- The cursor is at a form that applies a function; the action gives the function and what it is
applied to. -/
inductive AtCall (c : Cursor) (s : State) : (Evaluate → Action (Term × List Term)) → Prop
  | call {head : Term} {args : List Term} (hform : c.form = .list (head :: args))
      (hm : macroOf? s c.env head = none) (hf : specialForm? head = none) :
      AtCall c s fun ev => ev.operands c.env head args
  | apply {head function arguments : Term} (hform : c.form = .list [head, function, arguments])
      (hm : macroOf? s c.env head = none) (hf : specialForm? head = some .apply) :
      AtCall c s fun ev => ev.applied c.env function arguments

def gensym : Term := .native (.effect .gensym)

def Applies (host : Host) (fuel : Nat) (c : Cursor) (s : State) (call : FreshCall) : Prop :=
  ∃ operands, AtCall c s operands ∧
    operands (evalWith host fuel) s = .value (gensym, call.args) call.before

/-- The calls that a step makes, if `log` tells what calls the evaluations on its way make. A call
that the step makes itself comes after those of its parts. -/
inductive StepMakes (host : Host) (fuel : Nat) (log : Query → List FreshCall → Prop) (c : Cursor)
    (s : State) : List FreshCall → Prop
  | fresh {operands : Evaluate → Action (Term × List Term)} {calls : List FreshCall}
      (call : FreshCall) (hat : AtCall c s operands)
      (hends : operands (evalWith host fuel) s = .value (gensym, call.args) call.before)
      (hcalls : Gathers log (evalWith host fuel) operands s calls) :
      StepMakes host fuel log c s (calls ++ [call])
  | other {calls : List FreshCall}
      (hnone : ∀ call, ¬Applies host fuel c s call)
      (hcalls : Gathers log (evalWith host fuel) (fun ev => step host ev fuel c) s calls) :
      StepMakes host fuel log c s calls

theorem operands_composed {c : Cursor} {s : State} {operands : Evaluate → Action (Term × List Term)}
    (h : AtCall c s operands) : Composed false [] operands := by
  cases h with
  | call _ _ _ =>
    exact .bind (value_composed _ c.env) fun f => .bind (values_composed c.env _) fun vs => .pure _
  | apply _ _ _ =>
    refine .bind (value_composed _ c.env) fun f => ?_
    split
    · refine .bind (value_composed _ c.env) fun l => ?_
      split
      · exact .pure _
      · exact .complain _
    · exact .complain _

/-- A step that applies `gensym` ends with the symbol. -/
theorem AtCall.step {c : Cursor} {s : State} {operands : Evaluate → Action (Term × List Term)}
    (h : AtCall c s operands) (host : Host) {ev : Evaluate} (fuel : Nat) {call : FreshCall}
    (hends : operands ev s = .value (gensym, call.args) call.before) :
    step host ev fuel c s = .value (.done (.symbol call.name) c.out) call.after := by
  let d : Cursor := { c with enclosing := some c.form }
  have hgiven : (Builtin.effect .gensym).call host ev d.env call.args call.before =
      .value (.symbol call.name) call.after := call.given
  have hcall (otherwise : Action Step) : d.call host ev gensym call.args otherwise call.before =
      .value (.done (.symbol call.name) c.out) call.after := by
    simp only [gensym, Cursor.call, Action.bind_apply, hgiven]
    rfl
  have hinside {head : Term} {args : List Term} (hform : c.form = .list (head :: args))
      (hstep : stepForm host ev fuel d head args s =
        .value (.done (.symbol call.name) c.out) call.after) :
      SmallLisp.step host ev fuel c s = .value (.done (.symbol call.name) c.out) call.after := by
    rw [step_form host ev fuel hform]
    simp only [Action.inForm]
    rw [hstep]
  cases h with
  | @call head args hform hm hf =>
    obtain ⟨f, s₁, hhead, hthen⟩ := Action.bind_eq_value.mp hends
    obtain ⟨vs, s₂, hargs, hthen⟩ := Action.bind_eq_value.mp hthen
    cases hthen
    refine hinside hform ((stepForm_apply host ev fuel args (c := d) hm hf).trans ?_)
    refine Action.bind_eq_value.mpr ⟨_, _, hhead, ?_⟩
    exact Action.bind_eq_value.mpr ⟨_, _, hargs, hcall _⟩
  | @apply head function arguments hform hm hf =>
    obtain ⟨f, s₁, hfunction, hthen⟩ := Action.bind_eq_value.mp hends
    split at hthen
    case isFalse => cases hthen
    case isTrue hkind =>
      obtain ⟨l, s₂, harguments, hthen⟩ := Action.bind_eq_value.mp hthen
      split at hthen
      case h_2 => cases hthen
      case h_1 vs =>
        cases hthen
        refine hinside hform ((stepForm_special host ev fuel _ (c := d) hm hf).trans ?_)
        refine Action.bind_eq_value.mpr ⟨_, _, hfunction, ?_⟩
        exact Action.bind_eq_value.mpr ⟨_, _, harguments, hcall _⟩

/-- Every step makes calls, if only none. -/
theorem stepMakes_exists (host : Host) (fuel : Nat) {log : Query → List FreshCall → Prop}
    (hlog : ∀ q, ∃ calls, log q calls) {c : Cursor} (hc : c.Proper) (s : State) :
    ∃ calls, StepMakes host fuel log c s calls := by
  by_cases h : ∃ call, Applies host fuel c s call
  · obtain ⟨call, operands, hat, hends⟩ := h
    obtain ⟨calls, hcalls⟩ := (operands_composed hat).gathers hlog (evalWith host fuel) s
    exact ⟨calls ++ [call], .fresh call hat hends hcalls⟩
  · have hstep : Composed true [] fun ev => step host ev fuel c :=
      step_composed host fuel hc fun _ _ _ _ _ => rfl
    obtain ⟨calls, hcalls⟩ := hstep.gathers hlog (evalWith host fuel) s
    exact ⟨calls, .other (fun call hcall => h ⟨call, hcall⟩) hcalls⟩

theorem AtCall.unique {c : Cursor} {s : State}
    {operands operands' : Evaluate → Action (Term × List Term)} (h : AtCall c s operands)
    (h' : AtCall c s operands') : operands = operands' := by
  cases h with
  | call hform hm hf =>
    cases h' with
    | call hform' _ _ =>
      cases hform.symm.trans hform'
      rfl
    | apply hform' _ hf' =>
      cases hform.symm.trans hform'
      cases hf.symm.trans hf'
  | apply hform hm hf =>
    cases h' with
    | call hform' _ hf' =>
      cases hform.symm.trans hform'
      cases hf.symm.trans hf'
    | apply hform' _ _ =>
      cases hform.symm.trans hform'
      rfl

/-- The calls of each evaluation that the step begins are among them. -/
theorem StepMakes.sublist {host : Host} {fuel : Nat} {log : Query → List FreshCall → Prop}
    {c : Cursor} {s : State} {calls : List FreshCall} (h : StepMakes host fuel log c s calls)
    {q : Query} (hq : Begins (fun ev => step host ev fuel c) (evalWith host fuel) s q) :
    ∃ inner, log q inner ∧ inner.Sublist calls := by
  cases h with
  | other _ hcalls => exact hcalls.sublist hq
  | @fresh operands parts call hat hends hparts =>
    have hbegins : Begins operands (evalWith host fuel) s q := by
      refine ⟨by simp [hends], ?_⟩
      rcases (operands_composed hat).mono (without_below _ q) s with hcut | hsame
      · exact hcut
      · -- then the step would end without `q`
        have hstep := hat.step host fuel (hsame.trans hends)
        cases hstep.symm.trans hq.2
    obtain ⟨inner, hinner, hsub⟩ := hparts.sublist hbegins
    exact ⟨inner, hinner, hsub.trans (List.sublist_append_left ..)⟩

/-- The call that the step makes itself is among them. -/
theorem StepMakes.mem {host : Host} {fuel : Nat} {log : Query → List FreshCall → Prop}
    {c : Cursor} {s : State} {calls : List FreshCall} (h : StepMakes host fuel log c s calls)
    {call : FreshCall} (hcall : Applies host fuel c s call) : call ∈ calls := by
  cases h with
  | other hnone _ => exact absurd hcall (hnone call)
  | fresh call' hat' hends' _ =>
    obtain ⟨operands, hat, hends⟩ := hcall
    cases hat.unique hat'
    injection hends.symm.trans hends' with hp hbefore
    injection hp with _ hargs
    cases FreshCall.eq_of_args hargs hbefore
    exact List.mem_append_right _ List.mem_cons_self

/-! ## A run -/

/-- The calls that the loop at a cursor makes with so much fuel. -/
def Makes (host : Host) : Nat → Cursor → State → List FreshCall → Prop
  | 0, _, _, calls => calls = []
  | fuel + 1, c, s, calls => ∃ first later,
    StepMakes host fuel (fun q => Makes host fuel (Cursor.start q.form q.env) q.state) c s first ∧
    calls = first ++ later ∧
    match step host (evalWith host fuel) fuel c s with
    | .value (.next d) s' => Makes host fuel d s' later
    | _ => later = []

/-- The calls that the evaluation of forms makes, one after the other in environments of their own.
The last may be cut off; before the others, anything may have happened that leaves the counter as
it is. -/
inductive RunMakes (host : Host) (fuel : Nat) : State → List (Term × Env) → List FreshCall → Prop
  | nil {s : State} : RunMakes host fuel s [] []
  | last {form : Term} {env : Env} {s : State} {calls : List FreshCall}
      (h : Makes host fuel (Cursor.start form env) s calls) :
      RunMakes host fuel s [(form, env)] calls
  | cons {form : Term} {env : Env} {rest : List (Term × Env)} {s s₁ s₂ : State}
      {first later : List FreshCall} (h : Makes host fuel (Cursor.start form env) s first)
      (hends : (evalWith host fuel form env s).state? = some s₁) (hnext : s₂.gensyms = s₁.gensyms)
      (hrest : RunMakes host fuel s₂ rest later) :
      RunMakes host fuel s ((form, env) :: rest) (first ++ later)

/-- Every evaluation makes calls, if only none. -/
theorem makes_exists (host : Host) (fuel : Nat) {c : Cursor} (hc : c.Sound) (s : State) :
    ∃ calls, Makes host fuel c s calls := by
  induction fuel generalizing c s with
  | zero => exact ⟨[], rfl⟩
  | succ fuel ih =>
    have hlog (q : Query) := ih (start_sound q.form q.env) q.state
    obtain ⟨first, hfirst⟩ := stepMakes_exists host fuel hlog hc.2 s
    cases hr : step host (evalWith host fuel) fuel c s with
    | timeout => exact ⟨first ++ [], first, [], hfirst, rfl, by simp [hr]⟩
    | failure e s' => exact ⟨first ++ [], first, [], hfirst, rfl, by simp [hr]⟩
    | value r s' =>
      cases r with
      | done v out => exact ⟨first ++ [], first, [], hfirst, rfl, by simp [hr]⟩
      | next d =>
        have htail : TailStep host c s d s' := ⟨fuel, hr⟩
        obtain ⟨later, hlater⟩ := ih (htail.sound hc) s'
        exact ⟨first ++ later, first, later, hfirst, rfl, by simpa [hr] using hlater⟩

/-- With so much fuel the loop at a cursor comes to another one, itself or in a loop inside of it
that ends, with so much fuel left for the evaluations inside of the step there. -/
inductive Reaches (host : Host) : Nat → Cursor → State → Nat → Cursor → State → Prop
  | here {fuel : Nat} {c : Cursor} {s : State} : Reaches host (fuel + 1) c s fuel c s
  | next {fuel left : Nat} {c d d' : Cursor} {s s₁ s₂ : State}
      (hstep : step host (evalWith host fuel) fuel c s = .value (.next d) s₁)
      (h : Reaches host fuel d s₁ left d' s₂) : Reaches host (fuel + 1) c s left d' s₂
  | inside {fuel left : Nat} {c d : Cursor} {s s₁ : State} {q : Query}
      (hq : Begins (fun ev => step host ev fuel c) (evalWith host fuel) s q)
      (h : Reaches host fuel (Cursor.start q.form q.env) q.state left d s₁) :
      Reaches host (fuel + 1) c s left d s₁

/-- No call is left out: where the loop comes to an application of `gensym`, it makes that call. -/
theorem Makes.mem {host : Host} {fuel left : Nat} {c d : Cursor} {s s₁ : State}
    {calls : List FreshCall} (h : Makes host fuel c s calls) (hd : Reaches host fuel c s left d s₁)
    {call : FreshCall} (hcall : Applies host left d s₁ call) : call ∈ calls := by
  induction hd generalizing calls with
  | here =>
    obtain ⟨first, later, hfirst, rfl, -⟩ := h
    exact List.mem_append_left _ (hfirst.mem hcall)
  | next hstep _ ih =>
    obtain ⟨first, later, -, rfl, hlater⟩ := h
    rw [hstep] at hlater
    exact List.mem_append_right _ (ih hlater hcall)
  | inside hq _ ih =>
    obtain ⟨first, later, hfirst, rfl, -⟩ := h
    obtain ⟨inner, hinner, hsub⟩ := hfirst.sublist hq
    exact List.mem_append_left _ (hsub.subset (ih hinner hcall))

end SmallLisp

import SmallLisp.Proofs.Sequence
import SmallLisp.Proofs.Templates

/-! Calls of functions. A call ends as its function does when that is applied to the values of the
arguments, in the environment of the caller (`evaluates_call`), and so does an `apply`, whose
arguments come in a list (`evaluates_apply`). A function written in the language is entered with
nothing but those values: where it is called from makes no difference. -/
namespace SmallLisp

/-! ## What a call comes to -/

/-- The value of a function applied to arguments; what is no function is refused. -/
def callValue (host : Host) (env : Env) (f : Term) (args : List Term) (refusal : Error)
    (ev : Evaluate) : Action Term :=
  match f with
  | .native b => b.call host ev env args
  | .closure g => g.expand ev args
  | _ => Action.fail refusal

def valuesCall (host : Host) (env : Env) (f : Term) (args : List Term) (refusal : Error)
    (ev : Evaluate) : Action Term := do
  let vs ← ev.values env args
  callValue host env f vs refusal ev

/-- A function applied to the elements of a list; no other term is accepted as one. -/
def listedCall (host : Host) (env : Env) (f l : Term) (ev : Evaluate) : Action Term :=
  match l with
  | .list vs =>
    callValue host env f vs (.general (.wrongKind SpecialForm.apply.name .function f.kind)) ev
  | t => Action.complain (.wrongKind SpecialForm.apply.name .list t.kind)

/-- A function applied to the elements of the list that an expression gives. What is no function is
refused before that is evaluated. -/
def elementsCall (host : Host) (env : Env) (f arguments : Term) (ev : Evaluate) : Action Term :=
  if f.kind == .function then do
    let l ← ev.value arguments env
    listedCall host env f l ev
  else Action.complain (.wrongKind SpecialForm.apply.name .function f.kind)

/-- The value of a call: its function and then its arguments are evaluated. -/
def directCall (host : Host) (env : Env) (head : Term) (args : List Term) (ev : Evaluate) :
    Action Term := do
  let f ← ev.value head env
  valuesCall host env f args (.runtime (.notFunction head)) ev

def listCall (host : Host) (env : Env) (function arguments : Term) (ev : Evaluate) :
    Action Term := do
  let f ← ev.value function env
  elementsCall host env f arguments ev

section

variable (host : Host) (env : Env) (f : Term)

theorem steady_callValue (args : List Term) (refusal : Error) :
    Steady (callValue host env f args refusal) := by
  intro ev ev' h
  unfold callValue
  split
  · exact call_below h host env _ args
  · exact expand_below h _ args
  · exact .refl _

theorem steady_valuesCall (args : List Term) (refusal : Error) :
    Steady (valuesCall host env f args refusal) :=
  (steady_values env args).bind fun vs => steady_callValue host env f vs refusal

theorem steady_listedCall (l : Term) : Steady (listedCall host env f l) := by
  cases l with
  | list vs => exact steady_callValue host env f vs _
  | _ => exact steady_const _

theorem steady_elementsCall (arguments : Term) : Steady (elementsCall host env f arguments) := by
  unfold elementsCall
  split
  · exact (steady_value arguments env).bind fun l => steady_listedCall host env f l
  · exact steady_const _

theorem steady_directCall (args : List Term) : Steady (directCall host env f args) :=
  (steady_value f env).bind fun v => steady_valuesCall host env v args _

theorem steady_listCall (arguments : Term) : Steady (listCall host env f arguments) :=
  (steady_value f env).bind fun v => steady_elementsCall host env v arguments

end

/-! ## The loop around a call -/

/-- The value of an action with the environment that a form hands back; errors are reported in the
form. -/
def Action.handingBack (form : Term) (env : Env) (m : Action Term) : Action (Term × Env) :=
  Action.inForm form (m >>= fun v => return (v, env))

section

variable (host : Host) (fuel : Nat) (form : Term) (env : Env)

/-- The last form of a body is evaluated as by itself, inside the form that made the call. -/
theorem run_body (tail : Term) (inner : Env) (s : State) :
    run host fuel ⟨tail, inner, env, false, some form⟩ s =
      Action.handingBack form env ((evalWith host fuel).value tail inner) s := by
  have hco : Cursor.Coherent ⟨tail, inner, env, false, some form⟩ := nofun
  rw [run_eq_handBack host fuel hco s, Action.handingBack, Action.inForm, Evaluate.value,
    Action.bind_apply, Action.bind_apply]
  cases h : evalWith host fuel tail inner s with
  | value p s' => rfl
  | timeout => rfl
  | failure e s' =>
    cases htail : tail.isForm with
    | false => simp [Outcome.handBack, Error.inTail, htail]
    | true =>
      have hrep := run_reported host fuel (Cursor.start_coherent tail inner) (.inl htail) h
      simp [Outcome.handBack, Error.inTail, htail, hrep form]

/-- The rest of the loop when a step makes a call. -/
theorem finishRun_call (f : Term) (args : List Term) (refusal : Error) (s : State) :
    finishRun host fuel (Action.inForm form
        (Cursor.call ⟨form, env, env, true, some form⟩ host (evalWith host fuel) f args
          (Action.fail refusal)) s) =
      Action.handingBack form env (callValue host env f args refusal (evalWith host fuel)) s := by
  cases f with
  | native b =>
    simp only [Cursor.call, callValue, Action.handingBack, Action.inForm, Action.bind_apply]
    cases b.call host (evalWith host fuel) env args s <;> rfl
  | closure g =>
    simp only [Cursor.call, callValue, Action.handingBack, Action.inForm, Action.bind_apply,
      Closure.expand]
    cases g.enter (evalWith host fuel) args s with
    | timeout => rfl
    | failure e s' => rfl
    | value r s' =>
      have hbody := run_body host fuel form env r.2 r.1 s'
      simp only [Action.handingBack, Action.inForm, Action.bind_apply] at hbody
      exact hbody
  | _ => rfl

variable {host fuel form env}

/-- What a step does before it settles how to go on, it does before that. -/
theorem finishRun_then {α : Type} (m : Action α) {k : α → Action Step}
    {k' : α → Action (Term × Env)}
    (hk : ∀ a s, finishRun host fuel (Action.inForm form (k a) s) =
      Action.inForm form (k' a) s) (s : State) :
    finishRun host fuel (Action.inForm form (m >>= k) s) = Action.inForm form (m >>= k') s := by
  have hthen (a : α) (s' : State) := hk a s'
  simp only [Action.inForm, Action.bind_apply] at hthen ⊢
  cases m s with
  | value a s' => exact hthen a s'
  | failure e s' => rfl
  | timeout => rfl

/-- What a step does before it makes a call, it does before that has its value. -/
theorem finishRun_bind {α : Type} (m : Action α) {k : α → Action Step} {k' : α → Action Term}
    (hk : ∀ a s, finishRun host fuel (Action.inForm form (k a) s) =
      Action.handingBack form env (k' a) s) (s : State) :
    finishRun host fuel (Action.inForm form (m >>= k) s) =
      Action.handingBack form env (m >>= k') s := by
  rw [Action.handingBack, bind_assoc]
  exact finishRun_then m hk s

end

section

variable {host : Host} {env : Env} {s : State} {r : Outcome (Term × Env)}

/-- An evaluation ends as its first step and the rest of the loop do. -/
theorem evaluates_iff_endsIn {form : Term} {m : Evaluate → Action (Term × Env)}
    (h : ∀ fuel, finishRun host fuel (step host (evalWith host fuel) fuel
      (Cursor.start form env) s) = m (evalWith host fuel) s) :
    Evaluates host form env s r ↔ EndsIn host m s r := by
  constructor
  · rintro ⟨hr, fuel, rfl⟩
    cases fuel with
    | zero => exact absurd rfl hr
    | succ fuel =>
      refine ⟨hr, fuel, ?_⟩
      rw [run_eq_finishRun, h]
  · rintro ⟨hr, fuel, rfl⟩
    refine ⟨hr, fuel + 1, ?_⟩
    rw [run_eq_finishRun, h]

theorem evaluates_call {head : Term} {args : List Term} (hm : macroOf? s env head = none)
    (hf : specialForm? head = none) :
    Evaluates host (.list (head :: args)) env s r ↔
      EndsIn host (fun ev => Action.handingBack (.list (head :: args)) env
        (directCall host env head args ev)) s r := by
  refine evaluates_iff_endsIn fun fuel => ?_
  rw [step_form host _ fuel rfl]
  simp only [Action.inForm, Cursor.start]
  rw [stepForm_apply host _ fuel args hm hf]
  exact finishRun_bind _ (fun f => finishRun_bind _ fun vs =>
    finishRun_call host fuel _ env f vs _) s

theorem evaluates_apply {head function arguments : Term} (hm : macroOf? s env head = none)
    (hf : specialForm? head = some .apply) :
    Evaluates host (.list [head, function, arguments]) env s r ↔
      EndsIn host (fun ev => Action.handingBack (.list [head, function, arguments]) env
        (listCall host env function arguments ev)) s r := by
  refine evaluates_iff_endsIn fun fuel => ?_
  rw [step_form host _ fuel rfl]
  simp only [Action.inForm, Cursor.start]
  rw [stepForm_special host _ fuel _ hm hf]
  refine finishRun_bind _ (fun f s' => ?_) s
  unfold elementsCall
  split
  · refine finishRun_bind _ (fun l s' => ?_) s'
    cases l with
    | list vs => exact finishRun_call host fuel _ env f vs _ s'
    | _ => rfl
  · rfl

end

/-! ## Arguments in a list -/

section

variable {host : Host} {env : Env} {s s₁ : State} {f v : Term} {args : List Term}

theorem callValue_refusal (hv : v.kind = .function) (e e' : Error) :
    callValue host env v args e = callValue host env v args e' := by
  cases v with
  | native b => rfl
  | closure g => rfl
  | list ts => cases hv
  | dict es => cases hv
  | atom a => cases a <;> cases hv

/-- The elements of the list of the arguments are the arguments. -/
theorem elementsCall_agrees (hv : v.kind = .function)
    (hlist : s.Calls env (Bytes.ofString "list") .list) (e : Error) :
    Agrees host s (valuesCall host env v args e)
      (elementsCall host env v (.list (.sym "list" :: args))) := by
  let whole : Term := .list (.sym "list" :: args)
  let listed (ev : Evaluate) : Action Term := ev.values env args >>= fun vs => pure (.list vs)
  have hlisted : Steady listed := (steady_values env args).bind fun _ => steady_const _
  have hwhole : Agrees host s (fun ev => ev.value whole env) listed := Agrees.call hlist args
  have hthen := hwhole.bind (steady_value whole env) hlisted (steady_listedCall host env v)
    (steady_listedCall host env v) fun _ _ _ => .refl _
  refine Agrees.trans (.of_eq fun ev => ?_) (hthen.symm.trans (.of_eq fun ev => ?_))
  · simp only [listed, valuesCall, bind_assoc, pure_bind, listedCall]
    exact congrArg (ev.values env args >>= ·) (funext fun vs =>
      congrFun (callValue_refusal hv _ _) ev)
  · simp only [elementsCall, hv, beq_self_eq_true, if_true, whole]

theorem listCall_agrees (args : List Term)
    (hf : EndsIn host (fun ev => ev.value f env) s (.value v s₁))
    (hv : v.kind = .function) (hlist : s₁.Calls env (Bytes.ofString "list") .list) :
    Agrees host s (directCall host env f args)
      (listCall host env f (.list (.sym "list" :: args))) := by
  refine .bind (steady_value f env) (steady_value f env)
    (fun u => steady_valuesCall host env u args _) (fun u => steady_elementsCall host env u _)
    (.refl _) fun u s' hu => ?_
  cases hu.unique (steady_value f env) hf
  exact elementsCall_agrees hv hlist _

theorem call_agrees (hm : macroOf? s env f = none) (hf : specialForm? f = none) :
    Agrees host s (fun ev => ev (.list (f :: args)) env) fun ev =>
      directCall host env f args ev >>= fun v => return (v, env) :=
  Agrees.trans (.of_iff fun _ => evaluates_call hm hf) (.inForm _ _)

theorem apply_agrees {arguments : Term} (hm : macroOf? s env (.sym "apply") = none) :
    Agrees host s (fun ev => ev (.list [.sym "apply", f, arguments]) env) fun ev =>
      listCall host env f arguments ev >>= fun v => return (v, env) :=
  Agrees.trans (.of_iff fun _ => evaluates_apply hm (by decide)) (.inForm _ _)

end

/-- A form that calls a function and the `apply` of that function to the list of the arguments end
with the same value, environment and state, or with the same error in the same state but for the
form that it is reported in. The function may be any expression but the name of a special form or of
a macro, and `list` has to be the native function when that expression has been evaluated. -/
theorem apply_agrees_with_call {host : Host} {env env' : Env} {s s₁ : State} {f v : Term}
    (args : List Term) (happly : macroOf? s env (.sym "apply") = none)
    (hplain : macroOf? s env f = none) (hspecial : specialForm? f = none)
    (hf : Evaluates host f env s (.value (v, env') s₁)) (hv : v.kind = .function)
    (hlist : s₁.lookup env (Bytes.ofString "list") = .ok (.native (.primitive .list))) :
    let called : Term := .list (f :: args)
    let applied : Term := .list [.sym "apply", f, .list (.sym "list" :: args)]
    (∀ r, Evaluates host called env s r →
      ∃ r', Evaluates host applied env s r' ∧ r.bare = r'.bare) ∧
    ∀ r', Evaluates host applied env s r' →
      ∃ r, Evaluates host called env s r ∧ r.bare = r'.bare := by
  intro called applied
  have hvalue : EndsIn host (fun ev => ev.value f env) s (.value v s₁) :=
    EndsIn.value_iff_value.mpr ⟨env', hf⟩
  have hboth := (listCall_agrees args hvalue hv ⟨hlist, by decide, by decide⟩).bind
    (steady_directCall host env f args) (steady_listCall host env f _)
    (fun v => steady_const (pure (v, env))) (fun v => steady_const (pure (v, env)))
    fun _ _ _ => .refl _
  exact (call_agrees hplain hspecial).trans (hboth.trans (apply_agrees happly).symm)

def twice : Closure Term :=
  ⟨0, false, [], [], [Bytes.ofString "x"], none, [.list [.sym "list", .sym "x", .sym "x"]],
    ⟨[], []⟩⟩

def twiceBound : State :=
  { State.empty with namespaces := [([], ⟨[], [(Bytes.ofString "twice", .closure twice),
      (Bytes.ofString "list", .native (.primitive .list)),
      (Bytes.ofString "+", .native (.primitive .add))], [], []⟩)] }

/-- The body of a function and a native function give the same value in the same state in both
ways, and two arguments are one too many in both. -/
theorem twice_and_sum_applied :
    let top : Env := ⟨[], []⟩
    let s := twiceBound
    let applied (f : Term) (args : List Term) : Term :=
      .list [.sym "apply", f, .list (.sym "list" :: args)]
    let pair : Outcome (Term × Env) := .value (.list [.int 7, .int 7], top)
      (s.addFrame [(Bytes.ofString "x", .int 7)])
    let sum : Outcome (Term × Env) := .value (.int 3, top) s
    let many := Error.runtime (.argumentCount 1 2)
    let called : Term := .list [.sym "twice", .int 1, .int 2]
    (Evaluates Host.bare (.list [.sym "twice", .int 7]) top s pair ∧
      Evaluates Host.bare (applied (.sym "twice") [.int 7]) top s pair) ∧
    (Evaluates Host.bare (.list [.sym "+", .int 1, .int 2]) top s sum ∧
      Evaluates Host.bare (applied (.sym "+") [.int 1, .int 2]) top s sum) ∧
    Evaluates Host.bare called top s (.failure (.inForm called many) s) ∧
      ∃ r, Evaluates Host.bare (applied (.sym "twice") [.int 1, .int 2]) top s r ∧
        r.bare = .failure many s := by
  intro top s applied pair sum many called
  have htwice : Evaluates Host.bare (.sym "twice") top s (.value (.closure twice, top) s) :=
    ⟨nofun, 1, rfl⟩
  have hadd : Evaluates Host.bare (.sym "+") top s
      (.value (.native (.primitive .add), top) s) := ⟨nofun, 1, rfl⟩
  have hpair : Evaluates Host.bare (.list [.sym "twice", .int 7]) top s pair := ⟨nofun, 4, rfl⟩
  have hsum : Evaluates Host.bare (.list [.sym "+", .int 1, .int 2]) top s sum := ⟨nofun, 3, rfl⟩
  have hmany : Evaluates Host.bare called top s (.failure (.inForm called many) s) :=
    ⟨nofun, 3, rfl⟩
  refine ⟨⟨hpair, ?_⟩, ⟨hsum, ?_⟩, hmany, ?_⟩
  · obtain ⟨r, hr, heq⟩ :=
      (apply_agrees_with_call [.int 7] rfl rfl (by decide) htwice rfl rfl).1 _ hpair
    obtain rfl := bare_eq_value.mp heq.symm
    exact hr
  · obtain ⟨r, hr, heq⟩ :=
      (apply_agrees_with_call [.int 1, .int 2] rfl rfl (by decide) hadd rfl rfl).1 _ hsum
    obtain rfl := bare_eq_value.mp heq.symm
    exact hr
  · obtain ⟨r, hr, heq⟩ :=
      (apply_agrees_with_call [.int 1, .int 2] rfl rfl (by decide) htwice rfl rfl).1 _ hmany
    exact ⟨r, hr, heq.symm⟩

/-! ## The caller -/

def Outcome.reportedIn {α : Type} (form : Term) : Outcome α → Outcome α
  | .failure e s => .failure (e.withForm form) s
  | r => r

theorem EndsIn.handingBack_iff {host : Host} {form : Term} {env : Env} {s : State}
    {m : Evaluate → Action Term} {r : Outcome (Term × Env)} :
    EndsIn host (fun ev => Action.handingBack form env (m ev)) s r ↔
      ∃ o, EndsIn host m s o ∧ r = (o.reportedIn form).map (·, env) := by
  have heq (a : Action Term) : Action.handingBack form env a s =
      ((a s).reportedIn form).map (·, env) := by
    rw [Action.handingBack, Action.inForm, Action.bind_apply]
    cases a s <;> rfl
  have htimeout (o : Outcome Term) :
      (o.reportedIn form).map (·, env) = .timeout ↔ o = .timeout := by
    cases o <;> simp [Outcome.reportedIn, Outcome.map]
  constructor
  · rintro ⟨hr, fuel, rfl⟩
    dsimp only at hr ⊢
    rw [heq] at hr ⊢
    exact ⟨_, ⟨mt (htimeout _).mpr hr, fuel, rfl⟩, rfl⟩
  · rintro ⟨o, ⟨ho, fuel, rfl⟩, rfl⟩
    exact ⟨mt (htimeout _).mp ho, fuel, heq _⟩

theorem map_pair_injective {env : Env} {o o' : Outcome Term}
    (h : o.map (·, env) = o'.map (·, env)) : o = o' := by
  cases o <;> cases o' <;> simp_all [Outcome.map]

/-- What an action does once its first part has ended with a value. -/
theorem EndsIn.bind_of_value_iff {α β : Type} {host : Host} {m : Evaluate → Action α}
    {k : α → Evaluate → Action β} {s s' : State} {a : α} {r : Outcome β} (hm : Steady m)
    (hk : ∀ a, Steady (k a)) (ha : EndsIn host m s (.value a s')) :
    EndsIn host (fun ev => m ev >>= fun a => k a ev) s r ↔ EndsIn host (k a) s' r := by
  refine ⟨fun h => ?_, ha.bind_value hm hk⟩
  rcases (EndsIn.bind_iff hm hk).mp h with ⟨e, s₁, hfail, -⟩ | ⟨b, s₁, hb, hthen⟩
  · cases hfail.unique hm ha
  · cases hb.unique hm ha
    exact hthen

/-- A call of the function itself, with these values as they are for arguments. -/
def quotedCall (f : Closure Term) (args : List Term) : Term :=
  .list (.closure f :: args.map fun a => .list [.sym "quote", a])

/-- The body of a function, evaluated in a frame on top of the captured environment, in the
namespace of the definition. -/
def Closure.bodyIn (f : Closure Term) (frame : Nat) (ev : Evaluate) : Action Term := do
  let env : Env := ⟨frame :: f.env.frames, f.home⟩
  ev.each env f.body.dropLast
  ev.value (f.body.getLastD .nil) env

section

variable {host : Host} {env : Env} {s : State} {f : Closure Term}

theorem quoted_values (h : macroOf? s env (.sym "quote") = none) (args : List Term) :
    EndsIn host (fun ev => ev.values env (args.map fun a => .list [.sym "quote", a])) s
      (.value args s) := by
  induction args with
  | nil => exact .pure []
  | cons a args ih =>
    exact EndsIn.values_cons_iff.mpr
      (.inr ⟨a, env, s, evaluates_quote h a, _, ih, rfl⟩)

theorem expand_of_fault {args : List Term} {fault : RuntimeFault} {o : Outcome Term}
    (h : f.bind args = .error fault) :
    EndsIn host (fun ev => f.expand ev args) s o ↔ o = .failure (.runtime fault) s := by
  have hexpand (ev : Evaluate) : f.expand ev args s = .failure (.runtime fault) s := by
    simp only [Closure.expand, Closure.enter, h]
    rfl
  constructor
  · rintro ⟨-, fuel, rfl⟩
    exact hexpand _
  · rintro rfl
    exact ⟨nofun, 0, hexpand _⟩

theorem expand_of_frame {args : List Term} {frame : Table Term} {o : Outcome Term}
    (h : f.bind args = .ok frame) :
    EndsIn host (fun ev => f.expand ev args) s o ↔
      EndsIn host (f.bodyIn s.frames.size) (s.addFrame frame) o := by
  have hexpand (ev : Evaluate) :
      f.expand ev args s = f.bodyIn s.frames.size ev (s.addFrame frame) := by
    simp only [Closure.expand, Closure.enter, h, bind_assoc, pure_bind]
    rfl
  simp only [EndsIn, hexpand]

/-- A call of a function written in the language is the function applied to the arguments, and the
environment of the caller is handed back. -/
theorem evaluates_quotedCall (h : macroOf? s env (.sym "quote") = none) (args : List Term)
    {r : Outcome (Term × Env)} :
    Evaluates host (quotedCall f args) env s r ↔
      ∃ o, EndsIn host (fun ev => f.expand ev args) s o ∧
        r = (o.reportedIn (quotedCall f args)).map (·, env) := by
  let quoted := args.map fun a => Term.list [.sym "quote", a]
  let refusal := Error.runtime (.notFunction (.closure f))
  have hf : EndsIn host (fun ev => ev.value (.closure f) env) s (.value (.closure f) s) :=
    EndsIn.value_iff_value.mpr ⟨env, nofun, 1, rfl⟩
  have hcall (o : Outcome Term) : EndsIn host (directCall host env (.closure f) quoted) s o ↔
      EndsIn host (fun ev => f.expand ev args) s o :=
    (EndsIn.bind_of_value_iff (steady_value _ env) (fun v => steady_valuesCall host env v quoted _)
      hf).trans (EndsIn.bind_of_value_iff (steady_values env quoted)
        (fun vs => steady_callValue host env (.closure f) vs refusal) (quoted_values h args))
  have hloop : Evaluates host (quotedCall f args) env s r ↔ _ :=
    (evaluates_call rfl rfl).trans EndsIn.handingBack_iff
  exact hloop.trans (exists_congr fun o => and_congr_left fun _ => hcall o)

end

/-- What a call of a function of the language gives does not depend on the environment that the call
is made in: from the same state it ends with the same value and the same state, or with the same
error in the same state, and hands back the environment it was given. The body is evaluated in a new
frame, which binds the parameters, on top of the environment that the function has captured, in the
namespace of its definition. -/
theorem call_ignores_caller (host : Host) {e₁ e₂ : Env} {s : State}
    (h₁ : macroOf? s e₁ (.sym "quote") = none) (h₂ : macroOf? s e₂ (.sym "quote") = none)
    (f : Closure Term) (args : List Term) :
    let call := quotedCall f args
    (∀ o : Outcome Term,
      Evaluates host call e₁ s (o.map (·, e₁)) ↔ Evaluates host call e₂ s (o.map (·, e₂))) ∧
    ∀ e ∈ [e₁, e₂],
      (∀ r, Evaluates host call e s r → ∃ o : Outcome Term, r = o.map (·, e)) ∧
      (∀ fault, f.bind args = .error fault → ∀ r,
        Evaluates host call e s r ↔ r = .failure (.inForm call (.runtime fault)) s) ∧
      ∀ frame, f.bind args = .ok frame → ∀ r, Evaluates host call e s r ↔
        ∃ o, EndsIn host (f.bodyIn s.frames.size) (s.addFrame frame) o ∧
          r = (o.reportedIn call).map (·, e) := by
  intro call
  have hquote : ∀ e ∈ [e₁, e₂], macroOf? s e (.sym "quote") = none := by
    simp [h₁, h₂]
  have hends (e : Env) (he : e ∈ [e₁, e₂]) (r : Outcome (Term × Env)) :
      Evaluates host call e s r ↔ ∃ o, EndsIn host (fun ev => f.expand ev args) s o ∧
        r = (o.reportedIn call).map (·, e) := evaluates_quotedCall (hquote e he) args
  have hvalue (e : Env) (he : e ∈ [e₁, e₂]) (o : Outcome Term) :
      Evaluates host call e s (o.map (·, e)) ↔
        ∃ o', EndsIn host (fun ev => f.expand ev args) s o' ∧ o = o'.reportedIn call := by
    refine (hends e he _).trans (exists_congr fun o' => and_congr_right fun _ => ?_)
    exact ⟨map_pair_injective, fun heq => by rw [heq]⟩
  refine ⟨fun o => ?_, fun e he => ⟨fun r hr => ?_, fun fault hfault r => ?_,
    fun frame hframe r => ?_⟩⟩
  · exact (hvalue e₁ List.mem_cons_self o).trans
      (hvalue e₂ (List.mem_cons_of_mem _ List.mem_cons_self) o).symm
  · obtain ⟨o, -, rfl⟩ := (hends e he r).mp hr
    exact ⟨_, rfl⟩
  · rw [hends e he r]
    simp only [expand_of_fault hfault, exists_eq_left]
    rfl
  · rw [hends e he r]
    simp only [expand_of_frame hframe]

/-- The body switches to the namespace `b` and then gives the captured `y`. -/
def captured : Closure Term :=
  ⟨0, false, [], [], [Bytes.ofString "x"], none, [.list [.sym "in-ns", .sym "b"], .sym "y"],
    ⟨[0], []⟩⟩

/-- A frame that a function has captured, and the frame of a caller, with other values of `y`. -/
def twoFrames : State :=
  (State.empty.addFrame [(Bytes.ofString "y", .int 1)]).addFrame [(Bytes.ofString "y", .int 2)]

/-- A caller with a frame of its own gets the same value as one without, in the same state, and each
keeps its namespace. -/
theorem twoCallers_same :
    let a := Bytes.ofString "a"
    let call := quotedCall captured [.int 7]
    let s := (twoFrames.addFrame [(Bytes.ofString "x", .int 7)]).require (Bytes.ofString "b")
    Evaluates Host.bare call ⟨[1], a⟩ twoFrames (.value (.int 1, ⟨[1], a⟩) s) ∧
      Evaluates Host.bare call ⟨[], []⟩ twoFrames (.value (.int 1, ⟨[], []⟩) s) := by
  intro a call s
  have hinside : Evaluates Host.bare call ⟨[1], a⟩ twoFrames (.value (.int 1, ⟨[1], a⟩) s) :=
    ⟨nofun, 5, rfl⟩
  have hquote : macroOf? twoFrames ⟨[1], a⟩ (.sym "quote") = none := rfl
  have hquote' : macroOf? twoFrames ⟨[], []⟩ (.sym "quote") = none := rfl
  have hsame := call_ignores_caller Host.bare hquote hquote' captured [.int 7]
  exact ⟨hinside, (hsame.1 (.value (.int 1) s)).mp hinside⟩

end SmallLisp

import SmallLisp.Proofs.CoreText
import SmallLisp.Proofs.Computing

/-! Forms as actions. But for the forms that errors are reported in, a special form or the call of a
macro ends as an action does that evaluates its parts and goes on with one of them: `if` with a
branch, `do` with its forms in turn, a macro call with what it expands to. -/
namespace SmallLisp

/-- Besides frames and so many functions, nothing is new in `s'`. -/
structure State.Beside (made : Nat) (s' s : State) : Prop where
  namespaces : s'.namespaces = s.namespaces
  dirs : s'.dirs = s.dirs
  gensyms : s'.gensyms = s.gensyms
  closures : s'.closures = s.closures + made
  trace : s'.trace = s.trace
  size_le : s.frames.size ≤ s'.frames.size
  frame {i : Nat} (hi : i < s.frames.size) : s'.frame i = s.frame i

theorem State.Beside.refl (s : State) : State.Beside 0 s s :=
  ⟨rfl, rfl, rfl, rfl, rfl, Nat.le_refl _, fun _ => rfl⟩

theorem State.Beside.addFrame {made : Nat} {s s' : State} (h : State.Beside made s' s)
    (f : Table Term) : State.Beside made (s'.addFrame f) s where
  namespaces := h.namespaces
  dirs := h.dirs
  gensyms := h.gensyms
  closures := h.closures
  trace := h.trace
  size_le := by
    rw [State.addFrame_size]
    exact Nat.le_succ_of_le h.size_le
  frame hi := by
    rw [State.frame_addFrame (Nat.lt_of_lt_of_le hi h.size_le), h.frame hi]

theorem State.Beside.trans {made made' : Nat} {s s' s'' : State} (h' : State.Beside made' s'' s')
    (h : State.Beside made s' s) : State.Beside (made + made') s'' s where
  namespaces := h'.namespaces.trans h.namespaces
  dirs := h'.dirs.trans h.dirs
  gensyms := h'.gensyms.trans h.gensyms
  closures := by rw [h'.closures, h.closures, Nat.add_assoc]
  trace := h'.trace.trans h.trace
  size_le := Nat.le_trans h.size_le h'.size_le
  frame hi := (h'.frame (Nat.lt_of_lt_of_le hi h.size_le)).trans (h.frame hi)

def Env.Within (env : Env) (s : State) : Prop := ∀ i ∈ env.frames, i < s.frames.size

/-- A new frame does not show in environments that were there before it. -/
theorem Env.Within.lookup_addFrame {env : Env} {s : State} (h : env.Within s) (f : Table Term)
    (name : Bytes) : (s.addFrame f).lookup env name = s.lookup env name := by
  have hframes (is : List Nat) (his : ∀ i ∈ is, i < s.frames.size) :
      (is.findSome? fun i => ((s.addFrame f).frame i).get? name) =
        is.findSome? fun i => (s.frame i).get? name := by
    induction is with
    | nil => rfl
    | cons i is ih =>
      obtain ⟨hi, his⟩ := List.forall_mem_cons.mp his
      rw [List.findSome?_cons, List.findSome?_cons, State.frame_addFrame hi, ih his]
  have hnamespaces : (s.addFrame f).namespaces = s.namespaces := rfl
  simp only [State.lookup, hframes env.frames h, hnamespaces]

theorem Env.Within.macroOf_addFrame {env : Env} {s : State} (h : env.Within s) (f : Table Term)
    (head : Term) : macroOf? (s.addFrame f) env head = macroOf? s env head := by
  cases head with
  | atom a => cases a <;> simp only [macroOf?, h.lookup_addFrame]
  | _ => rfl

section

variable {host : Host} {s : State} {env : Env} {α β : Type}

theorem steady_eval (t : Term) (env : Env) : Steady fun ev => ev t env := fun _ _ h => h t env

theorem steady_expand (g : Closure Term) (args : List Term) : Steady fun ev => g.expand ev args :=
  fun _ _ h => expand_below h g args

theorem steady_inTurn (ts : List Term) (v : Term) (env : Env) :
    Steady fun ev => ev.inTurn ts v env := by
  induction ts generalizing v env with
  | nil => exact steady_const _
  | cons t ts ih => exact (steady_eval t env).bind fun p => ih p.1 p.2

/-- A term that computes agrees with its value. -/
theorem Computes.agrees {n : Nat} {t v : Term} (h : Computes n s env t v) (host : Host) :
    Agrees host s (fun ev => ev t env) (fun _ => return (v, env)) :=
  .of_value (steady_eval t env) (h.evaluates host)

theorem ComputesAll.agrees {n : Nat} {ts vs : List Term} (h : ComputesAll n s env ts vs)
    (host : Host) : Agrees host s (fun ev => ev.values env ts) (fun _ => return vs) :=
  .of_value (steady_values env ts) (h.endsIn host)

/-- An evaluation that agrees with an action and hands back an environment has the value of that. -/
theorem Agrees.to_value {t : Term} (out : Env) {m : Evaluate → Action Term} (hm : Steady m)
    (h : Agrees host s (fun ev => ev t env) fun ev => m ev >>= fun v => return (v, out)) :
    Agrees host s (fun ev => ev.value t env) m := by
  have hfirst := h.bind (steady_eval t env) (hm.bind fun v => steady_const (pure (v, out)))
    (fun p => steady_const (pure p.1)) (fun p => steady_const (pure p.1)) fun _ _ _ => .refl _
  refine hfirst.trans (.of_eq fun ev => ?_)
  simp only [bind_assoc, pure_bind, bind_pure]

/-- Actions agree if they do after first ones that end in the same state. -/
theorem Agrees.prefixed {γ : Type} {m : Evaluate → Action α} {m' : Evaluate → Action γ}
    {f : α → Evaluate → Action β} {f' : γ → Evaluate → Action β} {a : α} {c : γ} {s' : State}
    (hm : Steady m) (hm' : Steady m') (hf : ∀ a, Steady (f a)) (hf' : ∀ c, Steady (f' c))
    (ha : EndsIn host m s (.value a s')) (hc : EndsIn host m' s (.value c s'))
    (h : Agrees host s' (f a) (f' c)) :
    Agrees host s (fun ev => m ev >>= fun a => f a ev) (fun ev => m' ev >>= fun c => f' c ev) := by
  have hleft {r : Outcome β} := EndsIn.bind_of_value_iff (r := r) hm hf ha
  have hright {r : Outcome β} := EndsIn.bind_of_value_iff (r := r) hm' hf' hc
  constructor
  · intro r hr
    obtain ⟨r', hr', heq⟩ := h.1 r (hleft.mp hr)
    exact ⟨r', hright.mpr hr', heq⟩
  · intro r' hr'
    obtain ⟨r, hr, heq⟩ := h.2 r' (hright.mp hr')
    exact ⟨r, hleft.mpr hr, heq⟩

/-- What an action does after a first one that has a value and changes nothing. -/
theorem Agrees.past {m : Evaluate → Action α} {f : α → Evaluate → Action β}
    {m' : Evaluate → Action β} {a : α} (hm : Steady m) (hf : ∀ a, Steady (f a))
    (ha : EndsIn host m s (.value a s)) (h : Agrees host s (f a) m') :
    Agrees host s (fun ev => m ev >>= fun a => f a ev) m' :=
  .trans (.of_iff fun _ => EndsIn.bind_of_value_iff hm hf ha) h

/-- Actions agree after a first one that they have in common. -/
theorem Agrees.after {m : Evaluate → Action α} {f f' : α → Evaluate → Action β} (hm : Steady m)
    (hf : ∀ a, Steady (f a)) (hf' : ∀ a, Steady (f' a))
    (h : ∀ a s', EndsIn host m s (.value a s') → Agrees host s' (f a) (f' a)) :
    Agrees host s (fun ev => m ev >>= fun a => f a ev) (fun ev => m ev >>= fun a => f' a ev) :=
  .bind hm hm hf hf' (.refl m) h

/-- The same, where the first one only changes the state. -/
theorem Agrees.after_update {f : State → State} {m m' : Evaluate → Action α} (hm : Steady m)
    (hm' : Steady m') (h : Agrees host (f s) m m') :
    Agrees host s (fun ev => Action.update f >>= fun _ => m ev)
      (fun ev => Action.update f >>= fun _ => m' ev) := by
  have hupdate : EndsIn host (fun _ => Action.update f) s (.value () (f s)) := ⟨nofun, 0, rfl⟩
  exact .prefixed (steady_const _) (steady_const _) (fun _ => hm) (fun _ => hm') hupdate hupdate h

/-! ## Special forms -/

theorem Agrees.special {form head : Term} {args : List Term} {f : SpecialForm}
    (hform : form = .list (head :: args)) (hm : macroOf? s env head = none)
    (hf : specialForm? head = some f) {m : Evaluate → Action (Term × Env)}
    (h : ∀ fuel, finishRun host fuel (Action.inForm form
        (Cursor.special ⟨form, env, env, true, some form⟩ host (evalWith host fuel) fuel f args) s) =
      Action.inForm form (m (evalWith host fuel)) s) :
    Agrees host s (fun ev => ev form env) m := by
  subst hform
  refine Agrees.trans (.of_iff fun r => evaluates_iff_endsIn fun fuel => ?_)
    (.inForm (.list (head :: args)) m)
  rw [← h, step_form host _ fuel rfl]
  simp only [Action.inForm, Cursor.start]
  rw [stepForm_special host _ fuel args hm hf]

theorem finishRun_goOn_eq (host : Host) (fuel : Nat) (form t : Term) (env : Env) (s : State) :
    finishRun host fuel (Action.inForm form
        (Cursor.goOn ⟨form, env, env, true, some form⟩ t) s) =
      Action.inForm form (evalWith host fuel t env) s := run_last host fuel form t env s

def chosen (yes no : Action α) : Term → Action α
  | .bool true => yes
  | .bool false => no
  | v => Action.complain (.condition SpecialForm.choose.name v.kind)

theorem steady_chosen {yes no : Evaluate → Action α} (hyes : Steady yes) (hno : Steady no)
    (v : Term) : Steady fun ev => chosen (yes ev) (no ev) v := by
  intro ev ev' h
  unfold chosen
  split
  · exact hyes ev ev' h
  · exact hno ev ev' h
  · exact .refl _

/-- The choices agree if the branches do, each where it is taken. -/
theorem Agrees.chosen {yes yes' no no' : Evaluate → Action α} (v : Term)
    (hyes : v = .bool true → Agrees host s yes yes')
    (hno : v = .bool false → Agrees host s no no') :
    Agrees host s (fun ev => chosen (yes ev) (no ev) v)
      (fun ev => chosen (yes' ev) (no' ev) v) := by
  unfold SmallLisp.chosen
  split
  · exact hyes rfl
  · exact hno rfl
  · exact .refl _

theorem finishRun_branch (host : Host) (fuel : Nat) (form yes : Term) (no : Option Term) (env : Env)
    (v : Term) (s : State) :
    finishRun host fuel (Action.inForm form
        (Cursor.branch ⟨form, env, env, true, some form⟩ yes no v) s) =
      Action.inForm form (SmallLisp.chosen (evalWith host fuel yes env)
        (match no with
          | some t => evalWith host fuel t env
          | none => return (.nil, env)) v) s := by
  have hbranch (c : Cursor) : c.branch yes no v = SmallLisp.chosen (c.goOn yes)
      (match no with
        | some t => c.goOn t
        | none => c.finish .nil) v := rfl
  rw [hbranch]
  unfold SmallLisp.chosen
  split
  · exact finishRun_goOn_eq host fuel form yes env s
  · cases no with
    | some t => exact finishRun_goOn_eq host fuel form t env s
    | none => rfl
  · rfl

theorem Agrees.choose (hif : macroOf? s env (.sym "if") = none) (c yes no : Term) :
    Agrees host s (fun ev => ev (formOf "if" [c, yes, no]) env)
      (fun ev => ev.value c env >>= SmallLisp.chosen (ev yes env) (ev no env)) :=
  .special rfl hif (f := .choose) (by decide) fun fuel =>
    finishRun_then _ (fun v => finishRun_branch host fuel _ yes (some no) env v) s

/-- A condition that computes chooses its branch. -/
theorem Agrees.branch {n : Nat} {c : Term} {b : Bool}
    (hif : macroOf? s env (.sym "if") = none) (hc : Computes n s env c (.bool b)) (yes no : Term) :
    Agrees host s (fun ev => ev.value (formOf "if" [c, yes, no]) env)
      (fun ev => ev.value (if b then yes else no) env) := by
  have hends : EndsIn host (fun ev => ev.value c env) s (.value (.bool b) s) :=
    EndsIn.value_iff_value.mpr ⟨env, hc.evaluates host⟩
  have hchosen : Agrees host s (fun ev => ev (formOf "if" [c, yes, no]) env)
      (fun ev => ev (if b then yes else no) env) := by
    refine (Agrees.choose hif c yes no).trans (.past (steady_value c env)
      (fun v => steady_chosen (steady_eval yes env) (steady_eval no env) v) hends ?_)
    cases b <;> exact .refl _
  exact hchosen.values

/-- Without a second branch the value is nil. -/
theorem Agrees.choose_one (hif : macroOf? s env (.sym "if") = none) (c yes : Term) :
    Agrees host s (fun ev => ev (formOf "if" [c, yes]) env)
      (fun ev => ev.value c env >>= SmallLisp.chosen (ev yes env) (return (.nil, env))) :=
  .special rfl hif (f := .choose) (by decide) fun fuel =>
    finishRun_then _ (fun v => finishRun_branch host fuel _ yes none env v) s

theorem Agrees.sequence (hdo : macroOf? s env (.sym "do") = none) (forms : List Term) :
    Agrees host s (fun ev => ev (formOf "do" forms) env) (fun ev => ev.inTurn forms .nil env) :=
  .special rfl hdo specialForm_do fun fuel => finishRun_sequence host fuel _ forms _ env s

theorem letIn_one (c : Cursor) (ev : Evaluate) (name : Bytes) (value body : Term) (s : State) :
    c.letIn ev [.list [.symbol name, value], body] s = (Action.update (·.addFrame []) >>= fun _ =>
      ev.value value ⟨s.frames.size :: c.env.frames, c.env.ns⟩ >>= fun v =>
      Action.update (·.define s.frames.size name v) >>= fun _ =>
      c.tail ⟨s.frames.size :: c.env.frames, c.env.ns⟩ body) s := by
  simp only [Cursor.letIn]
  rw [if_neg (by simp)]
  simp only [Cursor.bindAll, bind_assoc]
  rfl

/-- `(let (name value) body)`: the value and then the body are evaluated in a new frame. -/
theorem Agrees.bindOne (hlet : macroOf? s env (.sym "let") = none) (name : Bytes)
    (value body : Term) :
    Agrees host s (fun ev => ev (formOf "let" [.list [.symbol name, value], body]) env)
      (fun ev => Action.update (·.addFrame []) >>= fun _ =>
        ev.value value ⟨s.frames.size :: env.frames, env.ns⟩ >>= fun v =>
        Action.update (·.define s.frames.size name v) >>= fun _ =>
        ev.value body ⟨s.frames.size :: env.frames, env.ns⟩ >>= fun w => return (w, env)) := by
  let form := formOf "let" [.list [.symbol name, value], body]
  let inner : Env := ⟨s.frames.size :: env.frames, env.ns⟩
  refine .special (f := .letIn) rfl hlet (by decide) fun fuel => ?_
  let ev := evalWith host fuel
  let c : Cursor := ⟨form, env, env, true, some form⟩
  let before : Action Unit := Action.update (·.addFrame []) >>= fun _ =>
    ev.value value inner >>= fun v => Action.update (·.define s.frames.size name v)
  have hbody (s' : State) : finishRun host fuel (Action.inForm form (c.tail inner body) s') =
      Action.handingBack form env (ev.value body inner) s' :=
    run_body host fuel form env body inner s'
  have hthen := finishRun_bind before (k := fun _ => c.tail inner body) (fun _ => hbody) s
  have hletIn : c.letIn ev [.list [.symbol name, value], body] s =
      (before >>= fun _ => c.tail inner body) s := by
    simp only [letIn_one, before, bind_assoc, inner, c]
  have hin : Action.inForm form (c.letIn ev [.list [.symbol name, value], body]) s =
      Action.inForm form (before >>= fun _ => c.tail inner body) s := by
    simp only [Action.inForm, hletIn]
  refine (congrArg (finishRun host fuel) hin).trans (hthen.trans ?_)
  simp only [before, Action.handingBack, bind_assoc]
  rfl

/-! ## Calls -/

/-- The value of a call is that of the function applied to the values of the arguments. -/
theorem Agrees.valuesCall {name : Bytes} {f : Term} (hf : s.lookup env name = .ok f)
    (hplain : macroOf? s env (.symbol name) = none) (hspecial : SpecialForm.ofName? name = none)
    (hconstant : constant? name = none) (args : List Term) :
    Agrees host s (fun ev => ev.value (.list (.symbol name :: args)) env)
      (SmallLisp.valuesCall host env f args (.runtime (.notFunction (.symbol name)))) := by
  have hdirect : Agrees host s (directCall host env (.symbol name) args)
      (SmallLisp.valuesCall host env f args (.runtime (.notFunction (.symbol name)))) :=
    .past (steady_value _ env) (fun v => steady_valuesCall host env v args _)
      (EndsIn.value_iff_value.mpr ⟨env, (Computes.symbol hf hconstant).evaluates host⟩) (.refl _)
  exact (Agrees.to_value env (steady_directCall host env _ args)
    (call_agrees hplain hspecial)).trans hdirect

/-- If the name means an interpreted function, that goes on with the values of the arguments. -/
theorem Agrees.closureCall {name : Bytes} {g : Closure Term}
    (hg : s.lookup env name = .ok (.closure g)) (hfunction : g.isMacro = false)
    (hspecial : SpecialForm.ofName? name = none) (hconstant : constant? name = none)
    {args : List Term} {m : Evaluate → Action (List Term)} (hm : Steady m)
    (hargs : Agrees host s (fun ev => ev.values env args) m) :
    Agrees host s (fun ev => ev.value (.list (.symbol name :: args)) env)
      (fun ev => m ev >>= fun vs => g.expand ev vs) := by
  have hplain : macroOf? s env (.symbol name) = none := by
    simp [macroOf?, hg, hfunction]
  exact (Agrees.valuesCall hg hplain hspecial hconstant args).trans
    (hargs.bind (steady_values env args) hm (fun vs => steady_expand g vs)
      (fun vs => steady_expand g vs) fun _ _ _ => .refl _)

/-- A function of one form is applied by evaluating that in a frame that binds the arguments. -/
theorem Agrees.expand {g : Closure Term} {body : Term} {args : List Term} {frame : Table Term}
    (hbind : g.bind args = .ok frame) (hbody : g.body = [body]) :
    Agrees host s (fun ev => g.expand ev args) (fun ev => Action.update (·.addFrame frame) >>=
      fun _ => ev.value body ⟨s.frames.size :: g.env.frames, g.home⟩) := by
  have hexpand (ev : Evaluate) : g.expand ev args s = (Action.update (·.addFrame frame) >>=
      fun _ => ev.value body ⟨s.frames.size :: g.env.frames, g.home⟩) s := by
    simp only [Closure.expand, Closure.enter, hbind, hbody, bind_assoc, pure_bind]
    rfl
  exact .of_iff fun r => by simp only [EndsIn, hexpand]

/-! ## Macro calls -/

/-- Going on with an expansion that only leaves a frame behind. -/
theorem Agrees.expansion {head t : Term} {args : List Term} {m : Closure Term}
    {frame : Table Term} (hm : macroOf? s env head = some m) {n : Nat}
    (ht : ∀ fuel, n ≤ fuel → m.expand (evalWith host fuel) args s = .value t (s.addFrame frame)) :
    Agrees host s (fun ev => ev (.list (head :: args)) env)
      (fun ev => Action.update (·.addFrame frame) >>= fun _ => ev t env) := by
  have hcall : macroCall? s env (.list (head :: args)) = some (m, args) := by
    simp [macroCall?, hm]
  have hadd : EndsIn host (fun _ => Action.update (·.addFrame frame)) s
      (.value () (s.addFrame frame)) := ⟨nofun, 0, rfl⟩
  have hthen (r : Outcome (Term × Env)) :
      EndsIn host (fun ev => Action.update (·.addFrame frame) >>= fun _ => ev t env) s r ↔
        Evaluates host t env (s.addFrame frame) r :=
    EndsIn.bind_of_value_iff (k := fun _ ev => ev t env) (steady_const _)
      (fun _ => steady_eval t env) hadd
  constructor
  · intro r hr
    obtain ⟨r', hr', rfl⟩ := (evaluates_of_call hcall (ht n (Nat.le_refl n))).mp hr
    exact ⟨r', (hthen r').mpr hr', bare_handBack ..⟩
  · intro r' hr'
    exact ⟨_, (evaluates_of_call hcall (ht n (Nat.le_refl n))).mpr ⟨r', (hthen r').mp hr', rfl⟩,
      bare_handBack ..⟩

end

end SmallLisp

import SmallLisp.Proofs.CoreCode
import SmallLisp.Proofs.FormRules

/-! The control macros of the core library. While the library is intact, a call of one of them expands
to an `if` with what remains inside of it (`and_expands_cons`, `cond_expands_cons`), and leaves a
frame behind that nothing refers to. So the macros test one thing after the other, each once and
only as far as is needed, provided that they still mean this after each test (`Sustained`). -/
namespace SmallLisp

/-! ## What the macros expand to -/

/-- While the library is intact, the macro expands to the term and leaves a frame behind. -/
def Definition.ExpandsTo (d : Definition) (args : List Term) (frame : Table Term) (t : Term) :
    Prop :=
  ∀ (id : Nat) (s : State), s.HasCore coreRoot → ∃ n, ∀ (host : Host) (fuel : Nat), n ≤ fuel →
    (d.function id).expand (evalWith host fuel) args s = .value t (s.addFrame frame)

/-- It is enough to evaluate the body where the parameters are bound. -/
theorem Definition.ExpandsTo.of_body {d : Definition} {args : List Term} {frame : Table Term}
    {t : Term} (names : List Bytes) (hbind : ∀ id, (d.function id).bind args = .ok frame)
    (hnames : frame.names = names)
    (h : ∀ (s : State) (k : Nat), s.CoreScope [k, 0] names → s.frame k = frame →
      ∃ n, Computes n s ⟨[k, 0], coreName⟩ d.body t) : d.ExpandsTo args frame t := by
  subst hnames
  intro id s hs
  have hscope : (s.addFrame frame).CoreScope [s.frames.size, 0] frame.names :=
    .inner (hs.addFrame frame) (s.frame_addFrame_self frame)
  obtain ⟨n, hn⟩ := h _ _ hscope (s.frame_addFrame_self frame)
  exact ⟨n, fun host fuel hfuel => hn.expand (hbind id) rfl host hfuel⟩

section

variable {s : State} {k : Nat} {names : List Bytes}

/-- The frame of a macro that takes a condition and a body. -/
def bodyFrame (c : Term) (body : List Term) : Table Term :=
  [(Bytes.ofString "c", c), (Bytes.ofString "body", .list body)]

def argsFrame (name : String) (args : List Term) : Table Term :=
  [(Bytes.ofString name, .list args)]

/-- `(do ~@body)` -/
theorem computes_do {body : List Term} (hbuilds : s.BuildsLists ⟨[k, 0], coreName⟩)
    (hbody : Computes 1 s ⟨[k, 0], coreName⟩ (.sym "body") (.list body)) :
    Computes 5 s ⟨[k, 0], coreName⟩
      (.list [.sym "core/cons", .list [.sym "quote", .sym "do"],
        .list [.sym "core/concat", .sym "body", .list []]]) (formOf "do" body) := by
  have hdo := (Computes.quote hbuilds.quote (.sym "do")).built_cons hbuilds
    (hbody.built_concat hbuilds .empty)
  rw [List.append_nil] at hdo
  exact hdo

theorem when_expands (c : Term) (body : List Term) :
    whenMacro.ExpandsTo (c :: body) (bodyFrame c body) (formOf "if" [c, formOf "do" body]) := by
  refine .of_body [Bytes.ofString "c", Bytes.ofString "body"] (fun _ => rfl) rfl
    fun s k hscope hframe => ?_
  have hbuilds := hscope.builds (by decide)
  have hc : Computes 1 s ⟨[k, 0], coreName⟩ (.sym "c") c :=
    computes_local (by rw [hframe]; rfl) (by decide)
  have hdo := computes_do hbuilds (computes_local (by rw [hframe]; rfl) (by decide))
  have hif := (Computes.quote hbuilds.quote (.sym "if")).built_cons hbuilds
    (hc.built_cons hbuilds (hdo.built_cons hbuilds .empty))
  exact ⟨_, hif.quasiquote (hscope.plain .quasiquote (by decide)) rfl⟩

theorem unless_expands (c : Term) (body : List Term) :
    unlessMacro.ExpandsTo (c :: body) (bodyFrame c body)
      (formOf "if" [c, .nil, formOf "do" body]) := by
  refine .of_body [Bytes.ofString "c", Bytes.ofString "body"] (fun _ => rfl) rfl
    fun s k hscope hframe => ?_
  have hbuilds := hscope.builds (by decide)
  have hc : Computes 1 s ⟨[k, 0], coreName⟩ (.sym "c") c :=
    computes_local (by rw [hframe]; rfl) (by decide)
  have hnil : Computes 1 s ⟨[k, 0], coreName⟩ (.sym "nil") .nil := .constant rfl
  have hdo := computes_do hbuilds (computes_local (by rw [hframe]; rfl) (by decide))
  have hif := (Computes.quote hbuilds.quote (.sym "if")).built_cons hbuilds
    (hc.built_cons hbuilds (hnil.built_cons hbuilds (hdo.built_cons hbuilds .empty)))
  exact ⟨_, hif.quasiquote (hscope.plain .quasiquote (by decide)) rfl⟩

theorem cond_expands_nil : condMacro.ExpandsTo [] (argsFrame "clauses" []) .nil := by
  refine .of_body [Bytes.ofString "clauses"] (fun _ => rfl) rfl
    fun s k hscope hframe => ?_
  have hclauses : Computes 1 s ⟨[k, 0], coreName⟩ (.sym "clauses") (.list []) :=
    computes_local (by rw [hframe]; rfl) (by decide)
  have hempty := hclauses.call (hscope.calls (c := ("empty?", .isEmpty)) (by decide) (by decide))
    (w := .bool true) rfl
  exact ⟨_, hempty.choose (b := true) (hscope.plain .choose (by decide))
    ((Computes.constant rfl).mono (by decide))⟩

theorem cond_expands_cons (c e : Term) (clauses : List Term) :
    condMacro.ExpandsTo (c :: e :: clauses) (argsFrame "clauses" (c :: e :: clauses))
      (formOf "if" [c, e, formOf "cond" clauses]) := by
  refine .of_body [Bytes.ofString "clauses"] (fun _ => rfl) rfl
    fun s k hscope hframe => ?_
  have hbuilds := hscope.builds (by decide)
  have hclauses : Computes 1 s ⟨[k, 0], coreName⟩ (.sym "clauses") (.list (c :: e :: clauses)) :=
    computes_local (by rw [hframe]; rfl) (by decide)
  have hempty := hclauses.call (hscope.calls (c := ("empty?", .isEmpty)) (by decide) (by decide))
    (w := .bool false) rfl
  have hfirst := hclauses.call (hscope.calls (c := ("first", .first)) (by decide) (by decide))
    (w := c) rfl
  have hsecond := hclauses.call_two (hscope.calls (c := ("nth", .nth)) (by decide) (by decide))
    (.int 1) (r := e) rfl
  have hcalls := hscope.calls (c := ("rest", .rest)) (by decide) (by decide)
  have hrest := (hclauses.call hcalls (w := .list (e :: clauses)) rfl).call hcalls
    (w := .list clauses) rfl
  have hcond := (Computes.quote hbuilds.quote (.sym "cond")).built_cons hbuilds
    (hrest.built_concat hbuilds .empty)
  rw [List.append_nil] at hcond
  have hif := (Computes.quote hbuilds.quote (.sym "if")).built_cons hbuilds
    (hfirst.built_cons hbuilds (hsecond.built_cons hbuilds (hcond.built_cons hbuilds .empty)))
  have htemplate := hif.quasiquote (t := condTemplate) (hscope.plain .quasiquote (by decide)) rfl
  exact ⟨_, (hempty.mono (by decide)).choose (hscope.plain .choose (by decide)) htemplate⟩

theorem and_expands_nil : andMacro.ExpandsTo [] (argsFrame "xs" []) (.bool true) := by
  refine .of_body [Bytes.ofString "xs"] (fun _ => rfl) rfl fun s k hscope hframe => ?_
  have hxs : Computes 1 s ⟨[k, 0], coreName⟩ (.sym "xs") (.list []) :=
    computes_local (by rw [hframe]; rfl) (by decide)
  have hempty := hxs.call (hscope.calls (c := ("empty?", .isEmpty)) (by decide) (by decide))
    (w := .bool true) rfl
  exact ⟨_, hempty.choose (b := true) (hscope.plain .choose (by decide))
    ((Computes.constant rfl).mono (by decide))⟩

theorem and_expands_one (e : Term) : andMacro.ExpandsTo [e] (argsFrame "xs" [e]) e := by
  refine .of_body [Bytes.ofString "xs"] (fun _ => rfl) rfl fun s k hscope hframe => ?_
  have hxs : Computes 1 s ⟨[k, 0], coreName⟩ (.sym "xs") (.list [e]) :=
    computes_local (by rw [hframe]; rfl) (by decide)
  have hif := hscope.plain .choose (by decide)
  have hempty := hscope.calls (c := ("empty?", .isEmpty)) (by decide) (by decide)
  have hsome := hxs.call hempty (w := .bool false) rfl
  have hlast := (hxs.call (hscope.calls (c := ("rest", .rest)) (by decide) (by decide))
    (w := .list []) rfl).call hempty (w := .bool true) rfl
  have hfirst := hxs.call (hscope.calls (c := ("first", .first)) (by decide) (by decide))
    (w := e) rfl
  exact ⟨_, (hsome.mono (by decide)).choose (b := false) hif
    (hlast.choose (b := true) hif (hfirst.mono (by decide)))⟩

theorem and_expands_cons (e e' : Term) (es : List Term) :
    andMacro.ExpandsTo (e :: e' :: es) (argsFrame "xs" (e :: e' :: es))
      (formOf "if" [e, formOf "and" (e' :: es), .bool false]) := by
  refine .of_body [Bytes.ofString "xs"] (fun _ => rfl) rfl fun s k hscope hframe => ?_
  have hbuilds := hscope.builds (by decide)
  have hxs : Computes 1 s ⟨[k, 0], coreName⟩ (.sym "xs") (.list (e :: e' :: es)) :=
    computes_local (by rw [hframe]; rfl) (by decide)
  have hif := hscope.plain .choose (by decide)
  have hempty := hscope.calls (c := ("empty?", .isEmpty)) (by decide) (by decide)
  have hsome := hxs.call hempty (w := .bool false) rfl
  have hrest := hxs.call (hscope.calls (c := ("rest", .rest)) (by decide) (by decide))
    (w := .list (e' :: es)) rfl
  have hmore := hrest.call hempty (w := .bool false) rfl
  have hfirst := hxs.call (hscope.calls (c := ("first", .first)) (by decide) (by decide))
    (w := e) rfl
  have hfalse : Computes 1 s ⟨[k, 0], coreName⟩ (.sym "false") (.bool false) := .constant rfl
  have hand := (Computes.quote hbuilds.quote (.sym "and")).built_cons hbuilds
    (hrest.built_concat hbuilds .empty)
  rw [List.append_nil] at hand
  have hbuilt := (Computes.quote hbuilds.quote (.sym "if")).built_cons hbuilds
    (hfirst.built_cons hbuilds (hand.built_cons hbuilds (hfalse.built_cons hbuilds .empty)))
  have htemplate := hbuilt.quasiquote (t := andTemplate)
    (hscope.plain .quasiquote (by decide)) rfl
  exact ⟨_, (hsome.mono (by decide)).choose (b := false) hif
    ((hmore.mono (by decide)).choose (b := false) hif htemplate)⟩

end

/-! ## What they mean -/

/-- An expansion leaves a frame behind that nothing refers to. -/
def expanding {α : Type} (frame : Table Term) (m : Action α) : Action α := do
  Action.update (·.addFrame frame)
  m

/-- Evaluates expressions in turn up to the first that is false. -/
def conjunction (ev : Evaluate) (env : Env) : List Term → Action (Term × Env)
  | [] => expanding (argsFrame "xs" []) (return (.bool true, env))
  | [e] => expanding (argsFrame "xs" [e]) (ev e env)
  | e :: e' :: es => expanding (argsFrame "xs" (e :: e' :: es)) do
    let v ← ev.value e env
    chosen (conjunction ev env (e' :: es)) (return (.bool false, env)) v

/-- Evaluates tests in turn up to the first that is true, and the expression that goes with it. -/
def firstTrue (ev : Evaluate) (env : Env) : List (Term × Term) → Action (Term × Env)
  | [] => expanding (argsFrame "clauses" []) (return (.nil, env))
  | (c, e) :: clauses =>
    expanding (argsFrame "clauses" (c :: e :: clauses.flatMap fun p => [p.1, p.2])) do
      let v ← ev.value c env
      chosen (ev e env) (firstTrue ev env clauses) v

/-- Evaluates the body, form after form, if the condition has the value `b`. -/
def bodyIf (b : Bool) (c : Term) (body : List Term) (ev : Evaluate) (env : Env) :
    Action (Term × Env) :=
  expanding (bodyFrame c body) do
    let v ← ev.value c env
    let all := ev.inTurn body .nil env
    let nothing : Action (Term × Env) := return (.nil, env)
    if b then chosen all nothing v else chosen nothing all v

/-- What the meaning of the macros rests on: the library is intact, their names mean what they mean
in it, and `if` and `do` are no macros. -/
structure State.Controls (s : State) (env : Env) : Prop where
  intact : s.CoreIntact
  within : env.Within s
  macros : ∀ d ∈ [andMacro, condMacro, whenMacro, unlessMacro],
    s.lookup env (Bytes.ofString d.name) =
      coreSession.state.lookup coreEnv (Bytes.ofString d.name)
  plain_if : macroOf? s env (.sym "if") = none
  plain_do : macroOf? s env (.sym "do") = none

/-- A test that a macro makes, with the value after which it goes on to the next one, and the frame
that the expansion leaves before the test. -/
structure Test where
  form : Term
  goesOn : Bool
  frame : Table Term

/-- The macros mean what they should before the first test, and again after each test after which
they go on. -/
def Sustained (host : Host) (env : Env) : List Test → State → Prop
  | [], s => s.Controls env
  | t :: ts, s => s.Controls env ∧ ∀ s',
      EndsIn host (fun ev => ev.value t.form env) (s.addFrame t.frame) (.value (.bool t.goesOn) s') →
        Sustained host env ts s'

def andTests : List Term → List Test
  | e :: e' :: es => ⟨e, true, argsFrame "xs" (e :: e' :: es)⟩ :: andTests (e' :: es)
  | _ => []

def condTests : List (Term × Term) → List Test
  | [] => []
  | (c, e) :: clauses =>
    ⟨c, false, argsFrame "clauses" (c :: e :: clauses.flatMap fun p => [p.1, p.2])⟩ ::
      condTests clauses

section

variable {host : Host} {s : State} {env : Env}

theorem Sustained.now {ts : List Test} (h : Sustained host env ts s) : s.Controls env := by
  cases ts with
  | nil => exact h
  | cons t ts => exact h.1

theorem State.Controls.macroOf (h : s.Controls env) {d : Definition}
    (hd : d ∈ [andMacro, condMacro, whenMacro, unlessMacro]) :
    ∃ id, macroOf? s env (.sym d.name) = some (d.function id) := by
  have hfacts : ∀ d ∈ [andMacro, condMacro, whenMacro, unlessMacro], d.isMacro = true ∧
      splitQualified (Bytes.ofString d.name) = none := by decide
  have hcore : ∀ d ∈ [andMacro, condMacro, whenMacro, unlessMacro], d ∈ coreDefinitions := by
    simp [coreDefinitions]
  obtain ⟨hd', hsplit⟩ := hfacts d hd
  obtain ⟨id, hid⟩ := (State.CoreScope.top coreSession_hasCore.1).defined (hcore d hd)
    List.not_mem_nil hsplit
  have hlookup : s.lookup env (Bytes.ofString d.name) = .ok (.closure (d.function id)) :=
    (h.macros d hd).trans hid
  refine ⟨id, ?_⟩
  simp only [macroOf?, Term.sym, hlookup, Definition.function, hd', if_true]

/-- A macro of the library goes on with its expansion. -/
theorem State.Controls.expands (h : s.Controls env) {d : Definition}
    (hd : d ∈ [andMacro, condMacro, whenMacro, unlessMacro]) {args : List Term}
    {frame : Table Term} {t : Term} (ht : d.ExpandsTo args frame t) :
    Agrees host s (fun ev => ev (formOf d.name args) env)
      (fun ev => expanding frame (ev t env)) := by
  obtain ⟨id, hm⟩ := h.macroOf hd
  obtain ⟨n, hn⟩ := ht id s (State.coreIntact_iff.mp h.intact)
  exact .expansion hm (hn host)

theorem State.Controls.if_after (h : s.Controls env) (frame : Table Term) :
    macroOf? (s.addFrame frame) env (.sym "if") = none :=
  (h.within.macroOf_addFrame frame _).trans h.plain_if

theorem steady_expanding {α : Type} {m : Evaluate → Action α} (frame : Table Term)
    (hm : Steady m) : Steady fun ev => expanding frame (m ev) := (steady_const _).bind fun _ => hm

theorem Agrees.expanding {α : Type} {frame : Table Term} {m m' : Evaluate → Action α}
    (hm : Steady m) (hm' : Steady m') (h : Agrees host (s.addFrame frame) m m') :
    Agrees host s (fun ev => expanding frame (m ev)) (fun ev => expanding frame (m' ev)) :=
  .after_update hm hm' h

theorem steady_conjunction (env : Env) (es : List Term) :
    Steady fun ev => conjunction ev env es := by
  induction es with
  | nil => exact steady_const _
  | cons e es ih =>
    cases es with
    | nil => exact steady_expanding _ (steady_eval e env)
    | cons e' es =>
      exact steady_expanding _ ((steady_value e env).bind fun v =>
        steady_chosen ih (steady_const _) v)

theorem steady_firstTrue (env : Env) (clauses : List (Term × Term)) :
    Steady fun ev => firstTrue ev env clauses := by
  induction clauses with
  | nil => exact steady_const _
  | cons p clauses ih =>
    exact steady_expanding _ ((steady_value p.1 env).bind fun v =>
      steady_chosen (steady_eval p.2 env) ih v)

/-- `and` evaluates expressions in turn up to the first that is false. -/
theorem and_agrees {es : List Term} (h : Sustained host env (andTests es) s) :
    Agrees host s (fun ev => ev (formOf "and" es) env) (fun ev => conjunction ev env es) := by
  induction es generalizing s with
  | nil =>
    refine (h.now.expands (d := andMacro) (by simp) and_expands_nil).trans ?_
    exact .expanding (steady_eval _ env) (steady_const _) ((Computes.atom rfl rfl).agrees host)
  | cons e es ih =>
    cases es with
    | nil => exact h.now.expands (d := andMacro) (by simp) (and_expands_one e)
    | cons e' es =>
      obtain ⟨hnow, hnext⟩ := h
      refine (hnow.expands (d := andMacro) (by simp) (and_expands_cons e e' es)).trans ?_
      have hrest (v : Term) := steady_chosen (steady_conjunction env (e' :: es))
        (steady_const (return (.bool false, env))) v
      refine .expanding (steady_eval _ env) ((steady_value e env).bind hrest) ?_
      refine (Agrees.choose (hnow.if_after _) e _ _).trans ?_
      refine .after (steady_value e env) (fun v => steady_chosen (steady_eval _ env)
        (steady_eval _ env) v) hrest fun v s' hv => ?_
      refine .chosen v (fun htrue => ?_) fun _ => (Computes.atom rfl rfl).agrees host
      subst htrue
      exact ih (hnext s' hv)

/-- `cond` evaluates tests in turn up to the first that is true. -/
theorem cond_agrees {clauses : List (Term × Term)}
    (h : Sustained host env (condTests clauses) s) :
    Agrees host s (fun ev => ev (formOf "cond" (clauses.flatMap fun p => [p.1, p.2])) env)
      (fun ev => firstTrue ev env clauses) := by
  induction clauses generalizing s with
  | nil =>
    refine (h.now.expands (d := condMacro) (by simp) cond_expands_nil).trans ?_
    exact .expanding (steady_eval _ env) (steady_const _) ((Computes.atom rfl rfl).agrees host)
  | cons p clauses ih =>
    obtain ⟨c, e⟩ := p
    obtain ⟨hnow, hnext⟩ := h
    refine (hnow.expands (d := condMacro) (by simp) (cond_expands_cons c e _)).trans ?_
    have hrest (v : Term) := steady_chosen (steady_eval e env) (steady_firstTrue env clauses) v
    refine .expanding (steady_eval _ env) ((steady_value c env).bind hrest) ?_
    refine (Agrees.choose (hnow.if_after _) c _ _).trans ?_
    refine .after (steady_value c env) (fun v => steady_chosen (steady_eval _ env)
      (steady_eval _ env) v) hrest fun v s' hv => ?_
    refine .chosen v (fun _ => .refl _) fun hfalse => ?_
    subst hfalse
    exact ih (hnext s' hv)

/-- `when` evaluates its body if the condition is true. -/
theorem when_agrees {c : Term} {body : List Term}
    (h : Sustained host env [⟨c, true, bodyFrame c body⟩] s) :
    Agrees host s (fun ev => ev (formOf "when" (c :: body)) env)
      (fun ev => bodyIf true c body ev env) := by
  obtain ⟨hnow, hnext⟩ := h
  refine (hnow.expands (d := whenMacro) (by simp) (when_expands c body)).trans ?_
  have hrest (v : Term) := steady_chosen (steady_inTurn body .nil env)
    (steady_const (return (.nil, env))) v
  refine .expanding (steady_eval _ env) ((steady_value c env).bind hrest) ?_
  refine (Agrees.choose_one (hnow.if_after _) c _).trans ?_
  refine .after (steady_value c env) (fun v => steady_chosen (steady_eval _ env)
    (steady_const _) v) hrest fun v s' hv => ?_
  refine .chosen v (fun htrue => ?_) fun _ => .refl _
  subst htrue
  exact .sequence (hnext s' hv).plain_do body

/-- `unless` evaluates its body if the condition is false. -/
theorem unless_agrees {c : Term} {body : List Term}
    (h : Sustained host env [⟨c, false, bodyFrame c body⟩] s) :
    Agrees host s (fun ev => ev (formOf "unless" (c :: body)) env)
      (fun ev => bodyIf false c body ev env) := by
  obtain ⟨hnow, hnext⟩ := h
  refine (hnow.expands (d := unlessMacro) (by simp) (unless_expands c body)).trans ?_
  have hrest (v : Term) := steady_chosen (steady_const (return (.nil, env)))
    (steady_inTurn body .nil env) v
  refine .expanding (steady_eval _ env) ((steady_value c env).bind hrest) ?_
  refine (Agrees.choose (hnow.if_after _) c _ _).trans ?_
  refine .after (steady_value c env) (fun v => steady_chosen (steady_eval _ env)
    (steady_eval _ env) v) hrest fun v s' hv => ?_
  refine .chosen v (fun _ => (Computes.atom rfl rfl).agrees host) fun hfalse => ?_
  subst hfalse
  exact .sequence (hnext s' hv).plain_do body

end

/-- When the core library has been loaded, in every state in which the core namespace and the frame
at top level are still as they were, and in every environment in which `and`, `cond`, `when` and
`unless` mean what they mean there and `if` and `do` are no macros, all of this also after each test
after which a macro goes on: the control macros end as `conjunction`, `firstTrue` and `bodyIf` do,
with the same value, state and environment, or with the same error but for the forms attached to it.
An expansion leaves a frame behind and changes nothing else. -/
theorem control_macros_meaning (host : Host) :
    Session.fresh.loadLibraries host [coreName] = (.value (), coreSession) ∧
    ∀ (env : Env) (s : State),
      (∀ es, Sustained host env (andTests es) s →
        Agrees host s (fun ev => ev (formOf "and" es) env) fun ev => conjunction ev env es) ∧
      (∀ clauses, Sustained host env (condTests clauses) s →
        Agrees host s
          (fun ev => ev (formOf "cond" (clauses.flatMap fun p => [p.1, p.2])) env)
          fun ev => firstTrue ev env clauses) ∧
      (∀ c body, Sustained host env [⟨c, true, bodyFrame c body⟩] s →
        Agrees host s (fun ev => ev (formOf "when" (c :: body)) env)
          fun ev => bodyIf true c body ev env) ∧
      (∀ c body, Sustained host env [⟨c, false, bodyFrame c body⟩] s →
        Agrees host s (fun ev => ev (formOf "unless" (c :: body)) env)
          fun ev => bodyIf false c body ev env) ∧
      ∀ frame, State.Beside 0 (s.addFrame frame) s :=
  ⟨coreSession_loaded host, fun _ s => ⟨fun _ => and_agrees, fun _ => cond_agrees,
    fun _ _ => when_agrees, fun _ _ => unless_agrees,
    fun frame => (State.Beside.refl s).addFrame frame⟩⟩

/-- It is not enough that the core namespace binds what it did and has the aliases that it had. If it
imports a macro `if`, or if the frame at top level binds `empty?`, then `and` means something else,
although it is still found, as are `cond`, `when` and `unless`, and `if` and `do` are no macros
where it is used. -/
theorem conjunction_disturbed :
    let env := coreSession.env
    (∀ s ∈ [importedIf, definedEmpty], s.CoreKept ∧
      (∀ d ∈ [andMacro, condMacro, whenMacro, unlessMacro],
        s.lookup env (Bytes.ofString d.name) =
          coreSession.state.lookup coreEnv (Bytes.ofString d.name)) ∧
      macroOf? s env (.sym "if") = none ∧ macroOf? s env (.sym "do") = none) ∧
    (∃ s', Evaluates Host.bare (formOf "and" [.sym "false", .sym "true"]) env importedIf
      (.value (.int 42, env) s')) ∧
    ∃ s', Evaluates Host.bare (formOf "and" []) env definedEmpty
      (.failure (.inForm (formOf "empty?" [.sym "xs"])
        (.runtime (.notFunction (.sym "empty?")))) s') := by
  intro env
  have hnames : ∀ d ∈ [andMacro, condMacro, whenMacro, unlessMacro],
      splitQualified (Bytes.ofString d.name) = none ∧
        Bytes.ofString d.name ≠ Bytes.ofString "empty?" := by
    decide
  obtain ⟨himported, hlookup⟩ := importedIf_kept
  obtain ⟨hdefined, hlookup'⟩ := definedEmpty_kept
  refine ⟨List.forall_mem_cons.mpr ⟨?_, List.forall_mem_singleton.mpr ?_⟩, ?_, ?_⟩
  · exact ⟨himported, fun d hd => hlookup _ (hnames d hd).1,
      plain_as_loaded .choose (hlookup _ (by decide)),
      plain_as_loaded .sequence (hlookup _ (by decide))⟩
  · exact ⟨hdefined, fun d hd => hlookup' _ (hnames d hd).1 (hnames d hd).2,
      plain_as_loaded .choose (hlookup' _ (by decide) (by decide)),
      plain_as_loaded .sequence (hlookup' _ (by decide) (by decide))⟩
  · exact ⟨_, nofun, 20, rfl⟩
  · exact ⟨_, nofun, 20, rfl⟩

/-! ### A run -/

theorem State.Controls.addFrame {s : State} {env : Env} (h : s.Controls env) (f : Table Term) :
    (s.addFrame f).Controls env where
  intact := State.coreIntact_iff.mpr ((State.coreIntact_iff.mp h.intact).addFrame f)
  within i hi := by
    rw [State.addFrame_size]
    exact Nat.lt_succ_of_lt (h.within i hi)
  macros d hd := (h.within.lookup_addFrame f _).trans (h.macros d hd)
  plain_if := (h.within.macroOf_addFrame f _).trans h.plain_if
  plain_do := (h.within.macroOf_addFrame f _).trans h.plain_do

/-- Constants rebind nothing. -/
theorem State.Controls.sustained {s : State} {env : Env} (h : s.Controls env) (host : Host)
    {ts : List Test} (hts : ∀ t ∈ ts, ∃ name v, t.form = .symbol name ∧ constant? name = some v) :
    Sustained host env ts s := by
  induction ts generalizing s with
  | nil => exact h
  | cons t ts ih =>
    obtain ⟨⟨name, v, hform, hconstant⟩, hts⟩ := List.forall_mem_cons.mp hts
    refine ⟨h, fun s' hs' => ?_⟩
    have hcomputes : Computes 1 (s.addFrame t.frame) env (.symbol name) v := .constant hconstant
    have hvalue := EndsIn.value_iff_value.mpr ⟨env, hcomputes.evaluates host⟩
    rw [hform] at hs'
    cases hs'.unique (steady_value _ env) hvalue
    exact ih (h.addFrame t.frame) hts

theorem coreSession_controls : coreSession.state.Controls coreSession.env := by
  have hs := coreSession_hasCore.1
  have henv : coreSession.env = ⟨[0], Session.userName⟩ := rfl
  have hlookup {name : Bytes} (hname : splitQualified name = none) :
      coreSession.state.lookup coreSession.env name = coreSession.state.lookup coreEnv name :=
    (hs.lookup_fresh coreSession_user (by decide) (hs.unbound_top name) hname).trans
      (hs.lookup_eq (hs.unbound_top name) hname).symm
  have hsplit : ∀ d ∈ [andMacro, condMacro, whenMacro, unlessMacro],
      splitQualified (Bytes.ofString d.name) = none := by decide
  refine ⟨coreSession_intact, fun i hi => ?_, fun d hd => hlookup (hsplit d hd),
    plain_as_loaded .choose (hlookup (by decide)), plain_as_loaded .sequence (hlookup (by decide))⟩
  obtain rfl := List.mem_singleton.mp hi
  exact hs.top.1

/-- In the loaded session: `x` is not bound, and not evaluated either. -/
theorem skipped_parts :
    let s := coreSession.state
    let env := coreSession.env
    let t : Term := .sym "true"
    let f : Term := .sym "false"
    let x : Term := .sym "x"
    (Sustained Host.bare env (andTests [t, f, x]) s ∧
      Sustained Host.bare env (condTests [(f, x), (t, f)]) s ∧
      Sustained Host.bare env [⟨f, true, bodyFrame f [x]⟩] s ∧
      Sustained Host.bare env [⟨t, false, bodyFrame t [x]⟩] s) ∧
    (∃ s', Evaluates Host.bare (formOf "and" [t, f, x]) env s (.value (.bool false, env) s')) ∧
    (∃ s', Evaluates Host.bare (formOf "cond" [f, x, t, f]) env s
      (.value (.bool false, env) s')) ∧
    (∃ s', Evaluates Host.bare (formOf "when" [f, x]) env s (.value (.nil, env) s')) ∧
    ∃ s', Evaluates Host.bare (formOf "unless" [t, x]) env s (.value (.nil, env) s') := by
  intro s env t f x
  have hcontrols : s.Controls env := coreSession_controls
  have ht : ∃ name v, t = .symbol name ∧ constant? name = some v := ⟨_, _, rfl, rfl⟩
  have hf : ∃ name v, f = .symbol name ∧ constant? name = some v := ⟨_, _, rfl, rfl⟩
  obtain ⟨-, hmeaning⟩ := control_macros_meaning Host.bare
  obtain ⟨hand, hcond, hwhen, hunless, -⟩ := hmeaning env s
  have htests : Sustained Host.bare env (andTests [t, f, x]) s :=
    hcontrols.sustained _ (List.forall_mem_cons.mpr ⟨ht, List.forall_mem_singleton.mpr hf⟩)
  have hclauses : Sustained Host.bare env (condTests [(f, x), (t, f)]) s :=
    hcontrols.sustained _ (List.forall_mem_cons.mpr ⟨hf, List.forall_mem_singleton.mpr ht⟩)
  have hno : Sustained Host.bare env [⟨f, true, bodyFrame f [x]⟩] s :=
    hcontrols.sustained _ (List.forall_mem_singleton.mpr hf)
  have hyes : Sustained Host.bare env [⟨t, false, bodyFrame t [x]⟩] s :=
    hcontrols.sustained _ (List.forall_mem_singleton.mpr ht)
  refine ⟨⟨htests, hclauses, hno, hyes⟩, ?_, ?_, ?_, ?_⟩
  · exact ⟨_, (hand _ htests).symm.value ⟨nofun, 1, rfl⟩⟩
  · exact ⟨_, (hcond _ hclauses).symm.value ⟨nofun, 1, rfl⟩⟩
  · exact ⟨_, (hwhen f [x] hno).symm.value ⟨nofun, 1, rfl⟩⟩
  · exact ⟨_, (hunless t [x] hyes).symm.value ⟨nofun, 1, rfl⟩⟩

end SmallLisp

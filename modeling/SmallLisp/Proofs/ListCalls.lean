import SmallLisp.Proofs.ListFunctions

/-! Calls of the list functions by their names. While the library is intact, `map`, `filter` and
`reduce` walk along their lists as `mapping`, `filtering` and `folding` say, and `range` counts
(`list_functions_meaning`). -/
namespace SmallLisp

/-- The name means the function that it means in the loaded library, and the arguments have these
values. Functions refer only to frames that are there. -/
structure LibraryCall (host : Host) (d : Definition) (env : Env) (args vs : List Term)
    (s s' : State) : Prop where
  complete : s.Complete env [formOf d.name args]
  named : s.lookup env (Bytes.ofString d.name) =
    coreSession.state.lookup coreEnv (Bytes.ofString d.name)
  values : EndsIn host (fun ev => ev.values env args) s (.value vs s')

theorem Walk.steady_run {α : Type} {w : Walk α} (hw : ∀ x a, Steady (w.step x a))
    (xs : List Term) : Steady (w.run xs) :=
  (steady_const _).bind fun _ => (Walk.steady_along hw xs w.start).bind fun _ => steady_const _

section

variable {host : Host} {d : Definition} {env : Env} {args vs xs : List Term} {f a : Term}
  {s s' : State}

/-- What the list functions have for names. -/
theorem listFunctions_names : ∀ d ∈ [mapFunction, filterFunction, reduceFunction, rangeFunction],
    d ∈ coreDefinitions ∧ d.isMacro = false ∧ splitQualified (Bytes.ofString d.name) = none ∧
      SpecialForm.ofName? (Bytes.ofString d.name) = none ∧
      (constant? (Bytes.ofString d.name)).isNone := by
  have hdefined : ∀ d ∈ [mapFunction, filterFunction, reduceFunction, rangeFunction],
      d ∈ coreDefinitions := by
    simp [coreDefinitions]
  have hnames : ∀ d ∈ [mapFunction, filterFunction, reduceFunction, rangeFunction],
      d.isMacro = false ∧ splitQualified (Bytes.ofString d.name) = none ∧
        SpecialForm.ofName? (Bytes.ofString d.name) = none ∧
        (constant? (Bytes.ofString d.name)).isNone := by
    decide
  exact fun d hd => ⟨hdefined d hd, hnames d hd⟩

theorem LibraryCall.complete_after (h : LibraryCall host d env args vs s s') :
    s'.Complete env vs := by
  obtain ⟨hstate, henv, hterms⟩ := h.complete
  have hargs := (Term.Functions.tail (List.forall_mem_singleton.mp hterms)).2
  exact State.Complete.values ⟨hstate, henv, hargs⟩ h.values

/-- The call goes on with the function of the library, applied to the values of the arguments. -/
theorem LibraryCall.expands (h : LibraryCall host d env args vs s s')
    (hd : d ∈ [mapFunction, filterFunction, reduceFunction, rangeFunction]) :
    ∃ id, Agrees host s (fun ev => ev (formOf d.name args) env)
      (fun ev => ev.values env args >>= fun _ => (d.function id).expand ev vs >>= fun v =>
        return (v, env)) := by
  obtain ⟨hcore, hfunction, hsplit, hspecial, hconstant⟩ := listFunctions_names d hd
  obtain ⟨id, hid⟩ := (State.CoreScope.top coreSession_hasCore.1).defined hcore
    List.not_mem_nil hsplit
  have hlookup : s.lookup env (Bytes.ofString d.name) = .ok (.closure (d.function id)) :=
    h.named.trans hid
  have hplain : macroOf? s env (.sym d.name) = none := by
    have hkind : (d.function id).isMacro = false := hfunction
    simp [macroOf?, Term.sym, hlookup, hkind]
  have hhead : EndsIn host (fun ev => ev.value (.sym d.name) env) s
      (.value (.closure (d.function id)) s) :=
    EndsIn.value_iff_value.mpr ⟨env, (Computes.symbol hlookup
      (Option.isNone_iff_eq_none.mp hconstant)).evaluates host⟩
  have hvalues : Agrees host s (directCall host env (.sym d.name) args)
      (fun ev => ev.values env args >>= fun _ => (d.function id).expand ev vs) := by
    refine .past (steady_value _ env) (fun v => steady_valuesCall host env v args _) hhead ?_
    refine .after (steady_values env args) (fun us => steady_expand (d.function id) us)
      (fun _ => steady_expand (d.function id) vs) fun us s'' hus => ?_
    cases hus.unique (steady_values env args) h.values
    exact .refl _
  refine ⟨id, (call_agrees hplain hspecial).trans ((hvalues.bind
    (steady_directCall host env _ args)
    ((steady_values env args).bind fun _ => steady_expand (d.function id) vs)
    (fun v => steady_const (pure (v, env))) (fun v => steady_const (pure (v, env)))
    fun _ _ _ => .refl _).trans (.of_eq fun ev => ?_))⟩
  simp only [bind_assoc]

/-- So it agrees with what the function agrees with. -/
theorem LibraryCall.agrees (h : LibraryCall host d env args vs s s')
    (hd : d ∈ [mapFunction, filterFunction, reduceFunction, rangeFunction])
    {m : Evaluate → Action Term} (hm : Steady m)
    (hcall : ∀ id, Agrees host s' (fun ev => (d.function id).expand ev vs) m) :
    Agrees host s (fun ev => ev (formOf d.name args) env)
      (fun ev => ev.values env args >>= fun _ => m ev >>= fun v => return (v, env)) := by
  obtain ⟨id, hid⟩ := h.expands hd
  have hreturn (v : Term) : Steady fun _ : Evaluate => (pure (v, env) : Action (Term × Env)) :=
    steady_const _
  refine hid.trans (.after (steady_values env args)
    (fun _ => (steady_expand (d.function id) vs).bind hreturn) (fun _ => hm.bind hreturn)
    fun us s'' hus => ?_)
  cases hus.unique (steady_values env args) h.values
  exact (hcall id).bind (steady_expand _ vs) hm hreturn hreturn fun _ _ _ => .refl _

/-- A function whose body is a loop that collects does the walk. -/
theorem LibraryCall.collects {name : String} {acc : Term}
    {collect : Term → Term → List Term → Except Error (List Term)}
    (h : LibraryCall host d env args [f, .list xs] s s')
    (hd : d ∈ [mapFunction, filterFunction, reduceFunction, rangeFunction])
    (hacc : Collects host f name acc collect) (hbody : d.body = listLoop acc)
    (hbind : ∀ id, (d.function id).bind [f, .list xs] =
      .ok [(Bytes.ofString name, f), (Bytes.ofString "l", .list xs)])
    (hw : (collecting host f name acc collect).Undisturbed host xs s') :
    Agrees host s (fun ev => ev (formOf d.name args) env)
      (fun ev => ev.values env args >>= fun _ =>
        (collecting host f name acc collect).run xs ev >>= fun v => return (v, env)) := by
  have hs' := h.complete_after
  have hxs := Term.Functions.list_iff.mp (hs'.sees (.list xs) (by simp))
  exact h.agrees hd (Walk.steady_run steady_collecting xs) fun id =>
    hacc.run (hbind id) hbody hs'.state (hs'.sees f (by simp)) hxs hw

theorem map_agrees (hf : Callable f) (h : LibraryCall host mapFunction env args [f, .list xs] s s')
    (hw : (mapping host f).Undisturbed host xs s') :
    Agrees host s (fun ev => ev (formOf "map" args) env)
      (fun ev => ev.values env args >>= fun _ => (mapping host f).run xs ev >>= fun v =>
        return (v, env)) :=
  h.collects (by simp) (map_collects hf) rfl (fun _ => rfl) hw

theorem filter_agrees (hf : Callable f)
    (h : LibraryCall host filterFunction env args [f, .list xs] s s')
    (hw : (filtering host f).Undisturbed host xs s') :
    Agrees host s (fun ev => ev (formOf "filter" args) env)
      (fun ev => ev.values env args >>= fun _ => (filtering host f).run xs ev >>= fun v =>
        return (v, env)) :=
  h.collects (by simp) (filter_collects hf) rfl (fun _ => rfl) hw

theorem reduce_agrees (hf : Callable f)
    (h : LibraryCall host reduceFunction env args [f, a, .list xs] s s')
    (hw : (folding host f a).Undisturbed host xs s') :
    Agrees host s (fun ev => ev (formOf "reduce" args) env)
      (fun ev => ev.values env args >>= fun _ => (folding host f a).run xs ev >>= fun v =>
        return (v, env)) := by
  have hs' := h.complete_after
  have hxs := Term.Functions.list_iff.mp (hs'.sees (.list xs) (by simp))
  have hstep (x b : Term) : Steady ((folding host f a).step x b) := steady_applied [b, x]
  refine h.agrees (by simp) (Walk.steady_run hstep xs) fun id => ?_
  refine (reduce_expand hf hs'.state (hs'.sees f (by simp)) (hs'.sees a (by simp)) hxs
    hw.along).trans (.of_eq fun ev => ?_)
  -- nothing is entered, and the result is what the last step gives
  have henter (m : Action Term) : (Action.update (fun s => s) >>= fun _ => m) = m := rfl
  simp only [Walk.run, folding, henter, bind_pure]

theorem range_evaluates {n : Int64} (h : LibraryCall host rangeFunction env args [.int n] s s')
    (hcore : s'.CoreIntact) (hn : n ≠ Int64.minValue) :
    ∃ s'', Evaluates host (formOf "range" args) env s
      (.value (.list (upTo n.toInt.toNat), env) s'') ∧ State.Beside 1 s'' s' := by
  obtain ⟨id, hid⟩ := h.expands (by simp)
  obtain ⟨s'', hends, hbeside⟩ := range_expand h.complete_after.state hcore hn
  have hreturn (v : Term) : Steady fun _ : Evaluate => (pure (v, env) : Action (Term × Env)) :=
    steady_const _
  have hcall := h.values.bind_value (steady_values env args)
    (fun _ => (steady_expand (rangeFunction.function id) _).bind hreturn)
    (hends.bind_value (steady_expand _ _) hreturn (.pure _))
  exact ⟨s'', hid.symm.value hcall, hbeside⟩

end

/-- When the core library has been loaded, in every state in which functions refer only to frames
that are there, as they do wherever an evaluation in a session comes: as long as the core namespace
and the frame at top level are as they were, at the beginning and before each step, calls of `map`,
`filter` and `reduce` end as the walks along the list do, with the same value and state, or with the
same error but for the forms attached to it. `range` gives the numbers from zero below its argument,
and leaves behind only frames and the function of its loop. -/
theorem list_functions_meaning (host : Host) :
    Session.fresh.loadLibraries host [coreName] = (.value (), coreSession) ∧
    (∀ (session : Session) (held : List Term), session.Serves held →
      ∀ t : Term, t.MadeFrom held → ∀ (d : Cursor) (s : State),
        Comes host (Cursor.start t session.env) session.state d s → s.Complete d.env [d.form]) ∧
    ∀ (env : Env) (args : List Term) (s s' : State),
      (∀ f xs, Callable f → LibraryCall host mapFunction env args [f, .list xs] s s' →
        (mapping host f).Undisturbed host xs s' →
        Agrees host s (fun ev => ev (formOf "map" args) env) fun ev =>
          ev.values env args >>= fun _ => (mapping host f).run xs ev >>= fun v =>
            return (v, env)) ∧
      (∀ f xs, Callable f → LibraryCall host filterFunction env args [f, .list xs] s s' →
        (filtering host f).Undisturbed host xs s' →
        Agrees host s (fun ev => ev (formOf "filter" args) env) fun ev =>
          ev.values env args >>= fun _ => (filtering host f).run xs ev >>= fun v =>
            return (v, env)) ∧
      (∀ f init xs, Callable f →
        LibraryCall host reduceFunction env args [f, init, .list xs] s s' →
        (folding host f init).Undisturbed host xs s' →
        Agrees host s (fun ev => ev (formOf "reduce" args) env) fun ev =>
          ev.values env args >>= fun _ => (folding host f init).run xs ev >>= fun v =>
            return (v, env)) ∧
      ∀ n : Int64, LibraryCall host rangeFunction env args [.int n] s s' → s'.CoreIntact →
        n ≠ Int64.minValue → ∃ s'', Evaluates host (formOf "range" args) env s
          (.value (.list (upTo n.toInt.toNat), env) s'') ∧ State.Beside 1 s'' s' := by
  refine ⟨coreSession_loaded host, fun session held hserves t ht d s hd => ?_, fun env args s s' =>
    ⟨fun f xs hf h hw => map_agrees hf h hw, fun f xs hf h hw => filter_agrees hf h hw,
      fun f init xs hf h hw => reduce_agrees hf h hw, fun n h => range_evaluates h⟩⟩
  obtain ⟨hstate, henv, hheld⟩ := hserves.complete
  have hterm : t.Functions fun f => f.env.Within session.state :=
    Term.Functions.mono (fun f ⟨u, hu, hf⟩ => hheld u hu f hf) ht
  exact State.Complete.comes ⟨hstate, henv, List.forall_mem_singleton.mpr hterm⟩
    (List.mem_singleton.mpr rfl) hd

/-- It is not enough that the core namespace binds what it did and has the aliases that it had. If it
imports a macro `if`, or if the frame at top level binds `empty?`, then `reduce` no longer folds a
list, although the name still means the function of the library. -/
theorem reduce_disturbed :
    let env := coreSession.env
    let call := formOf "reduce" [.sym "+", .int 0, formOf "list" [.int 1]]
    (∀ s ∈ [importedIf, definedEmpty], s.CoreKept ∧
      s.lookup env (Bytes.ofString "reduce") =
        coreSession.state.lookup coreEnv (Bytes.ofString "reduce")) ∧
    (∃ s', Evaluates Host.bare call env importedIf (.value (.int 42, env) s')) ∧
    ∃ s', Evaluates Host.bare call env definedEmpty
      (.failure (.inForm (formOf "empty?" [.sym "l"])
        (.runtime (.notFunction (.sym "empty?")))) s') := by
  intro env call
  obtain ⟨himported, hlookup⟩ := importedIf_kept
  obtain ⟨hdefined, hlookup'⟩ := definedEmpty_kept
  refine ⟨List.forall_mem_cons.mpr ⟨?_, List.forall_mem_singleton.mpr ?_⟩, ?_, ?_⟩
  · exact ⟨himported, hlookup _ (by decide)⟩
  · exact ⟨hdefined, hlookup' _ (by decide) (by decide)⟩
  · exact ⟨_, nofun, 20, rfl⟩
  · exact ⟨_, nofun, 20, rfl⟩

/-! ### A run -/

section

variable {host : Host} {s s' : State} {p : Primitive}

/-- Native functions that only look at their arguments leave the state alone. -/
theorem applied_primitive_state {args : List Term} {v : Term}
    (h : EndsIn host (applied host (.native (.primitive p)) args) s (.value v s')) : s' = s := by
  have hcall : Action.ofExcept (p.call args) s = .value v s' := (EndsIn.const_iff.mp h).2
  cases hp : p.call args with
  | error e =>
    rw [hp] at hcall
    cases hcall
  | ok w =>
    rw [hp] at hcall
    cases hcall
    rfl

theorem State.CoreIntact.addFrame (h : s.CoreIntact) (f : Table Term) : (s.addFrame f).CoreIntact :=
  State.coreIntact_iff.mpr ((State.coreIntact_iff.mp h).addFrame f)

/-- Nothing is disturbed by steps that leave the state alone. -/
theorem Walk.intact_of_steps {α : Type} {w : Walk α}
    (hnote : ∀ xs a s, s.CoreIntact → (w.note xs a s).CoreIntact)
    (hstep : ∀ x a a' s s', EndsIn host (w.step x a) s (.value a' s') → s' = s)
    {xs : List Term} {a : α} (hs : s.CoreIntact) : w.Intact host xs a s := by
  induction xs generalizing a s with
  | nil => exact hs
  | cons x xs ih =>
    refine ⟨hs, fun a' s' h => ?_⟩
    obtain rfl := hstep x a a' _ _ h
    exact ih (hnote (x :: xs) a s hs)

theorem collecting_undisturbed {name : String} {acc : Term}
    {collect : Term → Term → List Term → Except Error (List Term)} (hs : s.CoreIntact)
    (xs : List Term) :
    (collecting host (.native (.primitive p)) name acc collect).Undisturbed host xs s := by
  refine ⟨hs, Walk.intact_of_steps (fun xs done s h => h.addFrame _)
    (fun x done d s s' h => ?_) ?_⟩
  · obtain ⟨v, hv, -⟩ := collecting_step_iff.mp h
    exact applied_primitive_state hv
  · have hframes := (hs.addFrame [(Bytes.ofString name, .native (.primitive p)),
      (Bytes.ofString "l", .list xs)]).addFrame
    exact State.coreIntact_iff.mpr ((State.coreIntact_iff.mp (hframes _)).count _)

theorem folding_undisturbed (hs : s.CoreIntact) (init : Term) (xs : List Term) :
    (folding host (.native (.primitive p)) init).Undisturbed host xs s :=
  ⟨hs, Walk.intact_of_steps (fun _ _ _ h => h.addFrame _)
    (fun _ _ _ _ _ h => applied_primitive_state h) hs⟩

end

/-- The session into which the library has been loaded is one that calls lead to. -/
theorem coreSession_serves : coreSession.Serves [] := by
  have hample : 40 ≤ ampleFuel := by decide
  obtain ⟨w, hload⟩ := loadText_core Host.bare hample
  have hserves := Session.Serves.fresh.load Host.bare ampleFuel (Bytes.ofString Library.core)
  have hloaded : Session.fresh.loadWith (evalWith Host.bare ampleFuel)
      (Bytes.ofString Library.core) = (.value (), coreSession) := Session.load_of_value hload
  rw [hloaded] at hserves
  exact hserves

/-- A call in the loaded session, of a form that is a program. -/
theorem libraryCall_loaded {d : Definition} {args vs : List Term}
    (hnames : splitQualified (Bytes.ofString d.name) = none)
    (hargs : ∀ t ∈ args, t.MadeFrom [])
    (hvalues : EndsIn Host.bare (fun ev => ev.values coreSession.env args) coreSession.state
      (.value vs coreSession.state)) :
    LibraryCall Host.bare d coreSession.env args vs coreSession.state coreSession.state := by
  obtain ⟨hstate, henv, -⟩ := coreSession_serves.complete
  have hs := coreSession_hasCore.1
  refine ⟨⟨hstate, henv, List.forall_mem_singleton.mpr (Term.Functions.list
    (List.forall_mem_cons.mpr ⟨.atom, fun t ht => ?_⟩))⟩, ?_, hvalues⟩
  · exact Term.Functions.mono (fun f ⟨u, hu, _⟩ => absurd hu List.not_mem_nil) (hargs t ht)
  · exact (hs.lookup_fresh coreSession_user (by decide) (hs.unbound_top _) hnames).trans
      (hs.lookup_eq (hs.unbound_top _) hnames).symm

/-- In the loaded session: each kind of call, with native functions. -/
theorem listCalls_evaluated :
    let s := coreSession.state
    let env := coreSession.env
    let not : Term := .native (.primitive .not)
    let add : Term := .native (.primitive .add)
    let bools := [.sym "not", formOf "list" [.sym "true", .sym "false"]]
    let sum := [.sym "+", .int 1, formOf "list" [.int 2, .int 3]]
    (LibraryCall Host.bare mapFunction env bools [not, .list [.bool true, .bool false]] s s ∧
      (mapping Host.bare not).Undisturbed Host.bare [.bool true, .bool false] s ∧
      LibraryCall Host.bare filterFunction env bools [not, .list [.bool true, .bool false]] s s ∧
      (filtering Host.bare not).Undisturbed Host.bare [.bool true, .bool false] s ∧
      LibraryCall Host.bare reduceFunction env sum [add, .int 1, .list [.int 2, .int 3]] s s ∧
      (folding Host.bare add (.int 1)).Undisturbed Host.bare [.int 2, .int 3] s ∧
      LibraryCall Host.bare rangeFunction env [.int 3] [.int 3] s s) ∧
    (∃ s', Evaluates Host.bare (formOf "map" bools) env s
      (.value (.list [.bool false, .bool true], env) s')) ∧
    (∃ s', Evaluates Host.bare (formOf "filter" bools) env s
      (.value (.list [.bool false], env) s')) ∧
    (∃ s', Evaluates Host.bare (formOf "reduce" sum) env s (.value (.int 6, env) s')) ∧
    ∃ s', Evaluates Host.bare (formOf "range" [.int 3]) env s
      (.value (.list [.int 0, .int 1, .int 2], env) s') := by
  intro s env not add bools sum
  obtain ⟨-, -, hmeaning⟩ := list_functions_meaning Host.bare
  have hcallable (p : Primitive) : Callable (.native (.primitive p)) :=
    .native fun _ _ _ _ _ => rfl
  have hprogram {ts : List Term} (hts : ∀ t ∈ ts, t.MadeFrom []) (f : String) :
      (formOf f ts).MadeFrom [] := Term.Functions.list (List.forall_mem_cons.mpr ⟨.atom, hts⟩)
  have hbools : ∀ t ∈ bools, t.MadeFrom [] :=
    List.forall_mem_cons.mpr ⟨.atom, List.forall_mem_singleton.mpr
      (hprogram (List.forall_mem_cons.mpr ⟨.atom, List.forall_mem_singleton.mpr .atom⟩) _)⟩
  have hsum : ∀ t ∈ sum, t.MadeFrom [] :=
    List.forall_mem_cons.mpr ⟨.atom, List.forall_mem_cons.mpr ⟨.atom, List.forall_mem_singleton.mpr
      (hprogram (List.forall_mem_cons.mpr ⟨.atom, List.forall_mem_singleton.mpr .atom⟩) _)⟩⟩
  have hmap : LibraryCall Host.bare mapFunction env bools
      [not, .list [.bool true, .bool false]] s s :=
    libraryCall_loaded (by decide) hbools ⟨nofun, 5, rfl⟩
  have hfilter : LibraryCall Host.bare filterFunction env bools
      [not, .list [.bool true, .bool false]] s s :=
    libraryCall_loaded (by decide) hbools ⟨nofun, 5, rfl⟩
  have hreduce : LibraryCall Host.bare reduceFunction env sum
      [add, .int 1, .list [.int 2, .int 3]] s s :=
    libraryCall_loaded (by decide) hsum ⟨nofun, 5, rfl⟩
  have hrange : LibraryCall Host.bare rangeFunction env [.int 3] [.int 3] s s :=
    libraryCall_loaded (by decide) (List.forall_mem_singleton.mpr .atom) ⟨nofun, 5, rfl⟩
  have hintact := coreSession_intact
  have hmapping : (mapping Host.bare not).Undisturbed Host.bare [.bool true, .bool false] s :=
    collecting_undisturbed hintact _
  have hfiltering : (filtering Host.bare not).Undisturbed Host.bare [.bool true, .bool false] s :=
    collecting_undisturbed hintact _
  have hfolding : (folding Host.bare add (.int 1)).Undisturbed Host.bare [.int 2, .int 3] s :=
    folding_undisturbed hintact _ _
  refine ⟨⟨hmap, hmapping, hfilter, hfiltering, hreduce, hfolding, hrange⟩, ?_, ?_, ?_, ?_⟩
  · have hruns := (hmeaning env bools s s).1 not _ (hcallable .not) hmap hmapping
    exact ⟨_, hruns.symm.value ⟨nofun, 5, rfl⟩⟩
  · have hruns := (hmeaning env bools s s).2.1 not _ (hcallable .not) hfilter hfiltering
    exact ⟨_, hruns.symm.value ⟨nofun, 5, rfl⟩⟩
  · have hruns := (hmeaning env sum s s).2.2.1 add _ _ (hcallable .add) hreduce hfolding
    exact ⟨_, hruns.symm.value ⟨nofun, 5, rfl⟩⟩
  · obtain ⟨s', hruns, -⟩ := (hmeaning env _ s s).2.2.2 3 hrange hintact (by decide)
    exact ⟨s', hruns⟩

end SmallLisp

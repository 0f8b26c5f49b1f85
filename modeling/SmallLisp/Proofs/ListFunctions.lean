import SmallLisp.Proofs.ListLoops

/-! The list functions of the core library, from the inside. `map`, `filter` and `reduce` walk along
a list (`mapping`, `filtering`, `folding`): one round of their loops is one step of the walk, and
the walk goes on as long as the calls leave the library intact. `range` counts down and collects the
numbers on its way (`range_expand`). -/
namespace SmallLisp

def mapping (host : Host) (f : Term) : Walk (List Term) :=
  collecting host f "f" (formOf "cons" [onFirst "f", .sym "acc"]) fun v _ done => .ok (v :: done)

/-- Collects an element if the value for it is true, and not if that is false. -/
def keep (v x : Term) (kept : List Term) : Except Error (List Term) :=
  match v with
  | .bool true => .ok (x :: kept)
  | .bool false => .ok kept
  | v => .error (.general (.condition SpecialForm.choose.name v.kind))

/-- Other values are refused as conditions. -/
theorem keep_of_ne {v : Term} (htrue : v ≠ .bool true) (hfalse : v ≠ .bool false) (x : Term)
    (kept : List Term) :
    keep v x kept = .error (.general (.condition SpecialForm.choose.name v.kind)) := by
  unfold keep
  split
  · exact (htrue rfl).elim
  · exact (hfalse rfl).elim
  · rfl

def filtering (host : Host) (f : Term) : Walk (List Term) :=
  collecting host f "pred" (formOf "if" [onFirst "pred",
    formOf "cons" [formOf "first" [.sym "l"], .sym "acc"], .sym "acc"]) keep

/-- Calls `f` on what there is so far and the next element. -/
def folding (host : Host) (f init : Term) : Walk Term where
  start := init
  step x a := applied host f [a, x]
  result a := a
  enter _ s := s
  note xs a s := s.addFrame
    [(Bytes.ofString "f", f), (Bytes.ofString "init", a), (Bytes.ofString "l", .list xs)]

/-! ## Collecting -/

section

variable {host : Host} {f : Term}

/-- The first element, where a loop keeps what is left of the list. -/
theorem computes_first {s : State} {m : Nat} {frames : List Nat} {name : String} {x : Term}
    {xs done : List Term} (hscope : s.CoreScope (m :: frames) (loopNames name))
    (hfree : Bytes.ofString "first" ∉ loopNames name) (hm : s.frame m = loopFrame (x :: xs) done) :
    Computes 3 s ⟨m :: frames, coreName⟩ (formOf "first" [.sym "l"]) x :=
  (computes_local (v := .list (x :: xs)) (by rw [hm]; rfl) (by decide)).call
    (hscope.calls (c := ("first", .first)) (by decide) hfree) rfl

theorem map_collects (hf : Callable f) :
    Collects host f "f" (formOf "cons" [onFirst "f", .sym "acc"]) fun v _ done =>
      .ok (v :: done) where
  distinct := by decide
  free := by decide
  agrees {s m frames x xs done} hscope hm hlookup hafter := by
    let env : Env := ⟨m :: frames, coreName⟩
    have hfirst := (computes_first hscope (by decide) hm).all .nil
    have hcons := hscope.calls (c := ("cons", .cons)) (by decide) (by decide)
    have hrest (v : Term) : Steady fun ev => ev.value (.sym "acc") env >>= fun w =>
        Action.ofExcept (Primitive.cons.call [v, w]) :=
      (steady_value _ env).bind fun w => steady_const (Action.ofExcept (Primitive.cons.call [v, w]))
    refine (Agrees.call_two hcons (onFirst "f") (.sym "acc")).trans ?_
    refine (hf.agrees hlookup (by decide) (by decide) hfirst).bind (steady_value _ env)
      (steady_applied [x]) hrest (fun _ => steady_const _) fun v s' hv => ?_
    have hkept := (hafter v s' ((hf.agrees hlookup (by decide) (by decide) hfirst).value hv)).1
    have hacc : Computes 1 s' env (.sym "acc") (.list done) :=
      computes_local (by rw [hkept, hm]; rfl) (by decide)
    exact .past (steady_value _ env) (fun w => steady_const _)
      (EndsIn.value_iff_value.mpr ⟨env, hacc.evaluates host⟩) (.refl _)

theorem filter_collects (hf : Callable f) :
    Collects host f "pred" (formOf "if" [onFirst "pred",
      formOf "cons" [formOf "first" [.sym "l"], .sym "acc"], .sym "acc"]) keep where
  distinct := by decide
  free := by decide
  agrees {s m frames x xs done} hscope hm hlookup hafter := by
    let env : Env := ⟨m :: frames, coreName⟩
    let yes := formOf "cons" [formOf "first" [.sym "l"], .sym "acc"]
    have hfirst := (computes_first hscope (by decide) hm).all .nil
    have htest : Agrees host s (fun ev => ev.value (onFirst "pred") env) (applied host f [x]) :=
      hf.agrees hlookup (by decide) (by decide) hfirst
    have hkeep (v : Term) : Steady fun _ : Evaluate =>
      Action.ofExcept ((keep v x done).map Term.list) := steady_const _
    have hpair (v : Term) : Steady fun _ : Evaluate =>
      Action.ofExcept ((keep v x done).map Term.list) >>= fun w => pure (w, env) := steady_const _
    refine .to_value env ((steady_applied [x]).bind hkeep) ?_
    refine (Agrees.choose (hscope.plain .choose (by decide)) (onFirst "pred") yes
      (.sym "acc")).trans (.trans (htest.bind (steady_value _ env) (steady_applied [x])
        (fun v => steady_chosen (steady_eval yes env) (steady_eval _ env) v) hpair ?_)
        (.of_eq fun ev => (bind_assoc _ _ _).symm))
    intro v s' hv
    obtain ⟨hkept, hscope'⟩ := hafter v s' (htest.value hv)
    have hm' := hkept.trans hm
    have hacc : Computes 1 s' env (.sym "acc") (.list done) :=
      computes_local (by rw [hm']; rfl) (by decide)
    unfold chosen
    split
    · have hscope' := hscope' (x :: done) rfl
      have hyes : Computes 5 s' env yes (.list (x :: done)) :=
        .call_two (hscope'.calls (c := ("cons", .cons)) (by decide) (by decide))
          (computes_first hscope' (by decide) hm') hacc rfl
      exact hyes.agrees host
    · exact hacc.agrees host
    · next htrue hfalse =>
      rw [keep_of_ne htrue hfalse]
      exact .refl _

/-! ## Folding -/

def foldFrame (f a : Term) (xs : List Term) : Table Term :=
  [(Bytes.ofString "f", f), (Bytes.ofString "init", a), (Bytes.ofString "l", .list xs)]

def foldNames : List Bytes := ["f", "init", "l"].map Bytes.ofString

theorem foldFrame_scope {s : State} {m : Nat} {a : Term} {xs : List Term}
    (hs : s.HasCore coreRoot) (hm : s.frame m = foldFrame f a xs) :
    s.CoreScope [m, 0] foldNames := .inner hs hm

/-- The arguments of the next call: the value of this one for the first element, and the rest of
the list. -/
theorem reduce_values (hf : Callable f) {s : State} {m : Nat} {a x : Term} {xs : List Term}
    (hs : s.HasCore coreRoot) (hm : s.frame m = foldFrame f a (x :: xs))
    (hafter : ∀ v s', EndsIn host (applied host f [a, x]) s (.value v s') →
      s'.HasCore coreRoot ∧ s'.frame m = s.frame m) :
    Agrees host s
      (fun ev => ev.values ⟨[m, 0], coreName⟩ [.sym "f",
        formOf "f" [.sym "init", formOf "first" [.sym "l"]], formOf "rest" [.sym "l"]])
      (fun ev => applied host f [a, x] ev >>= fun v => return [f, v, .list xs]) := by
  let env : Env := ⟨[m, 0], coreName⟩
  let call := formOf "f" [.sym "init", formOf "first" [.sym "l"]]
  let rest := formOf "rest" [.sym "l"]
  have hscope := foldFrame_scope hs hm
  have hinit : Computes 1 s env (.sym "init") a := computes_local (by rw [hm]; rfl) (by decide)
  have hl : Computes 1 s env (.sym "l") (.list (x :: xs)) :=
    computes_local (by rw [hm]; rfl) (by decide)
  have hfirst : Computes 3 s env (formOf "first" [.sym "l"]) x :=
    hl.call (hscope.calls (c := ("first", .first)) (by decide) (by decide)) rfl
  have hlookup : s.lookup env (Bytes.ofString "f") = .ok f := State.lookup_local (by rw [hm]; rfl)
  have hfunction : Computes 1 s env (.sym "f") f := .symbol hlookup (by decide)
  have hcall : Agrees host s (fun ev => ev.value call env) (applied host f [a, x]) :=
    hf.agrees hlookup (by decide) (by decide) (hinit.all (hfirst.all .nil))
  have hlast (v : Term) : Steady fun ev => ev.value rest env >>= fun r => pure [f, v, r] :=
    (steady_value rest env).bind fun r => steady_const (pure [f, v, r])
  have hothers (u : Term) : Steady fun ev => ev.value call env >>= fun v =>
      ev.value rest env >>= fun r => pure [u, v, r] :=
    (steady_value call env).bind fun v => (steady_value rest env).bind fun r =>
      steady_const (pure [u, v, r])
  refine Agrees.trans (.of_eq fun ev => ?_) (.past (steady_value _ env) hothers
    (EndsIn.value_iff_value.mpr ⟨env, hfunction.evaluates host⟩)
    (hcall.bind (steady_value call env) (steady_applied [a, x]) hlast
      (fun v => steady_const (pure [f, v, .list xs])) fun v s' hv => ?_))
  · simp only [Evaluate.values, bind_assoc, pure_bind, env, call, rest]
  · obtain ⟨hs', hkept⟩ := hafter v s' (hcall.value hv)
    have hl' : Computes 1 s' env (.sym "l") (.list (x :: xs)) :=
      computes_local (by rw [hkept, hm]; rfl) (by decide)
    have hrest : Computes 3 s' env rest (.list xs) :=
      hl'.call ((foldFrame_scope hs' (hkept.trans hm)).calls (c := ("rest", .rest)) (by decide)
        (by decide)) rfl
    exact .past (steady_value rest env) (fun r => steady_const (pure [f, v, r]))
      (EndsIn.value_iff_value.mpr ⟨env, hrest.evaluates host⟩) (.refl _)

/-- One step, and on with the rest of the list. -/
theorem reduce_round (hf : Callable f) {s : State} {m : Nat} {a x : Term} {xs : List Term}
    (hs : s.HasCore coreRoot) (hm : s.frame m = foldFrame f a (x :: xs))
    (hafter : ∀ v s', EndsIn host (applied host f [a, x]) s (.value v s') →
      s'.HasCore coreRoot ∧ s'.frame m = s.frame m) :
    ∃ id, Agrees host s (fun ev => ev.value reduceFunction.body ⟨[m, 0], coreName⟩)
      (fun ev => applied host f [a, x] ev >>= fun v =>
        (reduceFunction.function id).expand ev [f, v, .list xs]) := by
  let env : Env := ⟨[m, 0], coreName⟩
  have hscope := foldFrame_scope hs hm
  have hl : Computes 1 s env (.sym "l") (.list (x :: xs)) :=
    computes_local (by rw [hm]; rfl) (by decide)
  have hempty : Computes 3 s env (formOf "empty?" [.sym "l"]) (.bool false) :=
    hl.call (hscope.calls (c := ("empty?", .isEmpty)) (by decide) (by decide)) rfl
  obtain ⟨id, hreduce⟩ := hscope.defined (d := reduceFunction) (by simp [coreDefinitions])
    (by decide) (by decide)
  refine ⟨id, (Agrees.branch (hscope.plain .choose (by decide)) hempty _ _).trans ?_⟩
  refine (Agrees.closureCall hreduce rfl (by decide) (by decide)
    ((steady_applied _).bind fun v => steady_const (pure [f, v, .list xs]))
    (reduce_values hf hs hm hafter)).trans (.of_eq fun ev => ?_)
  simp only [bind_assoc, pure_bind]

theorem reduce_last {s : State} {m : Nat} {a : Term} (hs : s.HasCore coreRoot)
    (hm : s.frame m = foldFrame f a []) :
    Agrees host s (fun ev => ev.value reduceFunction.body ⟨[m, 0], coreName⟩)
      (fun _ => return a) := by
  let env : Env := ⟨[m, 0], coreName⟩
  have hscope := foldFrame_scope hs hm
  have hl : Computes 1 s env (.sym "l") (.list []) :=
    computes_local (by rw [hm]; rfl) (by decide)
  have hinit : Computes 1 s env (.sym "init") a := computes_local (by rw [hm]; rfl) (by decide)
  have hempty : Computes 3 s env (formOf "empty?" [.sym "l"]) (.bool true) :=
    hl.call (hscope.calls (c := ("empty?", .isEmpty)) (by decide) (by decide)) rfl
  have hbody : Computes 4 s env reduceFunction.body a :=
    hempty.choose (b := true) (hscope.plain .choose (by decide)) (hinit.mono (by decide))
  exact .of_evaluates (hbody.evaluates host)

theorem reduce_expand (hf : Callable f) {s : State} {hidden : Nat → Prop} {id : Nat}
    {init a : Term} {xs : List Term} (hs : s.Hides hidden) (hfs : f.Sees hidden s.frames.size)
    (ha : a.Sees hidden s.frames.size) (hxs : ∀ x ∈ xs, x.Sees hidden s.frames.size)
    (hw : (folding host f init).Intact host xs a s) :
    Agrees host s (fun ev => (reduceFunction.function id).expand ev [f, a, .list xs])
      ((folding host f init).along xs a) := by
  have hstep (x a : Term) : Steady ((folding host f init).step x a) := steady_applied [a, x]
  induction xs generalizing a s hidden id with
  | nil =>
    have hbind : (reduceFunction.function id).bind [f, a, .list []] = .ok (foldFrame f a []) := rfl
    refine (Agrees.expand hbind rfl).trans ?_
    exact .after_update (steady_value _ _) (steady_const _)
      (reduce_last ((State.coreIntact_iff.mp hw).addFrame _) (State.frame_addFrame_self s _))
  | cons x xs ih =>
    let s₁ := s.addFrame (foldFrame f a (x :: xs))
    let hidden' := fun i => hidden i ∨ i = s.frames.size
    have hx := hxs x List.mem_cons_self
    have hsize : s₁.frames.size = s.frames.size + 1 := State.addFrame_size s _
    have hnext {v : Term} {s' : State} (hv : EndsIn host (applied host f [a, x]) s₁ (.value v s')) :
        s'.Hides hidden' ∧ s₁.frames.size ≤ s'.frames.size ∧
          (∀ i, hidden' i → s'.frame i = s₁.frame i) ∧ v.Sees hidden' s'.frames.size :=
      callValue_hides (hs.hide _) (hsize ▸ hfs.hide) (List.forall_mem_cons.mpr
        ⟨hsize ▸ ha.hide, List.forall_mem_singleton.mpr (hsize ▸ hx.hide)⟩) rfl hv
    obtain ⟨id', hround⟩ := reduce_round hf ((State.coreIntact_iff.mp hw.1).addFrame _)
      (State.frame_addFrame_self s _) fun v s' hv =>
        ⟨State.coreIntact_iff.mp (hw.2 v s' hv).now, (hnext hv).2.2.1 _ (.inr rfl)⟩
    have halong (v : Term) := Walk.steady_along hstep xs v
    have hbind : (reduceFunction.function id).bind [f, a, .list (x :: xs)] =
      .ok (foldFrame f a (x :: xs)) := rfl
    refine (Agrees.expand hbind rfl).trans ?_
    refine .after_update (steady_value _ _) ((hstep x a).bind halong) ?_
    refine hround.trans (.after (hstep x a) (fun v => steady_expand _ _) halong fun v s' hv => ?_)
    obtain ⟨hs', hle, -, hseen⟩ := hnext hv
    have hmono {t : Term} (ht : t.Sees hidden s.frames.size) : t.Sees hidden' s'.frames.size :=
      ht.hide.mono (hsize ▸ hle)
    exact ih hs' (hmono hfs) hseen (fun y hy => hmono (hxs y (List.mem_cons_of_mem x hy)))
      (hw.2 v s' hv)

end

/-! ## Counting -/

def upTo (c : Nat) : List Term := (List.range c).map fun i => .int (Int64.ofNat i)

theorem upTo_succ {i : Int64} {c : Nat} (hi : i.toInt = c) (done : List Term) :
    upTo (c + 1) ++ done = upTo c ++ .int i :: done := by
  have hc : Int64.ofNat c = i := by
    rw [← Int64.ofInt_toInt i, hi]
    rfl
  simp [upTo, List.range_succ, hc]

theorem compare_less (i j : Int64) :
    (Primitive.compare .less).call [.int i, .int j] = .ok (.bool (decide (i < j))) := by
  change Except.ok (Term.bool (true && Comparison.less.holds (Arithmetic.order (.int i) (.int j)))) = _
  simp only [Arithmetic.order, Comparison.holds, Bool.true_and]
  by_cases h : i < j
  · simp [h]
  · by_cases h' : j < i <;> simp [h, h']

/-- Only the least number has none below it. -/
theorem toInt_pred {i : Int64} (h : i ≠ Int64.minValue) : (i - 1).toInt = i.toInt - 1 := by
  have hle := i.le_toInt
  have hlt := i.toInt_lt
  have hmin : i.toInt ≠ -2 ^ 63 := fun heq => h (Int64.toInt_inj.mp heq)
  rw [Int64.toInt_sub]
  exact Int.bmod_eq_of_le (by simp; omega) (by simp; omega)

def countBody : Term :=
  stepBody (formOf "<" [.sym "i", .int 0]) (.sym "acc") (formOf "-" [.sym "i", .int 1])
    (formOf "cons" [.sym "i", .sym "acc"])

def countFrame (i : Int64) (done : List Term) : Table Term :=
  [(Bytes.ofString "i", .int i), (Bytes.ofString "acc", .list done)]

section

variable {host : Host} {s : State} {hidden : Nat → Prop} {id j k : Nat} {n i : Int64}
  {done : List Term}

/-- What the variables of the loop are, in a frame of it. -/
theorem range_variables (i : Int64) (done : List Term)
    (h : s.InLoop hidden (loopFunction id j k ["i", "acc"] countBody) j k
      [(Bytes.ofString "n", .int n)]) (hs : s.CoreIntact) :
    let s' := s.addFrame (countFrame i done)
    let env : Env := ⟨[s.frames.size, j, k, 0], coreName⟩
    s'.CoreScope env.frames (["i", "acc", "step", "n"].map Bytes.ofString) ∧
      Computes 1 s' env (.sym "i") (.int i) ∧ Computes 1 s' env (.sym "acc") (.list done) ∧
      s'.lookup env (Bytes.ofString "step") =
        .ok (.closure (loopFunction id j k ["i", "acc"] countBody)) := by
  intro s' env
  have hframe : s'.frame s.frames.size = countFrame i done := s.frame_addFrame_self _
  exact ⟨(h.addFrame _).scope ((State.coreIntact_iff.mp hs).addFrame _) hframe,
    computes_local (by rw [hframe]; rfl) (by decide),
    computes_local (by rw [hframe]; rfl) (by decide),
    (h.addFrame _).lookup_step (by rw [hframe]; rfl)⟩

theorem range_last
    (h : s.InLoop hidden (loopFunction id j k ["i", "acc"] countBody) j k
      [(Bytes.ofString "n", .int n)]) (hs : s.CoreIntact) (hi : i < 0) :
    Agrees host (s.addFrame (countFrame i done))
      (fun ev => ev.value countBody ⟨[s.frames.size, j, k, 0], coreName⟩)
      (fun _ => return .list done) := by
  let s₁ := s.addFrame (countFrame i done)
  let env : Env := ⟨[s.frames.size, j, k, 0], coreName⟩
  obtain ⟨hscope, hnumber, hdone, -⟩ := range_variables i done h hs
  have hless : Computes 3 s₁ env (formOf "<" [.sym "i", .int 0]) (.bool true) := by
    refine .call_two (hscope.calls (c := ("<", .compare .less)) (by decide) (by decide)) hnumber
      (.int 0) ?_
    rw [compare_less, decide_eq_true hi]
  have hbody : Computes 4 s₁ env countBody (.list done) :=
    hless.choose (b := true) (hscope.plain .choose (by decide)) (hdone.mono (by decide))
  exact .of_evaluates (hbody.evaluates host)

theorem range_round
    (h : s.InLoop hidden (loopFunction id j k ["i", "acc"] countBody) j k
      [(Bytes.ofString "n", .int n)]) (hs : s.CoreIntact) (hi : ¬ i < 0) :
    Agrees host (s.addFrame (countFrame i done))
      (fun ev => ev.value countBody ⟨[s.frames.size, j, k, 0], coreName⟩)
      (fun ev => (loopFunction id j k ["i", "acc"] countBody).expand ev
        [.int (i - 1), .list (.int i :: done)]) := by
  let s₁ := s.addFrame (countFrame i done)
  let env : Env := ⟨[s.frames.size, j, k, 0], coreName⟩
  obtain ⟨hscope, hnumber, hdone, hcalled⟩ := range_variables i done h hs
  have hless : Computes 3 s₁ env (formOf "<" [.sym "i", .int 0]) (.bool false) := by
    refine .call_two (hscope.calls (c := ("<", .compare .less)) (by decide) (by decide)) hnumber
      (.int 0) ?_
    rw [compare_less, decide_eq_false hi]
  have hbelow : Computes 3 s₁ env (formOf "-" [.sym "i", .int 1]) (.int (i - 1)) :=
    .call_two (hscope.calls (c := ("-", .sub)) (by decide) (by decide)) hnumber (.int 1) rfl
  have hmore : Computes 3 s₁ env (formOf "cons" [.sym "i", .sym "acc"])
      (.list (.int i :: done)) :=
    .call_two (hscope.calls (c := ("cons", .cons)) (by decide) (by decide)) hnumber hdone rfl
  refine (Agrees.branch (hscope.plain .choose (by decide)) hless _ _).trans ?_
  exact (Agrees.closureCall hcalled rfl (by decide) (by decide) (steady_const _)
    ((hbelow.all (hmore.all .nil)).agrees host)).trans (.of_eq fun ev => pure_bind _ _)

/-- The loop counts down to zero. -/
theorem range_counts {c : Nat}
    (h : s.InLoop hidden (loopFunction id j k ["i", "acc"] countBody) j k
      [(Bytes.ofString "n", .int n)]) (hs : s.CoreIntact) (hi : (i.toInt + 1).toNat = c) :
    ∃ s', EndsIn host (fun ev => (loopFunction id j k ["i", "acc"] countBody).expand ev
      [.int i, .list done]) s (.value (.list (upTo c ++ done)) s') ∧ State.Beside 0 s' s := by
  let g := loopFunction id j k ["i", "acc"] countBody
  have hsign {i : Int64} : i < 0 ↔ i.toInt < 0 := Int64.lt_iff_toInt_lt
  have hframe (s : State) (i : Int64) (done : List Term) :
      Agrees host s (fun ev => g.expand ev [.int i, .list done])
        (fun ev => Action.update (·.addFrame (countFrame i done)) >>= fun _ =>
          ev.value countBody ⟨[s.frames.size, j, k, 0], coreName⟩) := .expand rfl rfl
  induction c generalizing s hidden i done with
  | zero =>
    have hlast := (hframe s i done).trans (.after_update (steady_value _ _) (steady_const _)
      (range_last h hs (hsign.mpr (by omega))))
    exact ⟨_, hlast.symm.value ⟨nofun, 0, rfl⟩, (State.Beside.refl s).addFrame _⟩
  | succ c ih =>
    have hc : i.toInt = c := by omega
    have hmin : i ≠ Int64.minValue := by
      rintro rfl
      rw [Int64.toInt_minValue] at hc
      omega
    have hround := (hframe s i done).trans (.after_update (steady_value _ _) (steady_expand g _)
      (range_round h hs ((not_congr hsign).mpr (by omega))))
    have hpred := toInt_pred hmin
    have hcore := (State.coreIntact_iff.mp hs).addFrame (countFrame i done)
    obtain ⟨s', hends, hbeside⟩ : ∃ s', EndsIn host
        (fun ev => g.expand ev [.int (i - 1), .list (.int i :: done)])
        (s.addFrame (countFrame i done)) (.value (.list (upTo c ++ .int i :: done)) s') ∧
          State.Beside 0 s' (s.addFrame (countFrame i done)) :=
      ih (h.addFrame _) (State.coreIntact_iff.mpr hcore) (by omega)
    rw [upTo_succ hc]
    exact ⟨s', hround.symm.value hends, hbeside.trans ((State.Beside.refl s).addFrame _)⟩

/-- `range` counts up to its argument. -/
theorem range_expand (hs : s.Hides hidden) (hcore : s.CoreIntact) (hn : n ≠ Int64.minValue) :
    ∃ s', EndsIn host (fun ev => (rangeFunction.function id).expand ev [.int n]) s
      (.value (.list (upTo n.toInt.toNat)) s') ∧ State.Beside 1 s' s := by
  let k := s.frames.size
  let call : Table Term := [(Bytes.ofString "n", .int n)]
  let s₀ := s.addFrame call
  let s₁ := s₀.addLoop k ["i", "acc"] countBody
  let g := loopFunction s₀.closures s₀.frames.size k ["i", "acc"] countBody
  have hloop : s₁.InLoop (fun i => (hidden i ∨ i = k) ∨ i = s₀.frames.size) g s₀.frames.size k
      call := hs.enterLoop call _ _
  have hcore₀ := (State.coreIntact_iff.mp hcore).addFrame call
  have hscope : s₀.CoreScope [k, 0] (["n"].map Bytes.ofString) :=
    .inner hcore₀ (State.frame_addFrame_self s call)
  have hk : k < s₀.frames.size := by
    simp [k, s₀]
  have hcore₁ : s₁.HasCore coreRoot := (hcore₀.addFrame _).count _
  have hscope₁ : s₁.CoreScope [s₀.frames.size, k, 0] (["step", "n"].map Bytes.ofString) :=
    hloop.scope_outside hcore₁
  have hstart : Computes 3 s₁ ⟨[s₀.frames.size, k, 0], coreName⟩ (formOf "-" [.sym "n", .int 1])
      (.int (n - 1)) :=
    .call_two (hscope₁.calls (c := ("-", .sub)) (by decide) (by decide))
      (.symbol (hloop.lookup_outside (by decide) rfl) (by decide)) (.int 1) rfl
  have hcount : ((n - 1).toInt + 1).toNat = n.toInt.toNat := by
    rw [toInt_pred hn, Int.sub_add_cancel]
  obtain ⟨s', hends, hbeside⟩ : ∃ s', EndsIn host
      (fun ev => g.expand ev [.int (n - 1), .list []]) s₁
      (.value (.list (upTo n.toInt.toNat ++ [])) s') ∧ State.Beside 0 s' s₁ :=
    range_counts hloop (State.coreIntact_iff.mpr hcore₁) hcount
  rw [List.append_nil] at hends
  have hentered := Agrees.stepLoop host hscope hk (by decide) (by decide) hstart
  have hcalled : Agrees host s (fun ev => (rangeFunction.function id).expand ev [.int n])
      (fun ev => Action.update (·.addFrame call) >>= fun _ =>
        Action.update (·.addLoop k ["i", "acc"] countBody) >>= fun _ =>
          g.expand ev [.int (n - 1), .list []]) :=
    .trans (.expand rfl rfl)
      (.after_update (steady_value _ _) ((steady_const _).bind fun _ => steady_expand g _) hentered)
  exact ⟨s', hcalled.symm.value hends,
    hbeside.trans (((State.Beside.refl s).addFrame call).addLoop k _ _)⟩

end

end SmallLisp

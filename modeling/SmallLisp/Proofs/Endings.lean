import SmallLisp.Proofs.Expansion

/-! How actions end, whatever the fuel. An action that evaluates terms on its way ends as it does
under some amount of fuel (`EndsIn`), in one way only; actions in a row end one after the other
(`EndsIn.bind_iff`). Two actions agree when they end with the same values and states, and with the
same errors but for the forms attached to them (`Agrees`). Calling a native function that only looks
at its arguments is evaluating those and applying it (`evaluates_call_iff`). -/
namespace SmallLisp

/-- With evaluations that end where others do, the action ends where it does with those. -/
def Steady {α : Type} (m : Evaluate → Action α) : Prop :=
  ∀ ev ev' : Evaluate, ev.Below ev' → (m ev).Below (m ev')

theorem steady_const {α : Type} (m : Action α) : Steady fun _ => m := fun _ _ _ => .refl m

theorem steady_value (t : Term) (env : Env) : Steady fun ev => ev.value t env :=
  fun _ _ h => value_below h t env

theorem steady_values (env : Env) (ts : List Term) : Steady fun ev => ev.values env ts :=
  fun _ _ h => values_below h env ts

theorem Steady.bind {α β : Type} {m : Evaluate → Action α} {f : α → Evaluate → Action β}
    (hm : Steady m) (hf : ∀ a, Steady (f a)) : Steady fun ev => m ev >>= fun a => f a ev :=
  fun ev ev' h => .bind (hm ev ev' h) fun a => hf a ev ev' h

def EndsIn {α : Type} (host : Host) (m : Evaluate → Action α) (s : State) (r : Outcome α) : Prop :=
  r ≠ .timeout ∧ ∃ fuel, m (evalWith host fuel) s = r

namespace EndsIn

variable {α β : Type} {host : Host} {m : Evaluate → Action α} {f : α → Evaluate → Action β}
  {s s' : State}

/-- Any larger amount of fuel is as good. -/
theorem from_fuel (hm : Steady m) {r : Outcome α} (h : EndsIn host m s r) :
    ∃ least, ∀ fuel, least ≤ fuel → m (evalWith host fuel) s = r := by
  obtain ⟨hr, least, rfl⟩ := h
  refine ⟨least, fun fuel hle => ?_⟩
  exact ((hm _ _ (evalWith_below host hle) s).resolve_left hr).symm

theorem unique (hm : Steady m) {r r' : Outcome α} (h : EndsIn host m s r)
    (h' : EndsIn host m s r') : r = r' := by
  obtain ⟨least, hleast⟩ := h.from_fuel hm
  obtain ⟨least', hleast'⟩ := h'.from_fuel hm
  rw [← hleast (max least least') (Nat.le_max_left ..),
    ← hleast' (max least least') (Nat.le_max_right ..)]

theorem const_iff {m : Action α} {r : Outcome α} :
    EndsIn host (fun _ => m) s r ↔ r ≠ .timeout ∧ m s = r :=
  and_congr_right fun _ => ⟨fun ⟨_, h⟩ => h, fun h => ⟨0, h⟩⟩

theorem pure (a : α) : EndsIn host (fun _ => Pure.pure a) s (.value a s) := ⟨nofun, 0, rfl⟩

theorem bind_value (hm : Steady m) (hf : ∀ a, Steady (f a)) {a : α}
    (h : EndsIn host m s (.value a s')) {r : Outcome β} (h' : EndsIn host (f a) s' r) :
    EndsIn host (fun ev => m ev >>= fun a => f a ev) s r := by
  obtain ⟨least, hleast⟩ := h.from_fuel hm
  obtain ⟨least', hleast'⟩ := h'.from_fuel (hf a)
  refine ⟨h'.1, max least least', ?_⟩
  dsimp only
  rw [Action.bind_apply, hleast _ (Nat.le_max_left ..)]
  exact hleast' _ (Nat.le_max_right ..)

theorem bind_failure {e : Error} (h : EndsIn host m s (.failure e s')) :
    EndsIn host (fun ev => m ev >>= fun a => f a ev) s (.failure e s') := by
  obtain ⟨-, fuel, hfuel⟩ := h
  refine ⟨nofun, fuel, ?_⟩
  dsimp only
  rw [Action.bind_apply, hfuel]

/-- Two actions in a row end where the first one fails, or else as the second one. -/
theorem bind_iff (hm : Steady m) (hf : ∀ a, Steady (f a)) {r : Outcome β} :
    EndsIn host (fun ev => m ev >>= fun a => f a ev) s r ↔
      (∃ e s', EndsIn host m s (.failure e s') ∧ r = .failure e s') ∨
        ∃ a s', EndsIn host m s (.value a s') ∧ EndsIn host (f a) s' r := by
  constructor
  · rintro ⟨hr, fuel, rfl⟩
    dsimp only at hr ⊢
    rw [Action.bind_apply] at hr ⊢
    cases hv : m (evalWith host fuel) s with
    | timeout => rw [hv] at hr; exact absurd rfl hr
    | failure e s' => exact .inl ⟨e, s', ⟨nofun, fuel, hv⟩, rfl⟩
    | value a s' =>
      rw [hv] at hr
      exact .inr ⟨a, s', ⟨nofun, fuel, hv⟩, hr, fuel, rfl⟩
  · rintro (⟨e, s', h, rfl⟩ | ⟨a, s', h, h'⟩)
    · exact h.bind_failure
    · exact h.bind_value hm hf h'

theorem map_iff {g : α → β} {r : Outcome β} :
    EndsIn host (fun ev => m ev >>= fun a => Pure.pure (g a)) s r ↔
      ∃ r', EndsIn host m s r' ∧ r = r'.map g := by
  have hmap (o : Action α) : (o >>= fun a => Pure.pure (g a)) s = (o s).map g := by
    rw [Action.bind_apply]
    cases o s <;> rfl
  have htimeout (r : Outcome α) : r.map g = .timeout ↔ r = .timeout := by
    cases r <;> simp [Outcome.map]
  constructor
  · rintro ⟨hr, fuel, rfl⟩
    dsimp only at hr ⊢
    rw [hmap] at hr ⊢
    exact ⟨_, ⟨mt (htimeout _).mpr hr, fuel, rfl⟩, rfl⟩
  · rintro ⟨r', ⟨hr, fuel, rfl⟩, rfl⟩
    exact ⟨mt (htimeout _).mp hr, fuel, hmap _⟩

theorem map_value {g : α → β} {a : α} (h : EndsIn host m s (.value a s')) :
    EndsIn host (fun ev => m ev >>= fun a => Pure.pure (g a)) s (.value (g a) s') :=
  map_iff.mpr ⟨_, h, rfl⟩

/-- If two actions in a row end with a value then so does each. -/
theorem of_bind_value (hm : Steady m) (hf : ∀ a, Steady (f a)) {b : β}
    (h : EndsIn host (fun ev => m ev >>= fun a => f a ev) s (.value b s')) :
    ∃ a s₁, EndsIn host m s (.value a s₁) ∧ EndsIn host (f a) s₁ (.value b s') := by
  rcases (bind_iff hm hf).mp h with ⟨e, s₁, -, heq⟩ | h
  · cases heq
  · exact h

theorem value_iff {t : Term} {env : Env} {r : Outcome Term} :
    EndsIn host (fun ev => ev.value t env) s r ↔
      ∃ r', Evaluates host t env s r' ∧ r = r'.map Prod.fst := map_iff

theorem value_iff_value {t v : Term} {env : Env} :
    EndsIn host (fun ev => ev.value t env) s (.value v s') ↔
      ∃ env', Evaluates host t env s (.value (v, env') s') := by
  rw [value_iff]
  constructor
  · rintro ⟨r', hr', heq⟩
    cases r' with
    | value p s₁ => cases heq; exact ⟨p.2, hr'⟩
    | failure e s₁ => cases heq
    | timeout => cases heq
  · rintro ⟨env', h⟩
    exact ⟨_, h, rfl⟩

theorem value_iff_failure {t : Term} {env : Env} {e : Error} :
    EndsIn host (fun ev => ev.value t env) s (.failure e s') ↔
      Evaluates host t env s (.failure e s') := by
  rw [value_iff]
  constructor
  · rintro ⟨r', hr', heq⟩
    cases r' with
    | failure e s₁ => cases heq; exact hr'
    | value p s₁ => cases heq
    | timeout => cases heq
  · intro h
    exact ⟨_, h, rfl⟩

/-- Terms are evaluated in turn, up to the first that fails. -/
theorem values_cons_iff {t : Term} {ts : List Term} {env : Env} {r : Outcome (List Term)} :
    EndsIn host (fun ev => ev.values env (t :: ts)) s r ↔
      (∃ e s', Evaluates host t env s (.failure e s') ∧ r = .failure e s') ∨
        ∃ v env' s', Evaluates host t env s (.value (v, env') s') ∧
          ∃ r', EndsIn host (fun ev => ev.values env ts) s' r' ∧ r = r'.map (v :: ·) := by
  let rest (v : Term) (ev : Evaluate) : Action (List Term) := do
    let vs ← ev.values env ts
    return v :: vs
  have hrest (v : Term) : Steady (rest v) := (steady_values env ts).bind fun _ => steady_const _
  refine (bind_iff (f := rest) (steady_value t env) hrest).trans (or_congr ?_ ?_)
  · simp only [value_iff_failure]
  · simp only [rest, value_iff_value, map_iff]
    exact ⟨fun ⟨v, s', ⟨env', h⟩, h'⟩ => ⟨v, env', s', h, h'⟩,
      fun ⟨v, env', s', h, h'⟩ => ⟨v, s', ⟨env', h⟩, h'⟩⟩

end EndsIn

/-! ## Agreement -/

/-- Each of the actions ends where the other does, with the same value and state, or with the same
error in the same state but for the forms attached to it. -/
def Agrees {α : Type} (host : Host) (s : State) (m m' : Evaluate → Action α) : Prop :=
  (∀ r, EndsIn host m s r → ∃ r', EndsIn host m' s r' ∧ r.bare = r'.bare) ∧
    ∀ r', EndsIn host m' s r' → ∃ r, EndsIn host m s r ∧ r.bare = r'.bare

theorem bare_eq_value {α : Type} {r : Outcome α} {a : α} {s : State} :
    r.bare = .value a s ↔ r = .value a s := by
  cases r <;> simp [Outcome.bare]

namespace Agrees

variable {α β : Type} {host : Host} {s : State} {m m' m'' : Evaluate → Action α}

theorem refl (m : Evaluate → Action α) : Agrees host s m m :=
  ⟨fun r h => ⟨r, h, rfl⟩, fun r h => ⟨r, h, rfl⟩⟩

theorem symm (h : Agrees host s m m') : Agrees host s m' m :=
  ⟨fun r hr => (h.2 r hr).imp fun _ h' => ⟨h'.1, h'.2.symm⟩,
    fun r hr => (h.1 r hr).imp fun _ h' => ⟨h'.1, h'.2.symm⟩⟩

theorem of_eq (h : ∀ ev, m ev = m' ev) : Agrees host s m m' := by
  obtain rfl : m = m' := funext h
  exact refl m

theorem of_iff (h : ∀ r, EndsIn host m s r ↔ EndsIn host m' s r) : Agrees host s m m' :=
  ⟨fun r hr => ⟨r, (h r).mp hr, rfl⟩, fun r hr => ⟨r, (h r).mpr hr, rfl⟩⟩

theorem trans (h : Agrees host s m m') (h' : Agrees host s m' m'') : Agrees host s m m'' := by
  constructor
  · intro r hr
    obtain ⟨r', hr', heq⟩ := h.1 r hr
    obtain ⟨r'', hr'', heq'⟩ := h'.1 r' hr'
    exact ⟨r'', hr'', heq.trans heq'⟩
  · intro r'' hr''
    obtain ⟨r', hr', heq'⟩ := h'.2 r'' hr''
    obtain ⟨r, hr, heq⟩ := h.2 r' hr'
    exact ⟨r, hr, heq.trans heq'⟩

theorem value (h : Agrees host s m m') {a : α} {s' : State} (hm : EndsIn host m s (.value a s')) :
    EndsIn host m' s (.value a s') := by
  obtain ⟨r', hr', heq⟩ := h.1 _ hm
  rw [bare_eq_value.mp heq.symm] at hr'
  exact hr'

theorem failure (h : Agrees host s m m') {e : Error} {s' : State}
    (hm : EndsIn host m s (.failure e s')) :
    ∃ e', EndsIn host m' s (.failure e' s') ∧ e.bare = e'.bare := by
  obtain ⟨r', hr', heq⟩ := h.1 _ hm
  cases r' with
  | failure e' s₁ =>
    injection heq with he hs
    exact ⟨e', hs ▸ hr', he⟩
  | value a s₁ => cases heq
  | timeout => cases heq

private theorem bind_left {f f' : α → Evaluate → Action β} (hm : Steady m) (hm' : Steady m')
    (hf : ∀ a, Steady (f a)) (hf' : ∀ a, Steady (f' a)) (h : Agrees host s m m')
    (hrest : ∀ a s', EndsIn host m s (.value a s') → Agrees host s' (f a) (f' a)) {r : Outcome β}
    (hr : EndsIn host (fun ev => m ev >>= fun a => f a ev) s r) :
    ∃ r', EndsIn host (fun ev => m' ev >>= fun a => f' a ev) s r' ∧ r.bare = r'.bare := by
  rcases (EndsIn.bind_iff hm hf).mp hr with ⟨e, s', hfail, rfl⟩ | ⟨a, s', hvalue, hthen⟩
  · obtain ⟨e', hfail', he⟩ := h.failure hfail
    exact ⟨_, hfail'.bind_failure, by simp [Outcome.bare, he]⟩
  · obtain ⟨r', hr', heq⟩ := (hrest a s' hvalue).1 r hthen
    exact ⟨r', (h.value hvalue).bind_value hm' hf' hr', heq⟩

/-- Actions in a row agree if they do one by one. -/
theorem bind {f f' : α → Evaluate → Action β} (hm : Steady m) (hm' : Steady m')
    (hf : ∀ a, Steady (f a)) (hf' : ∀ a, Steady (f' a)) (h : Agrees host s m m')
    (hrest : ∀ a s', EndsIn host m s (.value a s') → Agrees host s' (f a) (f' a)) :
    Agrees host s (fun ev => m ev >>= fun a => f a ev) (fun ev => m' ev >>= fun a => f' a ev) := by
  refine ⟨fun r hr => bind_left hm hm' hf hf' h hrest hr, fun r' hr' => ?_⟩
  obtain ⟨r, hr, heq⟩ := bind_left hm' hm hf' hf h.symm
    (fun a s' ha => (hrest a s' (h.symm.value ha)).symm) hr'
  exact ⟨r, hr, heq.symm⟩

/-- Evaluations that agree have values that agree. -/
theorem values {t t' : Term} {env : Env}
    (h : Agrees host s (fun ev => ev t env) (fun ev => ev t' env)) :
    Agrees host s (fun ev => ev.value t env) (fun ev => ev.value t' env) :=
  h.bind (fun _ _ h => h t env) (fun _ _ h => h t' env) (fun _ => steady_const _)
    (fun _ => steady_const _) fun _ _ _ => .refl _

/-- The form that errors are reported in makes no difference. -/
theorem inForm (form : Term) (m : Evaluate → Action α) :
    Agrees host s (fun ev => Action.inForm form (m ev)) m := by
  have hbare (o : Action α) : (Action.inForm form o s).bare = (o s).bare := by
    unfold Action.inForm
    cases o s <;> simp [Outcome.bare]
  have htimeout (o : Action α) : Action.inForm form o s = .timeout ↔ o s = .timeout := by
    unfold Action.inForm
    cases o s <;> simp
  constructor
  · rintro r ⟨hr, fuel, rfl⟩
    exact ⟨_, ⟨fun ht => hr ((htimeout _).mpr ht), fuel, rfl⟩, hbare _⟩
  · rintro r ⟨hr, fuel, rfl⟩
    exact ⟨_, ⟨fun ht => hr ((htimeout _).mp ht), fuel, rfl⟩, hbare _⟩

/-- An action that has a value and changes nothing agrees with the value. -/
theorem of_value (hm : Steady m) {a : α} (h : EndsIn host m s (.value a s)) :
    Agrees host s m (fun _ => pure a) := by
  refine .of_iff fun r => ⟨fun hr => ?_, fun hr => ?_⟩
  · rw [hr.unique hm h]
    exact .pure a
  · rw [hr.unique (steady_const _) (.pure a)]
    exact h

theorem of_evaluates {t v : Term} {env env' : Env}
    (h : Evaluates host t env s (.value (v, env') s)) :
    Agrees host s (fun ev => ev.value t env) (fun _ => pure v) :=
  .of_value (steady_value t env) (EndsIn.value_iff_value.mpr ⟨env', h⟩)

end Agrees

/-! ## Calls of native functions -/

/-- A name bound to a native function that only looks at its arguments. -/
structure State.Calls (s : State) (env : Env) (name : Bytes) (p : Primitive) : Prop where
  bound : s.lookup env name = .ok (.native (.primitive p))
  not_special : SpecialForm.ofName? name = none
  not_constant : constant? name = none

section

variable {host : Host} {s : State} {env : Env} {name : Bytes} {p : Primitive}

theorem State.Calls.macroOf (h : s.Calls env name p) : macroOf? s env (.symbol name) = none := by
  simp only [macroOf?, h.bound]

/-- What is left of a call when its head is known. -/
def callPrimitive (env : Env) (name : Bytes) (p : Primitive) (args : List Term) (ev : Evaluate) :
    Action (Term × Env) :=
  Action.inForm (.list (.symbol name :: args)) do
    let vs ← ev.values env args
    let v ← Action.ofExcept (p.call vs)
    return (v, env)

theorem steady_callPrimitive (args : List Term) : Steady (callPrimitive env name p args) :=
  fun _ _ h => .inForm _ (.bind (values_below h env args) fun _ => .refl _)

theorem run_call (h : s.Calls env name p) (args : List Term) (fuel : Nat) :
    run host (fuel + 2) (Cursor.start (.list (.symbol name :: args)) env) s =
      callPrimitive env name p args (evalWith host (fuel + 1)) s := by
  have hhead : (evalWith host (fuel + 1)).value (.symbol name) env s =
      .value (.native (.primitive p)) s := by
    have hatom : evalAtom env (.symbol name) s = .value (.native (.primitive p)) s := by
      simp only [evalAtom, h.not_constant, Env.get, h.bound]
    rw [Evaluate.value, Action.bind_apply, evalWith, run_succ, step_atom _ _ _ rfl]
    simp only [Cursor.start, hatom]
    rfl
  have hspecial : specialForm? (.symbol name) = none := h.not_special
  rw [run_succ, step_form host _ _ rfl, callPrimitive]
  simp only [Action.inForm, Cursor.start]
  rw [stepForm_apply host _ _ _ h.macroOf hspecial, applyForm, Action.bind_apply]
  simp only [hhead, Action.bind_apply]
  cases (evalWith host (fuel + 1)).values env args s with
  | timeout => rfl
  | failure e s' => rfl
  | value vs s' =>
    simp only [Cursor.call, Builtin.call, Action.bind_apply]
    cases p.call vs with
    | ok v => rfl
    | error e => rfl

/-- Calling a native function is evaluating the arguments and applying it to them. -/
theorem evaluates_call_iff (h : s.Calls env name p) {args : List Term} {r : Outcome (Term × Env)} :
    Evaluates host (.list (.symbol name :: args)) env s r ↔
      EndsIn host (callPrimitive env name p args) s r := by
  constructor
  · rintro ⟨hr, fuel, rfl⟩
    have hle : fuel ≤ fuel + 2 := Nat.le_add_right fuel 2
    refine ⟨hr, fuel + 1, ?_⟩
    rw [← run_call h]
    exact ((run_below host hle _ s).resolve_left hr).symm
  · intro hends
    obtain ⟨least, hleast⟩ := hends.from_fuel (steady_callPrimitive args)
    exact ⟨hends.1, least + 2, (run_call h args least).trans (hleast _ (Nat.le_succ least))⟩

theorem EndsIn.callPrimitive {args vs : List Term} {v : Term} {s' : State}
    (h : EndsIn host (fun ev => ev.values env args) s (.value vs s')) (hcall : p.call vs = .ok v) :
    EndsIn host (SmallLisp.callPrimitive env name p args) s (.value (v, env) s') := by
  obtain ⟨-, fuel, hfuel⟩ := h
  refine ⟨nofun, fuel, ?_⟩
  dsimp only at hfuel
  simp only [SmallLisp.callPrimitive, Action.inForm, Action.bind_apply, hfuel, hcall]
  rfl

/-- The value of a call agrees with the function applied to the values of the arguments. -/
theorem Agrees.call (h : s.Calls env name p) (args : List Term) :
    Agrees host s (fun ev => ev.value (.list (.symbol name :: args)) env)
      (fun ev => ev.values env args >>= fun vs => Action.ofExcept (p.call vs)) := by
  let form : Term := .list (.symbol name :: args)
  let body (ev : Evaluate) : Action (Term × Env) := do
    let vs ← ev.values env args
    let v ← Action.ofExcept (p.call vs)
    return (v, env)
  have hform : Agrees host s (fun ev => ev form env) (callPrimitive env name p args) :=
    .of_iff fun _ => evaluates_call_iff h
  have hcall : Agrees host s (fun ev => ev form env) body := hform.trans (.inForm form body)
  have hvalue : Agrees host s (fun ev => ev form env >>= fun q => pure q.1)
      (fun ev => body ev >>= fun q => pure q.1) :=
    hcall.bind (fun _ _ h => h form env) (.bind (steady_values env args) fun _ => steady_const _)
      (fun _ => steady_const _) (fun _ => steady_const _) fun _ _ _ => .refl _
  refine hvalue.trans (.of_eq fun ev => ?_)
  simp only [body, bind_assoc, pure_bind, bind_pure]

/-- The second argument is evaluated after the first. -/
theorem Agrees.call_two (h : s.Calls env name p) (t u : Term) :
    Agrees host s (fun ev => ev.value (.list [.symbol name, t, u]) env)
      (fun ev => ev.value t env >>= fun v => ev.value u env >>= fun w =>
        Action.ofExcept (p.call [v, w])) := by
  refine (Agrees.call h [t, u]).trans (.of_eq fun ev => ?_)
  simp only [Evaluate.values, bind_assoc, pure_bind]

end

end SmallLisp

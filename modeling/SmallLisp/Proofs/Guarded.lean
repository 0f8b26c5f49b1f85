import SmallLisp.Proofs.InnerFunctions
import SmallLisp.Proofs.Nesting

/-! What evaluation keeps. A discipline is a condition on states, on the functions in the terms of a
state and on environments, which every change that the evaluator makes keeps (`Discipline`). An
action is guarded if, from a state that meets the condition, it asks only for evaluations that meet
it themselves and ends in such a state, with a result that meets it there. -/
namespace SmallLisp

/-! ## Conditions on states -/

/-- A condition on states, with what it asks of functions and environments. That depends on how much
there is in a state, its extent, which grows. -/
structure Condition (E : Type) where
  extent : State → E
  Covers (later earlier : E) : Prop
  Holds (s : State) : Prop
  Function (w : E) (f : Closure Term) : Prop
  Scope (w : E) (env : Env) : Prop

namespace Condition

variable {E : Type} (D : Condition E)

abbrev Admits (w : E) (t : Term) : Prop := t.Functions (D.Function w)

abbrev AdmitsAll (w : E) (ts : List Term) : Prop := ∀ t ∈ ts, D.Admits w t

/-- The later state meets the condition and has the extent of the earlier one or more. -/
structure Follows (s' s : State) : Prop where
  holds : D.Holds s'
  covers : D.Covers (D.extent s') (D.extent s)

end Condition

/-- A condition that all changes of a state keep, those with values and in environments that meet
it. -/
structure Discipline (E : Type) extends Condition E where
  refl (w : E) : Covers w w
  trans {w₁ w₂ w₃ : E} (h : Covers w₂ w₁) (h' : Covers w₃ w₂) : Covers w₃ w₁
  function_mono {w w' : E} (hw : Covers w' w) {f : Closure Term} (h : Function w f) :
    Function w' f
  scope_mono {w w' : E} (hw : Covers w' w) {env : Env} (h : Scope w env) : Scope w' env
  /-- What a name is bound to. -/
  lookup {s : State} (hs : Holds s) {env : Env} (henv : Scope (extent s) env) {name : Bytes}
    {v : Term} (hv : s.lookup env name = .ok v) : toCondition.Admits (extent s) v
  /-- Counters, directories and the log do not matter. -/
  holds_of_eq {s s' : State} (hs : Holds s) (hns : s'.namespaces = s.namespaces)
    (hframes : s'.frames = s.frames) : Holds s'
  extent_of_eq {s s' : State} (hns : s'.namespaces = s.namespaces)
    (hframes : s'.frames = s.frames) : extent s' = extent s
  require {s : State} (hs : Holds s) (name : Bytes) : toCondition.Follows (s.require name) s
  scope_require {s : State} (hs : Holds s) {env : Env} (henv : Scope (extent s) env)
    (name : Bytes) : Scope (extent (s.require name)) { env with ns := name }
  bindRoot {s : State} (hs : Holds s) (ns name : Bytes) {v : Term}
    (hv : toCondition.Admits (extent s) v) : toCondition.Follows (s.bindRoot ns name v) s
  addImport {s : State} (hs : Holds s) (ns other : Bytes) :
    toCondition.Follows ((s.require other).addImport ns other) s
  addAlias {s : State} (hs : Holds s) (ns short target : Bytes) :
    toCondition.Follows ((s.require target).addAlias ns short target) s
  addFrame {s : State} (hs : Holds s) {frame : Table Term}
    (hframe : ∀ x v, frame.get? x = some v → toCondition.Admits (extent s) v) :
    toCondition.Follows (s.addFrame frame) s
  scope_addFrame {s : State} (hs : Holds s) (frame : Table Term) {env : Env}
    (henv : Scope (extent s) env) :
    Scope (extent (s.addFrame frame)) ⟨s.frames.size :: env.frames, env.ns⟩
  /-- A name may be bound in a frame of an environment. -/
  define {s : State} (hs : Holds s) {env : Env} (henv : Scope (extent s) env) {i : Nat}
    (hi : i ∈ env.frames) (name : Bytes) {v : Term} (hv : toCondition.Admits (extent s) v) :
    toCondition.Follows (s.define i name v) s
  /-- A new function is defined in the namespace of the environment that it captures. -/
  function_new {w : E} {env : Env} (henv : Scope w env) (id : Nat) (doc : Bytes)
    (params : List Bytes) (rest : Option Bytes) (body : List Term) :
    Function w ⟨id, false, doc, env.ns, params, rest, body, env⟩
  /-- A macro is a copy of a function. -/
  function_copy {w : E} {f : Closure Term} (h : Function w f) (id : Nat) :
    Function w { f with id := id, isMacro := true }
  scope_inside {w : E} {f : Closure Term} (h : Function w f) : Scope w ⟨f.env.frames, f.home⟩

namespace Discipline

variable {E : Type} (D : Discipline E)

/-- An evaluation from a state that meets the condition, of a form and in an environment that do. -/
structure Asks (q : Query) : Prop where
  state : D.Holds q.state
  form : D.Admits (D.extent q.state) q.form
  env : D.Scope (D.extent q.state) q.env

/-- The outcome of an action that began in `s`: the state follows `s`, the value is as it should be
and the forms attached to an error meet the condition. -/
def Ends {α : Type} (Q : E → α → Prop) (s : State) : Outcome α → Prop
  | .value a s' => D.Follows s' s ∧ Q (D.extent s') a
  | .failure e s' => D.Follows s' s ∧ D.AdmitsAll (D.extent s') e.forms
  | .timeout => True

def Result (w : E) (p : Term × Env) : Prop := D.Admits w p.1 ∧ D.Scope w p.2

def Observes (ev : Evaluate) : Prop :=
  ∀ q : Query, D.Asks q → D.Ends D.Result q.state (ev.outcome q)

variable {D} {w w' : E}

theorem follows_refl {s : State} (hs : D.Holds s) : D.Follows s s := ⟨hs, D.refl _⟩

theorem follows_trans {s₁ s₂ s₃ : State} (h : D.Follows s₂ s₁) (h' : D.Follows s₃ s₂) :
    D.Follows s₃ s₁ := ⟨h'.holds, D.trans h.covers h'.covers⟩

theorem follows_of_eq {s s' : State} (hs : D.Holds s) (hns : s'.namespaces = s.namespaces)
    (hframes : s'.frames = s.frames) : D.Follows s' s := by
  refine ⟨D.holds_of_eq hs hns hframes, ?_⟩
  rw [D.extent_of_eq hns hframes]
  exact D.refl _

theorem admits_mono (hw : D.Covers w' w) {t : Term} (h : D.Admits w t) : D.Admits w' t :=
  Term.Functions.mono (fun _ => D.function_mono hw) h

theorem admits_all_mono (hw : D.Covers w' w) {ts : List Term} (h : D.AdmitsAll w ts) :
    D.AdmitsAll w' ts := fun t ht => admits_mono hw (h t ht)

theorem Ends.after {α : Type} {Q : E → α → Prop} {s₁ s₂ : State} {o : Outcome α}
    (h : D.Follows s₂ s₁) (ho : D.Ends Q s₂ o) : D.Ends Q s₁ o := by
  cases o with
  | value a s => exact ⟨follows_trans h ho.1, ho.2⟩
  | failure e s => exact ⟨follows_trans h ho.1, ho.2⟩
  | timeout => trivial

theorem Ends.imp {α : Type} {Q Q' : E → α → Prop} {s : State} {o : Outcome α}
    (h : ∀ w a, Q w a → Q' w a) (ho : D.Ends Q s o) : D.Ends Q' s o := by
  cases o with
  | value a s' => exact ⟨ho.1, h _ a ho.2⟩
  | failure e s' => exact ho
  | timeout => trivial

/-- The macro that a name is bound to meets the condition. -/
theorem macroOf_admits {s : State} (hs : D.Holds s) {env : Env}
    (henv : D.Scope (D.extent s) env) {head : Term} {m : Closure Term}
    (h : macroOf? s env head = some m) : D.Admits (D.extent s) (.closure m) := by
  unfold macroOf? at h
  split at h
  case h_1 name =>
    split at h
    case h_1 f hf =>
      split at h
      · cases h
        exact D.lookup hs henv hf
      · cases h
    case h_2 => cases h
  case h_2 => cases h

end Discipline

/-! ## Guarded actions -/

abbrev Anything {E α : Type} (_ : E) (_ : α) : Prop := True

/-- From states of extent `w` that meet the condition, the action has results with the property `Q`,
and other evaluations than those that meet it do not matter to it. -/
structure Guarded {E α : Type} (D : Discipline E) (w : E) (Q : E → α → Prop)
    (m : Evaluate → Action α) : Prop where
  follows {s : State} {ev : Evaluate} (hs : D.Holds s) (hw : D.extent s = w)
    (hev : D.Observes ev) : D.Ends Q s (m ev s)
  same {s : State} {ev ev' : Evaluate} (hs : D.Holds s) (hw : D.extent s = w)
    (hev : D.Observes ev) (h : ∀ q : Query, D.Asks q → ev'.outcome q = ev.outcome q) :
    m ev' s = m ev s

namespace Guarded

variable {E α β : Type} {D : Discipline E} {w : E} {Q : E → α → Prop}

/-- What looks at the state and not at evaluations. -/
theorem inspect {f : State → Except Error α} (hf : ∀ s, Plain (f s))
    (h : ∀ s : State, D.Holds s → D.extent s = w → Yields (Q w) (f s)) :
    Guarded D w Q fun _ => Action.inspect f where
  follows {s _} hs hw _ := by
    unfold Action.inspect
    split
    case h_1 a ha =>
      refine ⟨Discipline.follows_refl hs, ?_⟩
      rw [hw]
      exact h s hs hw a ha
    case h_2 e he =>
      refine ⟨Discipline.follows_refl hs, ?_⟩
      rw [hf s e he]
      exact List.forall_mem_nil _
  same _ _ _ _ := rfl

theorem pure {a : α} (h : Q w a) : Guarded D w Q fun _ => (Pure.pure a : Action α) :=
  .inspect (f := fun _ => .ok a) (fun _ => .ok a) fun _ _ _ => .ok h

theorem fail {e : Error} (he : e.forms = []) :
    Guarded D w Q fun _ => (Action.fail e : Action α) :=
  .inspect (f := fun _ => .error e) (fun _ => .error he) fun _ _ _ => .error e

theorem complain (c : Complaint) : Guarded D w Q fun _ => (Action.complain c : Action α) :=
  fail rfl

theorem fault (f : RuntimeFault) : Guarded D w Q fun _ => (Action.fault f : Action α) := fail rfl

theorem timeout : Guarded D w Q fun _ => (Action.timeout : Action α) where
  follows _ _ _ := trivial
  same _ _ _ _ := rfl

theorem read {f : State → α} (h : ∀ s : State, D.Holds s → D.extent s = w → Q w (f s)) :
    Guarded D w Q fun _ => Action.read f :=
  .inspect (f := fun s => .ok (f s)) (fun _ => .ok _) fun s hs hw => .ok (h s hs hw)

theorem look (f : State → α) : Guarded D w Anything fun _ => Action.read f :=
  .read fun _ _ _ => trivial

theorem ofExcept {res : Except Error α} (hplain : Plain res) (h : Yields (Q w) res) :
    Guarded D w Q fun _ => Action.ofExcept res := by
  cases res with
  | ok a => exact pure (h a rfl)
  | error e => exact fail (hplain e rfl)

theorem check {res : Except Error α} (hplain : Plain res) :
    Guarded D w Anything fun _ => Action.ofExcept res := .ofExcept hplain (.any res)

/-- The value of a name. -/
theorem get {env : Env} (henv : D.Scope w env) (name : Bytes) :
    Guarded D w D.Admits fun _ => env.get name := by
  rw [get_eq_inspect]
  refine .inspect (fun s => found_plain s env name) fun s hs hw => ?_
  subst hw
  unfold State.found
  cases hv : s.lookup env name with
  | ok v => exact .ok (D.lookup hs henv hv)
  | error f => exact .error _

theorem update {Q : E → Unit → Prop} {f : State → State}
    (h : ∀ s : State, D.Holds s → D.extent s = w →
      D.Follows (f s) s ∧ Q (D.extent (f s)) ()) :
    Guarded D w Q fun _ => Action.update f where
  follows {s _} hs hw _ := h s hs hw
  same _ _ _ _ := rfl

theorem change {f : State → State}
    (h : ∀ s : State, D.Holds s → D.extent s = w → D.Follows (f s) s) :
    Guarded D w Anything fun _ => Action.update f := .update fun s hs hw => ⟨h s hs hw, trivial⟩

/-- Counters, directories and the log may change freely. -/
theorem tick {f : State → State} (hns : ∀ s, (f s).namespaces = s.namespaces)
    (hframes : ∀ s, (f s).frames = s.frames) : Guarded D w Anything fun _ => Action.update f :=
  .change fun s hs _ => Discipline.follows_of_eq hs (hns s) (hframes s)

theorem define {env : Env} (henv : D.Scope w env) {i : Nat} (hi : i ∈ env.frames) (name : Bytes)
    {v : Term} (hv : D.Admits w v) :
    Guarded D w Anything fun _ => Action.update fun s => s.define i name v :=
  .change fun _ hs hw => D.define hs (hw ▸ henv) hi name (hw ▸ hv)

theorem bindRoot (ns name : Bytes) {v : Term} (hv : D.Admits w v) :
    Guarded D w Anything fun _ => Action.update fun s => s.bindRoot ns name v :=
  .change fun _ hs hw => D.bindRoot hs ns name (hw ▸ hv)

theorem eval {t : Term} {env : Env} (ht : D.Admits w t) (henv : D.Scope w env) :
    Guarded D w D.Result fun ev => ev t env where
  follows {s _} hs hw hev := hev ⟨t, env, s⟩ ⟨hs, hw ▸ ht, hw ▸ henv⟩
  same {s _ _} hs hw _ h := h ⟨t, env, s⟩ ⟨hs, hw ▸ ht, hw ▸ henv⟩

theorem bind {Q' : E → β → Prop} {m : Evaluate → Action α} {f : α → Evaluate → Action β}
    (hm : Guarded D w Q m)
    (hf : ∀ (w' : E) (a : α), D.Covers w' w → Q w' a → Guarded D w' Q' (f a)) :
    Guarded D w Q' fun ev => m ev >>= fun a => f a ev where
  follows {s ev} hs hw hev := by
    have hfirst := hm.follows hs hw hev
    rw [Action.bind_apply]
    cases hv : m ev s with
    | value a s₁ =>
      rw [hv] at hfirst
      obtain ⟨hs₁, ha⟩ := hfirst
      exact ((hf _ a (hw ▸ hs₁.covers) ha).follows hs₁.holds rfl hev).after hs₁
    | failure e s₁ =>
      rw [hv] at hfirst
      exact hfirst
    | timeout => trivial
  same {s ev ev'} hs hw hev h := by
    have hfirst := hm.follows hs hw hev
    rw [Action.bind_apply, Action.bind_apply, hm.same hs hw hev h]
    cases hv : m ev s with
    | value a s₁ =>
      rw [hv] at hfirst
      obtain ⟨hs₁, ha⟩ := hfirst
      exact (hf _ a (hw ▸ hs₁.covers) ha).same hs₁.holds rfl hev h
    | failure e s₁ => rfl
    | timeout => rfl

/-- A new frame of values that meet the condition, on top of an environment. -/
theorem extend {frame : Table Term} (hframe : ∀ x v, frame.get? x = some v → D.Admits w v)
    {frames : List Nat} {ns : Bytes} (henv : D.Scope w ⟨frames, ns⟩) :
    Guarded D w (fun w env => D.Scope w env ∧ env.frames.headD 0 ∈ env.frames)
      fun _ => Env.extend frame frames ns where
  follows {s _} hs hw _ := by
    subst hw
    exact ⟨D.addFrame hs hframe, D.scope_addFrame hs frame henv, List.mem_cons_self⟩
  same _ _ _ _ := rfl

theorem inForm {m : Evaluate → Action α} {form : Term} (hform : D.Admits w form)
    (hm : Guarded D w Q m) : Guarded D w Q fun ev => Action.inForm form (m ev) where
  follows {s ev} hs hw hev := by
    have hfollows := hm.follows hs hw hev
    unfold Action.inForm
    split
    case h_1 e s₁ heq =>
      rw [heq] at hfollows
      obtain ⟨hs₁, he⟩ := hfollows
      refine ⟨hs₁, ?_⟩
      unfold Error.withForm
      split
      · exact List.forall_mem_cons.mpr
          ⟨Discipline.admits_mono (hw ▸ hs₁.covers) hform, he⟩
      · exact he
    case h_2 => exact hfollows
  same {s ev ev'} hs hw hev h := by
    unfold Action.inForm
    rw [hm.same hs hw hev h]

theorem inDirectory {m : Evaluate → Action α} (dir : Bytes) (hm : Guarded D w Q m) :
    Guarded D w Q fun ev => Action.inDirectory dir (m ev) where
  follows {s ev} hs hw hev := by
    have henter : D.Follows (Action.enterDirectory dir s) s := Discipline.follows_of_eq hs rfl rfl
    have hextent : D.extent (Action.enterDirectory dir s) = D.extent s := D.extent_of_eq rfl rfl
    have hleave {s' : State} (h : D.Follows s' (Action.enterDirectory dir s)) :
        D.Follows (Action.leaveDirectory s') s :=
      Discipline.follows_trans henter
        (Discipline.follows_trans h (Discipline.follows_of_eq h.holds rfl rfl))
    have hleft (s' : State) : D.extent (Action.leaveDirectory s') = D.extent s' :=
      D.extent_of_eq rfl rfl
    have hfollows := hm.follows henter.holds (hextent.trans hw) hev
    unfold Action.inDirectory
    split
    case h_1 a s₁ heq =>
      rw [heq] at hfollows
      refine ⟨hleave hfollows.1, ?_⟩
      rw [hleft]
      exact hfollows.2
    case h_2 e s₁ heq =>
      rw [heq] at hfollows
      refine ⟨hleave hfollows.1, ?_⟩
      rw [hleft]
      exact hfollows.2
    case h_3 => trivial
  same {s ev ev'} hs hw hev h := by
    have hextent : D.extent (Action.enterDirectory dir s) = D.extent s := D.extent_of_eq rfl rfl
    have hs' : D.Holds (Action.enterDirectory dir s) := D.holds_of_eq hs rfl rfl
    unfold Action.inDirectory
    rw [hm.same hs' (hextent.trans hw) hev h]

/-- An evaluation that a guarded action begins meets the condition: without any other one the action
would end as it does. -/
theorem begins {m : Evaluate → Action α} (hm : Guarded D w Q m) {s : State} (hs : D.Holds s)
    (hw : D.extent s = w) {ev : Evaluate} (hev : D.Observes ev) {q : Query}
    (h : Begins m ev s q) : D.Asks q := by
  refine Classical.byContradiction fun hq => ?_
  -- `q` is none of the evaluations that matter, so the action does not miss it
  have hwithout : ∀ q' : Query, D.Asks q' → (ev.without q).outcome q' = ev.outcome q' := by
    intro q' hq'
    have hne : q' ≠ q := by
      rintro rfl
      exact hq hq'
    simp only [Evaluate.outcome, Evaluate.without]
    rw [if_neg hne]
  obtain ⟨hends, htimeout⟩ := h
  rw [hm.same hs hw hev hwithout] at htimeout
  exact hends htimeout

end Guarded

end SmallLisp

import SmallLisp.Proofs.Effects
import SmallLisp.Proofs.NamespaceSwitch

/-! Evaluations inside of evaluations. An action makes an evaluation on its way if it would not end
without it (`Begins`); the loop of an evaluation comes to all cursors that it and the loops of the
evaluations inside of it pass (`Comes`). A relation between earlier and later states that every
change of state keeps is kept by whole evaluations (`Law.run`), and an error with a form attached is
the error of all evaluations around it (`Comes.failure`). -/
namespace SmallLisp

def Outcome.state? {α : Type} : Outcome α → Option State
  | .value _ s => some s
  | .failure _ s => some s
  | .timeout => none

theorem inForm_state {α : Type} (form : Term) (m : Action α) (s : State) :
    (Action.inForm form m s).state? = (m s).state? := by
  unfold Action.inForm
  cases m s <;> rfl

theorem inDirectory_state {α : Type} (dir : Bytes) (m : Action α) (s : State) :
    (Action.inDirectory dir m s).state? =
      (m (Action.enterDirectory dir s)).state?.map Action.leaveDirectory := by
  unfold Action.inDirectory
  cases m (Action.enterDirectory dir s) <;> rfl

theorem ne_timeout_of_state {α : Type} {o : Outcome α} {s : State} (h : o.state? = some s) :
    o ≠ .timeout := by
  rintro rfl
  cases h

theorem state_of_ne_timeout {α : Type} {o : Outcome α} (h : o ≠ .timeout) :
    ∃ s, o.state? = some s := by
  cases o with
  | value a s => exact ⟨s, rfl⟩
  | failure e s => exact ⟨s, rfl⟩
  | timeout => exact absurd rfl h

structure Query where
  form : Term
  env : Env
  state : State

def Evaluate.outcome (ev : Evaluate) (q : Query) : Outcome (Term × Env) := ev q.form q.env q.state

open Classical in
/-- Evaluation that does not end at `q`, and ends as before everywhere else. -/
noncomputable def Evaluate.without (ev : Evaluate) (q : Query) : Evaluate := fun t env s =>
  if (⟨t, env, s⟩ : Query) = q then .timeout else ev t env s

/-- The action makes the evaluation `q` on its way: it ends, and it does not without `q`. -/
def Begins {α : Type} (m : Evaluate → Action α) (ev : Evaluate) (s : State) (q : Query) : Prop :=
  m ev s ≠ .timeout ∧ m (ev.without q) s = .timeout

theorem without_below (ev : Evaluate) (q : Query) : (ev.without q).Below ev := by
  intro t env s
  unfold Evaluate.without
  split
  · exact .inl rfl
  · exact .inr rfl

theorem Composed.mono {assigns : Bool} {own : List Nat} {α : Type} {m : Evaluate → Action α}
    (h : Composed assigns own m) {ev ev' : Evaluate} (hev : ev.Below ev') :
    (m ev).Below (m ev') := by
  induction h with
  | eval t env => exact hev t env
  | bind _ _ ihm ihf => exact .bind ihm ihf
  | extend frame frames ns _ ih =>
    intro s
    exact ih s.frames.size (s.addFrame frame)
  | inForm _ _ ih => exact .inForm _ ih
  | inDirectory dir _ ih => exact .inDirectory dir ih
  | _ => exact .refl _

/-! ## What an action begins -/

namespace Begins

variable {assigns : Bool} {own : List Nat} {α β : Type} {m : Evaluate → Action α}
  {f : α → Evaluate → Action β} {ev : Evaluate} {s : State} {q : Query}

/-- The evaluation that is made ends. -/
theorem outcome_ne_timeout (h : Begins m ev s q) : ev.outcome q ≠ .timeout := by
  intro hq
  have hsame : ev.without q = ev := by
    funext t env s
    unfold Evaluate.without
    split
    case isTrue heq =>
      subst heq
      exact hq.symm
    case isFalse => rfl
  obtain ⟨hends, hwithout⟩ := h
  rw [hsame] at hwithout
  exact hends hwithout

theorem not_const {m : Action α} : ¬ Begins (fun _ => m) ev s q := fun h => h.1 h.2

theorem congr {m' : Evaluate → Action α} (h : ∀ ev, m ev s = m' ev s) :
    Begins m ev s q ↔ Begins m' ev s q := by
  simp only [Begins, h]

theorem eval_iff {t : Term} {env : Env} :
    Begins (fun ev => ev t env) ev s q ↔ q = ⟨t, env, s⟩ ∧ ev t env s ≠ .timeout := by
  constructor
  · rintro ⟨hends, hwithout⟩
    simp only [Evaluate.without] at hwithout
    split at hwithout
    case isTrue heq => exact ⟨heq.symm, hends⟩
    case isFalse => exact absurd hwithout hends
  · rintro ⟨rfl, hends⟩
    exact ⟨hends, by simp [Evaluate.without]⟩

/-- What is begun first in a row of two actions is begun by the row, if that ends. -/
theorem bind_left (h : Begins m ev s q) (hends : (m ev >>= fun a => f a ev) s ≠ .timeout) :
    Begins (fun ev => m ev >>= fun a => f a ev) ev s q := by
  refine ⟨hends, ?_⟩
  dsimp only
  rw [Action.bind_apply, h.2]

theorem bind_right (hm : Composed assigns own m) {a : α} {s₁ : State} (hv : m ev s = .value a s₁)
    (h : Begins (f a) ev s₁ q) : Begins (fun ev => m ev >>= fun a => f a ev) ev s q := by
  constructor
  · dsimp only
    rw [Action.bind_apply, hv]
    exact h.1
  · -- without `q` the first action does not end, or it ends as before
    dsimp only
    rw [Action.bind_apply]
    rcases hm.mono (without_below ev q) s with hcut | hsame
    · rw [hcut]
    · rw [hsame, hv]
      exact h.2

theorem of_bind (hm : Composed assigns own m)
    (h : Begins (fun ev => m ev >>= fun a => f a ev) ev s q) :
    Begins m ev s q ∨ ∃ a s₁, m ev s = .value a s₁ ∧ Begins (f a) ev s₁ q := by
  obtain ⟨hends, hwithout⟩ := h
  dsimp only at hends hwithout
  rw [Action.bind_apply] at hends hwithout
  rcases hm.mono (without_below ev q) s with hcut | hsame
  · refine .inl ⟨?_, hcut⟩
    intro ht
    rw [ht] at hends
    exact hends rfl
  · rw [hsame] at hwithout
    cases hv : m ev s with
    | value a s₁ =>
      rw [hv] at hends hwithout
      exact .inr ⟨a, s₁, rfl, hends, hwithout⟩
    | failure e s₁ => rw [hv] at hwithout; cases hwithout
    | timeout => rw [hv] at hends; exact absurd rfl hends

theorem inForm_iff {form : Term} :
    Begins (fun ev => Action.inForm form (m ev)) ev s q ↔ Begins m ev s q := by
  have htimeout (o : Action α) : Action.inForm form o s = .timeout ↔ o s = .timeout := by
    unfold Action.inForm
    cases o s <;> simp
  simp only [Begins, ne_eq, htimeout]

theorem inDirectory_iff {dir : Bytes} :
    Begins (fun ev => Action.inDirectory dir (m ev)) ev s q ↔
      Begins m ev (Action.enterDirectory dir s) q := by
  have htimeout (o : Action α) : Action.inDirectory dir o s = .timeout ↔
      o (Action.enterDirectory dir s) = .timeout := by
    unfold Action.inDirectory
    cases o (Action.enterDirectory dir s) <;> simp
  simp only [Begins, ne_eq, htimeout]

end Begins

/-! ## Laws -/

/-- A relation between earlier and later states that every change of state keeps. What is bound in a
frame that was not there in the earlier state does not count, and a directory counts when it is
taken off again. -/
structure Law (R : State → State → Prop) : Prop where
  refl (s : State) : R s s
  trans {s₁ s₂ s₃ : State} : R s₁ s₂ → R s₂ s₃ → R s₁ s₃
  grows {s s' : State} : R s s' → s.frames.size ≤ s'.frames.size
  change {s s' : State} : Change s s' → R s s'
  addFrame (s : State) (frame : Table Term) : R s (s.addFrame frame)
  fill {s s' : State} {i : Nat} (name : Bytes) (v : Term) :
    s.frames.size ≤ i → R s s' → R s (s'.define i name v)
  directory {s s' : State} (dir : Bytes) :
    R (Action.enterDirectory dir s) s' → R s (Action.leaveDirectory s')

namespace Law

variable {R : State → State → Prop} {own : List Nat} {α : Type} {m : Evaluate → Action α}
  {ev : Evaluate}

theorem inspect (hR : Law R) (f : State → Except Error α) {s s' : State}
    (h : (Action.inspect f s).state? = some s') : R s s' := by
  unfold Action.inspect at h
  split at h <;> cases h <;> exact hR.refl s

/-- A frame that is made now was not there before. -/
theorem own_cons (hR : Law R) {s₀ s : State} (hs : R s₀ s)
    (hown : ∀ i ∈ own, s₀.frames.size ≤ i) : ∀ i ∈ s.frames.size :: own, s₀.frames.size ≤ i := by
  intro i hi
  rcases List.mem_cons.mp hi with rfl | hi
  · exact hR.grows hs
  · exact hown i hi

/-- An action without assignments keeps a law that the evaluations on its way keep. -/
theorem keeps (hR : Law R) (h : Composed false own m) {s₀ s s' : State} (hs : R s₀ s)
    (hown : ∀ i ∈ own, s₀.frames.size ≤ i)
    (hq : ∀ q s₁, Begins m ev s q → (ev.outcome q).state? = some s₁ → R q.state s₁)
    (hend : (m ev s).state? = some s') : R s₀ s' := by
  induction h generalizing s₀ s s' with
  | inspect f _ => exact hR.trans hs (hR.inspect f hend)
  | timeout => cases hend
  | change f hf =>
    cases hend
    exact hR.trans hs (hR.change (hf s))
  | define hi name v =>
    cases hend
    exact hR.fill name v (hown _ hi) hs
  | assign ha => cases ha
  | eval t env =>
    have hbegins := Begins.eval_iff.mpr ⟨rfl, ne_timeout_of_state hend⟩
    exact hR.trans hs (hq ⟨t, env, s⟩ s' hbegins hend)
  | @bind own α β m f hm hf ihm ihf =>
    have hne : (m ev >>= fun a => f a ev) s ≠ .timeout := ne_timeout_of_state hend
    have hleft : ∀ q s₁, Begins m ev s q → (ev.outcome q).state? = some s₁ → R q.state s₁ :=
      fun q s₁ hb => hq q s₁ (hb.bind_left hne)
    dsimp only at hend
    rw [Action.bind_apply] at hend
    cases hv : m ev s with
    | timeout =>
      rw [hv] at hend
      cases hend
    | failure e s₁ =>
      rw [hv] at hend
      exact ihm hs hown hleft (by rw [hv]; exact hend)
    | value a s₁ =>
      rw [hv] at hend
      have hfirst : R s₀ s₁ := ihm hs hown hleft (by rw [hv]; rfl)
      exact ihf a hfirst hown (fun q s₂ hb => hq q s₂ (hb.bind_right hm hv)) hend
  | extend frame frames ns _ ih =>
    have hframe : R s₀ (s.addFrame frame) := hR.trans hs (hR.addFrame s frame)
    exact ih s.frames.size hframe (hR.own_cons hs hown) hq hend
  | inForm _ _ ih =>
    rw [inForm_state] at hend
    exact ih hs hown (fun q s₁ hb => hq q s₁ (Begins.inForm_iff.mpr hb)) hend
  | inDirectory dir _ ih =>
    rw [inDirectory_state] at hend
    obtain ⟨s₁, hinside, rfl⟩ := Option.map_eq_some_iff.mp hend
    -- inside of the directory the law starts anew, and no frame there is the action's own
    refine hR.trans hs (hR.directory dir (ih (hR.refl _) nofun ?_ hinside))
    exact fun q s₂ hb => hq q s₂ (Begins.inDirectory_iff.mpr hb)

/-- If all evaluations keep the law then so does the way to each that an action begins. -/
theorem begun (hR : Law R) (henter : ∀ s dir, R s (Action.enterDirectory dir s))
    (h : Composed false own m) {s₀ s : State} {q : Query} (hs : R s₀ s)
    (hown : ∀ i ∈ own, s₀.frames.size ≤ i)
    (hev : ∀ q s₁, (ev.outcome q).state? = some s₁ → R q.state s₁) (hq : Begins m ev s q) :
    R s₀ q.state := by
  induction h generalizing s₀ s with
  | eval t env =>
    obtain ⟨rfl, -⟩ := Begins.eval_iff.mp hq
    exact hs
  | bind hm _ ihm ihf =>
    rcases hq.of_bind hm with hq | ⟨a, s₁, hv, hq⟩
    · exact ihm hs hown hq
    · have hfirst : R s₀ s₁ := hR.keeps hm hs hown (fun q s₂ _ => hev q s₂) (by rw [hv]; rfl)
      exact ihf a hfirst hown hq
  | extend frame frames ns _ ih =>
    have hframe : R s₀ (s.addFrame frame) := hR.trans hs (hR.addFrame s frame)
    exact ih s.frames.size hframe (hR.own_cons hs hown) hq
  | inForm _ _ ih => exact ih hs hown (Begins.inForm_iff.mp hq)
  | inDirectory dir _ ih =>
    exact ih (hR.trans hs (henter s dir)) nofun (Begins.inDirectory_iff.mp hq)
  | _ => exact absurd hq Begins.not_const

end Law

/-! ## Where a loop comes to -/

/-- The step of the loop at `c` begins the evaluation `q`. -/
def StepBegins (host : Host) (c : Cursor) (s : State) (q : Query) : Prop :=
  ∃ fuel, Begins (fun ev => step host ev fuel c) (evalWith host fuel) s q

/-- The loop at `c` comes to the cursor `d`, itself or in a loop inside of it. -/
inductive Comes (host : Host) (c : Cursor) (s : State) : Cursor → State → Prop
  | here : Comes host c s c s
  | next {d d' : Cursor} {s₁ s₂ : State} (h : Comes host c s d s₁)
      (hstep : TailStep host d s₁ d' s₂) : Comes host c s d' s₂
  | inside {d : Cursor} {s₁ : State} {q : Query} (h : Comes host c s d s₁)
      (hq : StepBegins host d s₁ q) : Comes host c s (Cursor.start q.form q.env) q.state

theorem Comes.trans {host : Host} {c d d' : Cursor} {s s₁ s₂ : State} (h : Comes host c s d s₁)
    (h' : Comes host d s₁ d' s₂) : Comes host c s d' s₂ := by
  induction h' with
  | here => exact h
  | next _ hstep ih => exact .next ih hstep
  | inside _ hq ih => exact .inside ih hq

def Cursor.Sound (c : Cursor) : Prop := c.Coherent ∧ c.Proper

theorem start_sound (form : Term) (env : Env) : (Cursor.start form env).Sound :=
  ⟨Cursor.start_coherent form env, nofun⟩

theorem TailStep.sound {host : Host} {c d : Cursor} {s s' : State} (h : TailStep host c s d s')
    (hc : c.Sound) : d.Sound := by
  obtain ⟨hd, hlast, -⟩ := tailStep_cursor hc.1 h
  refine ⟨hd, fun last heq => ?_⟩
  rw [hlast] at heq
  cases heq
  cases hf : c.form.isForm with
  | true => rfl
  | false =>
    -- an atom ends the loop
    obtain ⟨fuel, hstep⟩ := h
    rw [step_atom _ _ _ hf] at hstep
    split at hstep <;> cases hstep

theorem Comes.sound {host : Host} {c d : Cursor} {s s' : State} (h : Comes host c s d s')
    (hc : c.Sound) : d.Sound := by
  induction h with
  | here => exact hc
  | next _ hstep ih => exact hstep.sound ih
  | inside _ _ _ => exact start_sound _ _

/-- At the cursor `c` a `set!` of `name` is evaluated: its value is `v`, the state is then `s'`, and
`i` is the innermost frame that binds the name. -/
def Assigns (host : Host) (c : Cursor) (s : State) (i : Nat) (name : Bytes) (v : Term)
    (s' : State) : Prop :=
  ∃ value env, AtAssignment c s name value ∧ Evaluates host value c.env s (.value (v, env) s') ∧
    s'.find? c.env name = some i

theorem Assigns.found {host : Host} {c : Cursor} {s s' : State} {i : Nat} {name : Bytes} {v : Term}
    (h : Assigns host c s i name v s') : s'.find? c.env name = some i := by
  obtain ⟨_, _, _, _, hfind⟩ := h
  exact hfind

theorem step_assignment (host : Host) (ev : Evaluate) (fuel : Nat) {c : Cursor} {s : State}
    {name : Bytes} {value : Term} (h : AtAssignment c s name value) :
    step host ev fuel c s = Action.inForm c.form
      (ev.value value c.env >>= fun v => Action.assign c.env name v >>= fun _ => c.finish v) s := by
  obtain ⟨head, hform, hm, hspecial⟩ := h
  have hassign := stepForm_special host ev fuel [.symbol name, value]
    (c := { c with enclosing := some c.form }) hm hspecial
  rw [step_form host ev fuel hform]
  simp only [Action.inForm]
  rw [hassign, Cursor.special, Cursor.assign_eq]
  rfl

namespace Law

variable {R : State → State → Prop} {host : Host} {c : Cursor} {s s' : State}

/-- A step keeps a law that the evaluations inside of it and its assignment keep. -/
theorem step (hR : Law R) {fuel : Nat} (hc : c.Proper)
    (hassign : ∀ i name v s₁, Assigns host c s i name v s₁ → R s₁ (s₁.define i name v))
    (hq : ∀ q s₁, Begins (fun ev => SmallLisp.step host ev fuel c) (evalWith host fuel) s q →
      ((evalWith host fuel).outcome q).state? = some s₁ → R q.state s₁)
    (hend : (SmallLisp.step host (evalWith host fuel) fuel c s).state? = some s') : R s s' := by
  rcases step_composed_or_assignment host fuel hc s with ⟨name, value, hat⟩ | ⟨m, hm, heq⟩
  · have hcomposed : Composed false [] fun ev => ev.value value c.env := value_composed value c.env
    have hvalue {s₁ : State}
        (h₁ : ((evalWith host fuel).value value c.env s).state? = some s₁) : R s s₁ := by
      refine hR.keeps hcomposed (hR.refl s) nofun (fun q s₂ hb => hq q s₂ ?_) h₁
      have hcut : ((evalWith host fuel).without q).value value c.env s = .timeout := hb.2
      refine ⟨ne_timeout_of_state hend, ?_⟩
      dsimp only
      rw [step_assignment host _ fuel hat, Action.inForm, Action.bind_apply, hcut]
    rw [step_assignment host _ fuel hat, inForm_state, Action.bind_apply] at hend
    cases hv : (evalWith host fuel).value value c.env s with
    | timeout =>
      rw [hv] at hend
      cases hend
    | failure e s₁ =>
      rw [hv] at hend hvalue
      exact hvalue hend
    | value v s₁ =>
      rw [hv] at hend hvalue
      dsimp only at hend
      rw [Action.bind_apply, assign_apply] at hend
      obtain ⟨env', heval⟩ := value_eq_value hv
      cases hfind : s₁.find? c.env name with
      | none =>
        rw [hfind] at hend
        cases hend
        exact hvalue rfl
      | some i =>
        rw [hfind] at hend
        cases hend
        have hassigns : Assigns host c s i name v s₁ :=
          ⟨value, env', hat, evaluates_of_evalWith heval, hfind⟩
        exact hR.trans (hvalue rfl) (hassign i name v s₁ hassigns)
  · rw [heq] at hend
    exact hR.keeps hm (hR.refl s) nofun (fun q s₁ hb => hq q s₁ ((Begins.congr heq).mpr hb)) hend

/-- The loop of an evaluation keeps a law that the assignments which it comes to keep. -/
theorem run (hR : Law R) {fuel : Nat} (hc : c.Sound)
    (hassign : ∀ d s₁ i name v s₂, Comes host c s d s₁ → Assigns host d s₁ i name v s₂ →
      R s₂ (s₂.define i name v))
    (hend : (SmallLisp.run host fuel c s).state? = some s') : R s s' := by
  induction fuel generalizing c s s' with
  | zero => cases hend
  | succ fuel ih =>
    have hstep {s₁ : State}
        (h₁ : (SmallLisp.step host (evalWith host fuel) fuel c s).state? = some s₁) : R s s₁ := by
      refine hR.step hc.2 (fun i name v s₂ => hassign c s i name v s₂ .here) ?_ h₁
      intro q s₂ hb hs₂
      -- the loop inside has less fuel, and where it comes to, this loop comes to
      refine ih (start_sound q.form q.env) ?_ hs₂
      intro d s₃ i name v s₄ hd
      exact hassign d s₃ i name v s₄ (Comes.trans (.inside .here ⟨fuel, hb⟩) hd)
    rw [run_succ] at hend
    cases hr : SmallLisp.step host (evalWith host fuel) fuel c s with
    | timeout =>
      rw [hr] at hend
      cases hend
    | failure e s₁ =>
      rw [hr] at hend hstep
      exact hstep hend
    | value r s₁ =>
      rw [hr] at hend hstep
      cases r with
      | done v out => exact hstep hend
      | next d =>
        have htail : TailStep host c s d s₁ := ⟨fuel, hr⟩
        refine hR.trans (hstep rfl) (ih (htail.sound hc) ?_ hend)
        intro d' s₃ i name v s₄ hd
        exact hassign d' s₃ i name v s₄ (Comes.trans (.next .here htail) hd)

/-- An evaluation keeps a law that the assignments on its way keep. -/
theorem evaluates (hR : Law R) {form : Term} {env : Env} {r : Outcome (Term × Env)}
    (hassign : ∀ d s₁ i name v s₂, Comes host (Cursor.start form env) s d s₁ →
      Assigns host d s₁ i name v s₂ → R s₂ (s₂.define i name v))
    (h : Evaluates host form env s r) : ∃ s', r.state? = some s' ∧ R s s' := by
  obtain ⟨hr, fuel, rfl⟩ := h
  obtain ⟨s', hs'⟩ := state_of_ne_timeout hr
  exact ⟨s', hs', hR.run (start_sound form env) hassign hs'⟩

/-- An action without assignments of its own keeps a law that all assignments keep. -/
theorem composed (hR : Law R) {α : Type} {m : Evaluate → Action α} {fuel : Nat}
    (hassign : ∀ d s₁ i name v s₂, Assigns host d s₁ i name v s₂ → R s₂ (s₂.define i name v))
    (hm : Composed false [] m) (hend : (m (evalWith host fuel) s).state? = some s') : R s s' := by
  refine hR.keeps hm (hR.refl s) nofun (fun q s₁ _ hs₁ => ?_) hend
  exact hR.run (start_sound q.form q.env) (fun d s₂ i name v s₃ _ => hassign d s₂ i name v s₃) hs₁

theorem tailStep (hR : Law R)
    (hassign : ∀ d s₁ i name v s₂, Assigns host d s₁ i name v s₂ → R s₂ (s₂.define i name v))
    (hc : c.Proper) {d : Cursor} (h : TailStep host c s d s') : R s s' := by
  obtain ⟨fuel, hstep⟩ := h
  have hend : (SmallLisp.step host (evalWith host fuel) fuel c s).state? = some s' := by
    rw [hstep]
    rfl
  exact hR.step hc (hassign c s) (fun q s₁ _ => hR.composed hassign (.eval q.form q.env)) hend

/-- A law that all assignments keep, and that entering a directory keeps, holds of all states that
the loop comes to. -/
theorem comes (hR : Law R) (henter : ∀ s dir, R s (Action.enterDirectory dir s))
    (hassign : ∀ d s₁ i name v s₂, Assigns host d s₁ i name v s₂ → R s₂ (s₂.define i name v))
    (hc : c.Sound) {d : Cursor} (h : Comes host c s d s') : R s s' := by
  have hev (fuel : Nat) (q : Query) (s₁ : State)
      (hs₁ : ((evalWith host fuel).outcome q).state? = some s₁) : R q.state s₁ :=
    hR.composed hassign (.eval q.form q.env) hs₁
  induction h with
  | here => exact hR.refl s
  | next h hstep ih => exact hR.trans ih (hR.tailStep hassign (h.sound hc).2 hstep)
  | @inside d s₁ q h hq ih =>
    obtain ⟨fuel, hq⟩ := hq
    refine hR.trans ih ?_
    rcases step_composed_or_assignment host fuel (h.sound hc).2 s₁ with
      ⟨name, value, hat⟩ | ⟨m, hm, heq⟩
    · -- a `set!` begins no evaluation but that of its value
      have hvalue : Composed false [] fun ev => ev.value value d.env := value_composed value d.env
      have hq := (Begins.congr fun ev => step_assignment host ev fuel hat).mp hq
      rcases (Begins.inForm_iff.mp hq).of_bind hvalue with hq | ⟨_, _, _, hq⟩
      · exact hR.begun henter hvalue (hR.refl s₁) nofun (hev fuel) hq
      · exact absurd hq Begins.not_const
    · exact hR.begun henter hm (hR.refl s₁) nofun (hev fuel) ((Begins.congr heq).mp hq)

end Law

/-! ## Errors -/

/-- An error with a form attached that ends an evaluation on the way of an action is the error of
the action. -/
theorem Composed.failure {assigns : Bool} {own : List Nat} {α : Type} {m : Evaluate → Action α}
    (h : Composed assigns own m) {ev : Evaluate} {s s₁ : State} {q : Query} {e : Error}
    (hq : Begins m ev s q) (hfail : ev.outcome q = .failure e s₁) (he : e.forms ≠ []) :
    ∃ s', m ev s = .failure e s' := by
  induction h generalizing s with
  | eval t env =>
    obtain ⟨rfl, -⟩ := Begins.eval_iff.mp hq
    exact ⟨s₁, hfail⟩
  | bind hm _ ihm ihf =>
    dsimp only
    rw [Action.bind_apply]
    rcases hq.of_bind hm with hq | ⟨a, s₂, hv, hq⟩
    · obtain ⟨s', hs'⟩ := ihm hq
      rw [hs']
      exact ⟨s', rfl⟩
    · rw [hv]
      exact ihf a hq
  | extend frame frames ns _ ih => exact ih s.frames.size (s := s.addFrame frame) hq
  | inForm _ _ ih =>
    obtain ⟨s', hs'⟩ := ih (Begins.inForm_iff.mp hq)
    refine ⟨s', ?_⟩
    simp only [Action.inForm, hs', Error.withForm_of_forms he]
  | inDirectory dir _ ih =>
    obtain ⟨s', hs'⟩ := ih (Begins.inDirectory_iff.mp hq)
    exact ⟨Action.leaveDirectory s', by simp only [Action.inDirectory, hs']⟩
  | _ => exact absurd hq Begins.not_const

/-- An error with a form attached is the error of all loops around the one that it ends. -/
theorem Comes.failure {host : Host} {c d : Cursor} {s s₁ s₂ : State} {e : Error}
    (h : Comes host c s d s₁) (hc : c.Sound) (hd : Returns host d s₁ (.failure e s₂))
    (he : e.forms ≠ []) : ∃ s', Returns host c s (.failure e s') := by
  induction h generalizing s₂ with
  | here => exact ⟨s₂, hd⟩
  | next _ hstep ih => exact ih ((returns_tailStep hstep).mpr hd)
  | @inside d s₁ q h hq ih =>
    obtain ⟨fuel, hq⟩ := hq
    have hends : Evaluates host q.form q.env q.state ((evalWith host fuel).outcome q) :=
      ⟨hq.outcome_ne_timeout, fuel, rfl⟩
    -- the step saw the same failure, whatever fuel that one had
    have hfail : (evalWith host fuel).outcome q = .failure e s₂ := returns_unique hends hd
    have hstep : Composed true [] fun ev => step host ev fuel d :=
      step_composed host fuel (h.sound hc).2 fun _ _ _ _ _ => rfl
    obtain ⟨s', hs'⟩ := hstep.failure hq hfail he
    have hreturns : Returns host d s₁ (.failure e s') := ⟨nofun, fuel + 1, by rw [run_succ, hs']⟩
    exact ih hreturns

end SmallLisp

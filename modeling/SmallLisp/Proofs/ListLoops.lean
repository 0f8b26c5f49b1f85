import SmallLisp.Proofs.CoreCode
import SmallLisp.Proofs.FormRules
import SmallLisp.Proofs.HiddenFrames

/-! Loops along lists. The core library walks along a list from the left and calls a function on each
element; what it comes to on the way is handed from one call of a function of its own to the next.
The calls in between may change the state in any way that leaves the library intact: the frames in
which a loop keeps its variables are out of their reach (`State.InLoop`). -/
namespace SmallLisp

/-! ## What the functions do -/

/-- A function that is no macro and, if it is native, does not look at the environment that it is
called in. -/
inductive Callable : Term → Prop
  | closure {g : Closure Term} (h : g.isMacro = false) : Callable (.closure g)
  | native {b : Builtin}
      (h : ∀ host ev env env' args, b.call host ev env args = b.call host ev env' args) :
      Callable (.native b)

def applied (host : Host) (f : Term) (args : List Term) : Evaluate → Action Term :=
  callValue host ⟨[], coreName⟩ f args (.runtime (.notFunction f))

/-- A walk along a list: what it starts with, what one element adds to that, and the value in the
end. Calls of functions of the library leave frames behind: at the beginning, and before each
element and the end. -/
structure Walk (α : Type) where
  start : α
  step (x : Term) (a : α) : Evaluate → Action α
  result (a : α) : Term
  enter (xs : List Term) : State → State
  note (xs : List Term) (a : α) : State → State

namespace Walk

variable {α : Type}

/-- The steps for the elements, one after the other, up to the first that fails. -/
def along (w : Walk α) : List Term → α → Evaluate → Action α
  | [], a, _ => Action.update (w.note [] a) >>= fun _ => return a
  | x :: xs, a, ev => Action.update (w.note (x :: xs) a) >>= fun _ =>
    w.step x a ev >>= fun a => w.along xs a ev

def run (w : Walk α) (xs : List Term) (ev : Evaluate) : Action Term :=
  Action.update (w.enter xs) >>= fun _ => w.along xs w.start ev >>= fun a => return w.result a

def Intact (host : Host) (w : Walk α) : List Term → α → State → Prop
  | [], _, s => s.CoreIntact
  | x :: xs, a, s => s.CoreIntact ∧ ∀ a' s',
    EndsIn host (w.step x a) (w.note (x :: xs) a s) (.value a' s') → w.Intact host xs a' s'

/-- The library is intact at the beginning and all along the way. -/
structure Undisturbed (host : Host) (w : Walk α) (xs : List Term) (s : State) : Prop where
  first : s.CoreIntact
  along : w.Intact host xs w.start (w.enter xs s)

end Walk

/-! ### Loops -/

def stepBody (test yes next acc : Term) : Term :=
  formOf "if" [test, yes, formOf "step" [next, acc]]

/-- The function `step`, made in the frame `j` inside of the frame `k` of the call. -/
def loopFunction (id j k : Nat) (params : List String) (body : Term) : Closure Term :=
  ⟨id, false, [], coreName, params.map Bytes.ofString, none, [body], ⟨[j, k, 0], coreName⟩⟩

def State.addLoop (s : State) (k : Nat) (params : List String) (body : Term) : State :=
  { s.addFrame [(Bytes.ofString "step",
      .closure (loopFunction s.closures s.frames.size k params body))] with
    closures := s.closures + 1 }

theorem State.Beside.addLoop {made : Nat} {s s' : State} (h : State.Beside made s' s) (k : Nat)
    (params : List String) (body : Term) :
    State.Beside (made + 1) (s'.addLoop k params body) s := by
  have hframe := h.addFrame [(Bytes.ofString "step",
    .closure (loopFunction s'.closures s'.frames.size k params body))]
  exact { hframe with closures := congrArg (· + 1) h.closures }

/-! ### Collecting -/

/-- The variables of a loop that collects in `acc`, the last first, from what is left of a list. -/
def loopFrame (xs done : List Term) : Table Term :=
  [(Bytes.ofString "l", .list xs), (Bytes.ofString "acc", .list done)]

def collectBody (acc : Term) : Term :=
  stepBody (formOf "empty?" [.sym "l"]) (formOf "reverse" [.sym "acc"])
    (formOf "rest" [.sym "l"]) acc

/-- Calls `f` on each element and collects a list from the values. `f` is bound to `name`, and `acc`
is the expression that collects. -/
def collecting (host : Host) (f : Term) (name : String) (acc : Term)
    (collect : Term → Term → List Term → Except Error (List Term)) : Walk (List Term) where
  start := []
  step x done ev := applied host f [x] ev >>= fun v => Action.ofExcept (collect v x done)
  result done := .list done.reverse
  enter xs s :=
    (s.addFrame [(Bytes.ofString name, f), (Bytes.ofString "l", .list xs)]).addLoop s.frames.size
      ["l", "acc"] (collectBody acc)
  note xs done s := s.addFrame (loopFrame xs done)

/-! ## Entering a loop -/

theorem State.define_addFrame (s : State) (f : Table Term) (name : Bytes) (v : Term) :
    (s.addFrame f).define s.frames.size name v = s.addFrame (f.insert name v) := by
  simp only [define, addFrame]
  congr 1
  apply Array.ext
  · simp
  · intro i h₁ h₂
    by_cases hi : i < s.frames.size
    · simp [Array.getElem_modify, Array.getElem_push, hi, Nat.ne_of_gt hi]
    · have hsize : i = s.frames.size := by
        simp at h₂
        omega
      subst hsize
      simp [Array.getElem_modify]

section

variable {host : Host} {s : State} {k : Nat} {names : List Bytes}

/-- Making the function and binding it. -/
theorem endsIn_addLoop (hplain : macroOf? (s.addFrame []) ⟨[s.frames.size, k, 0], coreName⟩
      (.sym "function") = none) {params : List String}
    (hparams : [38] ∉ params.map Bytes.ofString) (body : Term) :
    EndsIn host (fun ev => Action.update (·.addFrame []) >>= fun _ =>
        ev.value (formOf "function" [.list (params.map Term.sym), body])
          ⟨[s.frames.size, k, 0], coreName⟩ >>= fun v =>
        Action.update (·.define s.frames.size (Bytes.ofString "step") v))
      s (.value () (s.addLoop k params body)) := by
  let inner : Env := ⟨[s.frames.size, k, 0], coreName⟩
  let form := formOf "function" [.list (params.map Term.sym), body]
  let g := loopFunction s.closures s.frames.size k params body
  let s' : State := { s.addFrame [] with closures := s.closures + 1 }
  have hform : form = functionForm (params.map Bytes.ofString) [body] := by
    simp only [form, formOf, functionForm, List.map_map]
    rfl
  have hvalue : EndsIn host (fun ev => ev.value form inner) (s.addFrame [])
      (.value (.closure g) s') := by
    rw [hform]
    exact EndsIn.value_iff_value.mpr
      ⟨inner, ((ParameterList.fixed hparams).evaluates hplain).mpr rfl⟩
  have hdefine : EndsIn host
      (fun _ => Action.update (·.define s.frames.size (Bytes.ofString "step") (.closure g))) s'
      (.value () (s.addLoop k params body)) := by
    refine EndsIn.const_iff.mpr ⟨by simp, ?_⟩
    have hframes := s.define_addFrame [] (Bytes.ofString "step") (.closure g)
    exact congrArg (fun st : State => Outcome.value () { st with closures := s.closures + 1 })
      hframes
  have hframe : EndsIn host (fun _ => Action.update (·.addFrame [])) s
      (.value () (s.addFrame [])) := ⟨by simp, 0, rfl⟩
  have hthen (v : Term) : Steady fun _ : Evaluate =>
    Action.update (·.define s.frames.size (Bytes.ofString "step") v) := steady_const _
  exact hframe.bind_value (steady_const _) (fun _ => (steady_value form inner).bind hthen)
    (hvalue.bind_value (steady_value form inner) hthen hdefine)

/-- The loop is the function `step` applied to the start and an empty list. -/
theorem Agrees.stepLoop (host : Host) (hs : s.CoreScope [k, 0] names) (hk : k < s.frames.size)
    (hnames : ∀ f ∈ [SpecialForm.letIn, .function], f.name ∉ names) {params : List String}
    (hparams : [38] ∉ params.map Bytes.ofString) {test yes next acc start v : Term} {n : Nat}
    (hstart : Computes n (s.addLoop k params (stepBody test yes next acc))
      ⟨[s.frames.size, k, 0], coreName⟩ start v) :
    Agrees host s
      (fun ev => ev.value (SmallLisp.stepLoop (params.map Term.sym) test yes next acc start)
        ⟨[k, 0], coreName⟩)
      (fun ev => Action.update (·.addLoop k params (stepBody test yes next acc)) >>= fun _ =>
        (loopFunction s.closures s.frames.size k params (stepBody test yes next acc)).expand ev
          [v, .list []]) := by
  let body := stepBody test yes next acc
  let form := formOf "function" [.list (params.map Term.sym), body]
  let call := formOf "step" [start, .list []]
  let inner : Env := ⟨[s.frames.size, k, 0], coreName⟩
  let g := loopFunction s.closures s.frames.size k params body
  let made (ev : Evaluate) : Action Unit := Action.update (·.addFrame []) >>= fun _ =>
    ev.value form inner >>= fun v => Action.update (·.define s.frames.size (Bytes.ofString "step") v)
  have hmade : Steady made := (steady_const _).bind fun _ =>
    (steady_value form inner).bind fun _ => steady_const _
  have hlet : Agrees host s (fun ev => ev.value (formOf "let" [.list [.sym "step", form], call])
      ⟨[k, 0], coreName⟩) (fun ev => made ev >>= fun _ => ev.value call inner) := by
    refine .to_value ⟨[k, 0], coreName⟩
      (hmade.bind fun _ => steady_value call inner) ?_
    refine (Agrees.bindOne (hs.plain .letIn (hnames _ (by simp))) _ form call).trans
      (.of_eq fun ev => ?_)
    simp only [made, bind_assoc]
    rfl
  have hframes : ∀ i ∈ [k, 0], i < s.frames.size := by
    simp [hk, hs.core.top.1]
  have hplain := (hs.extend hframes []).plain .function (hnames _ (by simp))
  refine hlet.trans (.prefixed hmade (steady_const _) (fun _ => steady_value call inner)
    (fun _ => steady_expand g _) (endsIn_addLoop hplain hparams body) ⟨nofun, 0, rfl⟩ ?_)
  have hlookup : (s.addLoop k params body).lookup inner (Bytes.ofString "step") =
      .ok (.closure g) := by
    refine State.lookup_local ?_
    have hframe : (s.addLoop k params body).frame s.frames.size =
        [(Bytes.ofString "step", .closure g)] := s.frame_addFrame_self _
    rw [hframe]
    rfl
  have hargs := hstart.all (Computes.empty.all .nil)
  refine (Agrees.closureCall hlookup rfl (by decide) (by decide) (steady_const _)
    (hargs.agrees host)).trans (.of_eq fun ev => pure_bind _ _)

end

/-! ## Walks -/

section

variable {host : Host} {f : Term} {s s' : State}

/-- The environment makes no difference. -/
theorem Callable.applied_eq (h : Callable f) (env : Env) (args : List Term) (e : Error)
    (ev : Evaluate) : callValue host env f args e ev = applied host f args ev := by
  cases h with
  | closure => rfl
  | native hb => exact hb host ev _ _ args

theorem Callable.plain (h : Callable f) {env : Env} {name : Bytes}
    (hf : s.lookup env name = .ok f) : macroOf? s env (.symbol name) = none := by
  cases h with
  | closure hg => simp [macroOf?, hf, hg]
  | native => simp [macroOf?, hf]

theorem steady_applied (args : List Term) : Steady (applied host f args) :=
  steady_callValue host _ f args _

/-- A call in the code of the library. -/
theorem Callable.agrees (h : Callable f) {env : Env} {name : Bytes}
    (hf : s.lookup env name = .ok f) (hspecial : SpecialForm.ofName? name = none)
    (hconstant : constant? name = none) {n : Nat} {args vs : List Term}
    (hargs : ComputesAll n s env args vs) :
    Agrees host s (fun ev => ev.value (.list (.symbol name :: args)) env)
      (applied host f vs) := by
  refine (Agrees.valuesCall hf (h.plain hf) hspecial hconstant args).trans ?_
  refine .past (steady_values env args) (fun vs => steady_callValue host env f vs _)
    (hargs.endsIn host) (.of_eq fun ev => h.applied_eq env vs _ ev)

end

/-! ### Loops under way -/

/-- The function `g` is called again and again in the frame `j`, inside of the call whose frame is
`k`. Both frames are out of reach. -/
structure State.InLoop (s : State) (hidden : Nat → Prop) (g : Closure Term) (j k : Nat)
    (call : Table Term) : Prop where
  loop_frame : s.frame j = [(Bytes.ofString "step", .closure g)]
  call_frame : s.frame k = call
  hides : s.Hides hidden
  loop_hidden : hidden j
  call_hidden : hidden k

/-- A name that the innermost frame does not bind is looked up in the others. -/
theorem State.lookup_outer {s : State} {i : Nat} {frames : List Nat} {ns name : Bytes}
    (h : (s.frame i).get? name = none) :
    s.lookup ⟨i :: frames, ns⟩ name = s.lookup ⟨frames, ns⟩ name := by
  simp only [State.lookup, List.findSome?_cons, h]

/-- When a loop has been entered, its two frames are new. -/
theorem State.Hides.enterLoop {s : State} {hidden : Nat → Prop} (hs : s.Hides hidden)
    (call : Table Term) (params : List String) (body : Term) :
    let s' := s.addFrame call
    (s'.addLoop s.frames.size params body).InLoop
      (fun i => (hidden i ∨ i = s.frames.size) ∨ i = s'.frames.size)
      (loopFunction s'.closures s'.frames.size s.frames.size params body) s'.frames.size
      s.frames.size call := by
  intro s'
  have hsize : s.frames.size < s'.frames.size := by
    simp [s']
  exact {
    loop_frame := State.frame_addFrame_self s' _
    call_frame := (State.frame_addFrame hsize _).trans (State.frame_addFrame_self s call)
    hides := ((hs.hide call).hide _).of_eq rfl rfl
    loop_hidden := .inr rfl
    call_hidden := .inl (.inr rfl) }

namespace State.InLoop

variable {s s' : State} {hidden : Nat → Prop} {g : Closure Term} {j k m : Nat} {call : Table Term}
  (h : s.InLoop hidden g j k call)

include h

/-- A new frame, for a step, is out of reach as well. -/
theorem addFrame (f : Table Term) :
    (s.addFrame f).InLoop (fun i => hidden i ∨ i = s.frames.size) g j k call where
  loop_frame := (State.frame_addFrame (h.hides.below h.loop_hidden) f).trans h.loop_frame
  call_frame := (State.frame_addFrame (h.hides.below h.call_hidden) f).trans h.call_frame
  hides := h.hides.hide f
  loop_hidden := .inl h.loop_hidden
  call_hidden := .inl h.call_hidden

theorem kept (hs' : s'.Hides hidden) (hkept : ∀ i, hidden i → s'.frame i = s.frame i) :
    s'.InLoop hidden g j k call where
  loop_frame := (hkept j h.loop_hidden).trans h.loop_frame
  call_frame := (hkept k h.call_hidden).trans h.call_frame
  hides := hs'
  loop_hidden := h.loop_hidden
  call_hidden := h.call_hidden

theorem scope_outside (hcore : s.HasCore coreRoot) :
    s.CoreScope [j, k, 0] (Bytes.ofString "step" :: call.names) :=
  (State.CoreScope.inner hcore h.call_frame).push h.loop_frame

theorem scope (hcore : s.HasCore coreRoot) {frame : Table Term} (hm : s.frame m = frame) :
    s.CoreScope [m, j, k, 0] (frame.names ++ Bytes.ofString "step" :: call.names) :=
  (h.scope_outside hcore).push hm

/-- The function `step`, where the variables have other names. -/
theorem lookup_step {ns : Bytes} (hm : (s.frame m).get? (Bytes.ofString "step") = none) :
    s.lookup ⟨[m, j, k, 0], ns⟩ (Bytes.ofString "step") = .ok (.closure g) := by
  rw [State.lookup_outer hm]
  refine State.lookup_local ?_
  rw [h.loop_frame]
  rfl

/-- An argument of the call, before the first step. -/
theorem lookup_outside {ns name : Bytes} {v : Term} (hstep : name ≠ Bytes.ofString "step")
    (hv : call.get? name = some v) : s.lookup ⟨[j, k, 0], ns⟩ name = .ok v := by
  have hj : (s.frame j).get? name = none := by
    rw [h.loop_frame]
    simp [Table.get?, Ne.symm hstep]
  rw [State.lookup_outer hj]
  refine State.lookup_local ?_
  rw [h.call_frame, hv]

theorem lookup_call {ns name : Bytes} {v : Term} (hm : (s.frame m).get? name = none)
    (hstep : name ≠ Bytes.ofString "step") (hv : call.get? name = some v) :
    s.lookup ⟨[m, j, k, 0], ns⟩ name = .ok v :=
  (State.lookup_outer hm).trans (h.lookup_outside hstep hv)

/-- A call of a function, after a new frame, leaves the frames of the loop and that one as they are
and out of reach. -/
theorem called {host : Host} {f v : Term} {args : List Term} {frame : Table Term}
    (hf : f.Sees hidden s.frames.size) (hargs : ∀ t ∈ args, t.Sees hidden s.frames.size)
    (hv : EndsIn host (applied host f args) (s.addFrame frame) (.value v s')) :
    s'.InLoop (fun i => hidden i ∨ i = s.frames.size) g j k call ∧
      s'.frame s.frames.size = frame ∧
      ∀ t : Term, t.Sees hidden s.frames.size →
        t.Sees (fun i => hidden i ∨ i = s.frames.size) s'.frames.size := by
  have hnew := h.addFrame frame
  have hsize : (s.addFrame frame).frames.size = s.frames.size + 1 := State.addFrame_size s _
  obtain ⟨hhides, hle, hkept, -⟩ := callValue_hides hnew.hides (hsize ▸ hf.hide)
    (fun t ht => hsize ▸ (hargs t ht).hide) rfl hv
  refine ⟨hnew.kept hhides hkept, ?_, fun t ht => ht.hide.mono (hsize ▸ hle)⟩
  exact (hkept _ (.inr rfl)).trans (State.frame_addFrame_self s frame)

end State.InLoop

theorem Walk.steady_along {α : Type} {w : Walk α} (hw : ∀ x a, Steady (w.step x a))
    (xs : List Term) (a : α) : Steady (w.along xs a) := by
  induction xs generalizing a with
  | nil => exact steady_const _
  | cons x xs ih => exact (steady_const _).bind fun _ => (hw x a).bind fun a' => ih a'

/-! ### Loops that collect -/

def loopNames (name : String) : List Bytes :=
  ["l", "acc", "step", name, "l"].map Bytes.ofString

/-- The expression `acc` calls `f`, which is bound to `name`, on the first element and then
collects. -/
structure Collects (host : Host) (f : Term) (name : String) (acc : Term)
    (collect : Term → Term → List Term → Except Error (List Term)) : Prop where
  distinct : Bytes.ofString name ∉ ["l", "acc", "step"].map Bytes.ofString
  free : ∀ c ∈ ["let", "function", "if", "empty?", "reverse", "rest"],
    Bytes.ofString c ∉ loopNames name
  agrees {s : State} {m : Nat} {frames : List Nat} {x : Term} {xs done : List Term}
    (hscope : s.CoreScope (m :: frames) (loopNames name))
    (hm : s.frame m = loopFrame (x :: xs) done)
    (hf : s.lookup ⟨m :: frames, coreName⟩ (Bytes.ofString name) = .ok f)
    (hafter : ∀ v s', EndsIn host (applied host f [x]) s (.value v s') → s'.frame m = s.frame m ∧
      ∀ d, collect v x done = .ok d → s'.CoreScope (m :: frames) (loopNames name)) :
    Agrees host s (fun ev => ev.value acc ⟨m :: frames, coreName⟩) fun ev =>
      applied host f [x] ev >>= fun v => Action.ofExcept ((collect v x done).map .list)

section

variable {host : Host} {f : Term} {name : String} {acc : Term}
  {collect : Term → Term → List Term → Except Error (List Term)}

theorem steady_collecting (x : Term) (done : List Term) :
    Steady ((collecting host f name acc collect).step x done) :=
  (steady_applied _).bind fun _ => steady_const _

/-- A step is a call of the function, after which the state stays as it is. -/
theorem collecting_step_iff {x : Term} {done d : List Term} {s s' : State} :
    EndsIn host ((collecting host f name acc collect).step x done) s (.value d s') ↔
      ∃ v, EndsIn host (applied host f [x]) s (.value v s') ∧ collect v x done = .ok d := by
  have hconst (v : Term) : Steady fun _ : Evaluate => Action.ofExcept (collect v x done) :=
    steady_const _
  constructor
  · intro h
    obtain ⟨v, s₁, hv, hd⟩ := h.of_bind_value (steady_applied [x]) hconst
    have hd := (EndsIn.const_iff.mp hd).2
    cases hc : collect v x done with
    | error e =>
      rw [hc] at hd
      cases hd
    | ok d' =>
      rw [hc] at hd
      cases hd
      exact ⟨v, hv, hc⟩
  · rintro ⟨v, hv, hc⟩
    refine hv.bind_value (steady_applied [x]) hconst ?_
    rw [hc]
    exact .pure d

theorem Walk.Intact.now {α : Type} {w : Walk α} {xs : List Term} {a : α} {s : State}
    (h : w.Intact host xs a s) : s.CoreIntact := by
  cases xs with
  | nil => exact h
  | cons x xs => exact h.1

namespace Collects

variable (hacc : Collects host f name acc collect) {s : State} {hidden : Nat → Prop} {id j k : Nat}
  {l x : Term} {xs done : List Term}

include hacc

/-- The arguments of the next round: the rest of the list, and what there is after this step. -/
theorem values {m : Nat} {frames : List Nat} {rest : Term} {n : Nat}
    (hscope : s.CoreScope (m :: frames) (loopNames name))
    (hm : s.frame m = loopFrame (x :: xs) done)
    (hf : s.lookup ⟨m :: frames, coreName⟩ (Bytes.ofString name) = .ok f)
    (hafter : ∀ v s', EndsIn host (applied host f [x]) s (.value v s') → s'.frame m = s.frame m ∧
      ∀ d, collect v x done = .ok d → s'.CoreScope (m :: frames) (loopNames name))
    (hrest : Computes n s ⟨m :: frames, coreName⟩ rest (.list xs)) :
    Agrees host s (fun ev => ev.values ⟨m :: frames, coreName⟩ [rest, acc])
      (fun ev => (collecting host f name acc collect).step x done ev >>= fun d =>
        return [.list xs, .list d]) := by
  let env : Env := ⟨m :: frames, coreName⟩
  have hpair (v : Term) : Steady fun ev => ev.value acc env >>= fun a => pure [v, a] :=
    (steady_value acc env).bind fun a => steady_const (pure [v, a])
  have hcollect (v : Term) : Steady fun _ : Evaluate =>
      Action.ofExcept ((collect v x done).map Term.list) := steady_const _
  have hvalue := EndsIn.value_iff_value.mpr ⟨env, hrest.evaluates host⟩
  have hlast := (hacc.agrees hscope hm hf hafter).bind (steady_value acc env)
    ((steady_applied [x]).bind hcollect) (fun a => steady_const (pure [.list xs, a]))
    (fun a => steady_const (pure [.list xs, a])) fun _ _ _ => .refl _
  refine Agrees.trans (.of_eq fun ev => ?_) (.past (steady_value rest env) hpair hvalue
    (hlast.trans (.of_eq fun ev => ?_)))
  · simp only [Evaluate.values, bind_assoc, pure_bind, env]
  · simp only [collecting, bind_assoc]
    congr 1
    funext v
    cases collect v x done <;> rfl

/-- At the end of the list the loop hands back what it has collected. -/
theorem last
    (h : s.InLoop hidden (loopFunction id j k ["l", "acc"] (collectBody acc)) j k
      [(Bytes.ofString name, f), (Bytes.ofString "l", l)]) (hs : s.CoreIntact) :
    Agrees host (s.addFrame (loopFrame [] done))
      (fun ev => ev.value (collectBody acc) ⟨[s.frames.size, j, k, 0], coreName⟩)
      (fun _ => return .list done.reverse) := by
  let s₁ := s.addFrame (loopFrame [] done)
  let env : Env := ⟨[s.frames.size, j, k, 0], coreName⟩
  have hframe : s₁.frame s.frames.size = loopFrame [] done := s.frame_addFrame_self _
  have hscope : s₁.CoreScope env.frames (loopNames name) :=
    (h.addFrame _).scope ((State.coreIntact_iff.mp hs).addFrame _) hframe
  have hl : Computes 1 s₁ env (.sym "l") (.list []) :=
    computes_local (by rw [hframe]; rfl) (by decide)
  have hdone : Computes 1 s₁ env (.sym "acc") (.list done) :=
    computes_local (by rw [hframe]; rfl) (by decide)
  have hempty : Computes 3 s₁ env (formOf "empty?" [.sym "l"]) (.bool true) :=
    hl.call (hscope.calls (c := ("empty?", .isEmpty)) (by decide) (hacc.free _ (by simp))) rfl
  have hreverse : Computes 3 s₁ env (formOf "reverse" [.sym "acc"]) (.list done.reverse) :=
    hdone.call (hscope.calls (c := ("reverse", .reverse)) (by decide) (hacc.free _ (by simp))) rfl
  have hbody : Computes 4 s₁ env (collectBody acc) (.list done.reverse) :=
    hempty.choose (b := true) (hscope.plain .choose (hacc.free _ (by simp))) hreverse
  exact .of_evaluates (hbody.evaluates host)

/-- Before that it does one step and goes on with the rest of the list. -/
theorem round
    (h : s.InLoop hidden (loopFunction id j k ["l", "acc"] (collectBody acc)) j k
      [(Bytes.ofString name, f), (Bytes.ofString "l", l)])
    (hf : f.Sees hidden s.frames.size) (hx : x.Sees hidden s.frames.size) (hs : s.CoreIntact)
    (hs' : ∀ d s', EndsIn host ((collecting host f name acc collect).step x done)
      (s.addFrame (loopFrame (x :: xs) done)) (.value d s') → s'.CoreIntact) :
    Agrees host (s.addFrame (loopFrame (x :: xs) done))
      (fun ev => ev.value (collectBody acc) ⟨[s.frames.size, j, k, 0], coreName⟩)
      (fun ev => (collecting host f name acc collect).step x done ev >>= fun d =>
        (loopFunction id j k ["l", "acc"] (collectBody acc)).expand ev [.list xs, .list d]) := by
  let g := loopFunction id j k ["l", "acc"] (collectBody acc)
  let s₁ := s.addFrame (loopFrame (x :: xs) done)
  let env : Env := ⟨[s.frames.size, j, k, 0], coreName⟩
  have hframe : s₁.frame s.frames.size = loopFrame (x :: xs) done := s.frame_addFrame_self _
  have hloop := h.addFrame (loopFrame (x :: xs) done)
  have hscope : s₁.CoreScope env.frames (loopNames name) :=
    hloop.scope ((State.coreIntact_iff.mp hs).addFrame _) hframe
  have hl : Computes 1 s₁ env (.sym "l") (.list (x :: xs)) :=
    computes_local (by rw [hframe]; rfl) (by decide)
  have hempty : Computes 3 s₁ env (formOf "empty?" [.sym "l"]) (.bool false) :=
    hl.call (hscope.calls (c := ("empty?", .isEmpty)) (by decide) (hacc.free _ (by simp))) rfl
  have hrest : Computes 3 s₁ env (formOf "rest" [.sym "l"]) (.list xs) :=
    hl.call (hscope.calls (c := ("rest", .rest)) (by decide) (hacc.free _ (by simp))) rfl
  have hlookup : s₁.lookup env (Bytes.ofString name) = .ok f := by
    refine hloop.lookup_call ?_ (fun heq => hacc.distinct (by simp [heq])) (by simp [Table.get?])
    have hnames : (loopFrame (x :: xs) done).names = ["l", "acc"].map Bytes.ofString := rfl
    rw [hframe, Table.get?_eq_none_iff, hnames]
    exact fun hmem => hacc.distinct (List.map_subset _ (by simp) hmem)
  have hcalled : s₁.lookup env (Bytes.ofString "step") = .ok (.closure g) :=
    hloop.lookup_step (by rw [hframe]; rfl)
  have hvalues := hacc.values hscope hframe hlookup (fun v s' hv => by
    obtain ⟨hloop', hkept, -⟩ := h.called hf (List.forall_mem_singleton.mpr hx) hv
    refine ⟨hkept.trans hframe.symm, fun d hd => hloop'.scope ?_ hkept⟩
    exact State.coreIntact_iff.mp (hs' d s' (collecting_step_iff.mpr ⟨v, hv, hd⟩))) hrest
  refine (Agrees.branch (hscope.plain .choose (hacc.free _ (by simp))) hempty _ _).trans ?_
  refine (Agrees.closureCall hcalled rfl (by decide) (by decide)
    ((steady_collecting x done).bind fun d => steady_const (pure [.list xs, .list d]))
    hvalues).trans (.of_eq fun ev => ?_)
  simp only [bind_assoc, pure_bind, g]

/-- So the loop walks along the list. -/
theorem expand
    (h : s.InLoop hidden (loopFunction id j k ["l", "acc"] (collectBody acc)) j k
      [(Bytes.ofString name, f), (Bytes.ofString "l", l)])
    (hf : f.Sees hidden s.frames.size) (hxs : ∀ x ∈ xs, x.Sees hidden s.frames.size)
    (hw : (collecting host f name acc collect).Intact host xs done s) :
    Agrees host s
      (fun ev => (loopFunction id j k ["l", "acc"] (collectBody acc)).expand ev
        [.list xs, .list done])
      (fun ev => (collecting host f name acc collect).along xs done ev >>= fun d =>
        return .list d.reverse) := by
  let g := loopFunction id j k ["l", "acc"] (collectBody acc)
  let w := collecting host f name acc collect
  have hstep (x : Term) (done : List Term) : Steady (w.step x done) := steady_collecting x done
  have hresult (d : List Term) : Steady fun _ : Evaluate =>
    (pure (.list d.reverse) : Action Term) := steady_const _
  induction xs generalizing done s hidden with
  | nil =>
    have hbind : g.bind [.list [], .list done] = .ok (loopFrame [] done) := rfl
    refine (Agrees.expand hbind rfl).trans ?_
    refine .trans (.after_update (steady_value _ _) (steady_const _) (hacc.last h hw))
      (.of_eq fun ev => ?_)
    simp only [Walk.along, bind_assoc, pure_bind]
    rfl
  | cons x xs ih =>
    have halong (d : List Term) := (Walk.steady_along hstep xs d).bind hresult
    have hbind : g.bind [.list (x :: xs), .list done] = .ok (loopFrame (x :: xs) done) := rfl
    refine (Agrees.expand hbind rfl).trans ?_
    refine .trans (.after_update (steady_value _ _) ((hstep x done).bind halong) ?_)
      (.of_eq fun ev => ?_)
    · have hround := hacc.round h hf (hxs x List.mem_cons_self) hw.1
        fun d s' hd => (hw.2 d s' hd).now
      refine hround.trans (.after (hstep x done) (fun d => steady_expand g _) halong ?_)
      intro d s' hd
      obtain ⟨v, hv, -⟩ := collecting_step_iff.mp hd
      obtain ⟨hloop', -, hseen⟩ :=
        h.called hf (List.forall_mem_singleton.mpr (hxs x List.mem_cons_self)) hv
      exact ih hloop' (hseen f hf) (fun y hy => hseen y (hxs y (List.mem_cons_of_mem x hy)))
        (hw.2 d s' hd)
    · simp only [Walk.along, bind_assoc]
      rfl

/-- A function of the library whose body is the loop does the whole walk. -/
theorem run {d : Definition}
    (hbind : (d.function id).bind [f, .list xs] =
      .ok [(Bytes.ofString name, f), (Bytes.ofString "l", .list xs)])
    (hbody : d.body = listLoop acc) (hs : s.Hides hidden) (hf : f.Sees hidden s.frames.size)
    (hxs : ∀ x ∈ xs, x.Sees hidden s.frames.size)
    (hw : (collecting host f name acc collect).Undisturbed host xs s) :
    Agrees host s (fun ev => (d.function id).expand ev [f, .list xs])
      ((collecting host f name acc collect).run xs) := by
  let w := collecting host f name acc collect
  let k := s.frames.size
  let call : Table Term := [(Bytes.ofString name, f), (Bytes.ofString "l", .list xs)]
  let s₀ := s.addFrame call
  let s₁ := s₀.addLoop k ["l", "acc"] (collectBody acc)
  let g := loopFunction s₀.closures s₀.frames.size k ["l", "acc"] (collectBody acc)
  have hloop : s₁.InLoop (fun i => (hidden i ∨ i = k) ∨ i = s₀.frames.size) g s₀.frames.size k
      call := hs.enterLoop call _ _
  have hsees {t : Term} (ht : t.Sees hidden s.frames.size) :
      t.Sees (fun i => (hidden i ∨ i = k) ∨ i = s₀.frames.size) s₁.frames.size := by
    have hsize₀ : s₀.frames.size = s.frames.size + 1 := State.addFrame_size s call
    have hsize₁ : s₁.frames.size = s₀.frames.size + 1 := State.addFrame_size s₀ _
    have ht₀ : t.Sees (fun i => hidden i ∨ i = k) s₀.frames.size := hsize₀ ▸ ht.hide
    exact hsize₁ ▸ ht₀.hide
  have hscope : s₀.CoreScope [k, 0] call.names :=
    .inner ((State.coreIntact_iff.mp hw.first).addFrame call) (State.frame_addFrame_self s call)
  have hk : k < s₀.frames.size := by
    simp [k, s₀]
  have hstart : Computes 1 s₁ ⟨[s₀.frames.size, k, 0], coreName⟩ (.sym "l") (.list xs) := by
    have hne : Bytes.ofString name ≠ Bytes.ofString "l" := fun heq => hacc.distinct (by simp [heq])
    exact .symbol (hloop.lookup_outside (by decide) (by simp [call, Table.get?, hne])) (by decide)
  have hfree : ∀ form ∈ [SpecialForm.letIn, .function], form.name ∉ call.names := by
    have hnames : call.names ⊆ loopNames name := by
      simp [call, Table.names, loopNames]
    rintro form hform hmem
    have hforms : ∀ form ∈ [SpecialForm.letIn, .function],
        ∃ c ∈ ["let", "function"], form.name = Bytes.ofString c := by decide
    obtain ⟨c, hc, hname⟩ := hforms form hform
    exact hacc.free c (List.mem_append_left _ hc) (hname ▸ hnames hmem)
  have hexpand := hacc.expand hloop (hsees hf) (fun x hx => hsees (hxs x hx)) hw.along
  have hentered := Agrees.stepLoop host hscope hk hfree (by decide) hstart
  have hdone (d : List Term) : Steady fun _ : Evaluate => (pure (w.result d) : Action Term) :=
    steady_const _
  have hstep (x : Term) (done : List Term) : Steady (w.step x done) := steady_collecting x done
  have halong := (Walk.steady_along hstep xs w.start).bind hdone
  refine (Agrees.expand hbind (congrArg (fun body => [body]) hbody)).trans ?_
  exact .trans (.after_update (steady_value _ _) ((steady_const _).bind fun _ => halong)
    (hentered.trans (.after_update (steady_expand g _) halong hexpand)))
    (.of_iff fun r => Iff.rfl)

end Collects

end

end SmallLisp

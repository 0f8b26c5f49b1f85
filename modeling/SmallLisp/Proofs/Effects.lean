import SmallLisp.Proofs.NativeErrors
import SmallLisp.Proofs.TailCalls

/-! What evaluation is made of. Every part of the evaluator is composed of evaluations of terms and
of a few ways to look at the state and to change it (`Composed`). This module shows it once for each
part, up to a whole step; what holds of all evaluations is then proved by one case for each way. -/
namespace SmallLisp

def Event.isDirectoryLine : Event → Bool
  | .log line =>
    (Bytes.ofString "push dir ").isPrefixOf line || (Bytes.ofString "pop dir ").isPrefixOf line
  | _ => false

def Event.isCreationLine : Event → Bool
  | .log line => (Bytes.ofString "created namespace ").isPrefixOf line
  | _ => false

/-- The changes of a state that touch neither frames nor directories. -/
inductive Change : State → State → Prop
  | require (s : State) (name : Bytes) : Change s (s.require name)
  | bindRoot (s : State) (ns name : Bytes) (v : Term) : Change s (s.bindRoot ns name v)
  | addImport (s : State) (ns other : Bytes) : Change s (s.addImport ns other)
  | addAlias (s : State) (ns short target : Bytes) : Change s (s.addAlias ns short target)
  | gensym (s : State) : Change s { s with gensyms := s.gensyms + 1 }
  | closures (s : State) (n : Nat) : Change s { s with closures := n }
  | emit (s : State) (e : Event) (hd : e.isDirectoryLine = false) (hc : e.isCreationLine = false) :
      Change s (s.emit e)
  | trans {s₁ s₂ s₃ : State} (h : Change s₁ s₂) (h' : Change s₂ s₃) : Change s₁ s₃

theorem Change.frames {s s' : State} (h : Change s s') : s'.frames = s.frames := by
  induction h with
  | require s name => exact s.require_frames name
  | trans _ _ ih ih' => exact ih'.trans ih
  | _ => rfl

def Action.inspect {α : Type} (f : State → Except Error α) : Action α := fun s =>
  match f s with
  | .ok a => .value a s
  | .error e => .failure e s

def State.found (s : State) (env : Env) (name : Bytes) : Except Error Term :=
  (s.lookup env name).mapError .runtime

theorem get_eq_inspect (env : Env) (name : Bytes) :
    env.get name = Action.inspect fun s => s.found env name := by
  funext s
  simp only [Env.get, Action.inspect, State.found]
  cases s.lookup env name <;> rfl

theorem found_plain (s : State) (env : Env) (name : Bytes) : Plain (s.found env name) := by
  unfold State.found
  cases s.lookup env name with
  | ok v => exact .ok v
  | error f => exact .error rfl

/-- Gives the innermost binding of a name in the frames of an environment another value. -/
def Action.assign (env : Env) (name : Bytes) (v : Term) : Action Unit := do
  match ← Action.read fun s => s.find? env name with
  | some frame => Action.update fun s => s.define frame name v
  | none => Action.fault (.notLocal name)

theorem assign_apply (env : Env) (name : Bytes) (v : Term) (s : State) :
    Action.assign env name v s =
      match s.find? env name with
      | some i => .value () (s.define i name v)
      | none => .failure (.runtime (.notLocal name)) s := by
  rw [Action.assign, Action.bind_apply, Action.read]
  dsimp only
  cases s.find? env name <;> rfl

/-- Actions composed of evaluations and of the ways in which the interpreter looks at its state and
changes it. In the frames of `own`, which the action has made itself, it may bind names; bindings of
other frames it changes only by assignments, and only if `assigns` is true. The errors that it
raises itself have no form attached, and it attaches none but list forms. -/
inductive Composed (assigns : Bool) : List Nat → {α : Type} → (Evaluate → Action α) → Prop
  | inspect {own : List Nat} {α : Type} (f : State → Except Error α) (hf : ∀ s, Plain (f s)) :
      Composed assigns own fun _ => Action.inspect f
  | timeout {own : List Nat} {α : Type} : Composed assigns own fun _ => (Action.timeout : Action α)
  | change {own : List Nat} (f : State → State) (hf : ∀ s, Change s (f s)) :
      Composed assigns own fun _ => Action.update f
  | define {own : List Nat} {i : Nat} (hi : i ∈ own) (name : Bytes) (v : Term) :
      Composed assigns own fun _ => Action.update fun s => s.define i name v
  | assign {own : List Nat} (ha : assigns = true) (env : Env) (name : Bytes) (v : Term) :
      Composed assigns own fun _ => Action.assign env name v
  | eval {own : List Nat} (t : Term) (env : Env) : Composed assigns own fun ev => ev t env
  | bind {own : List Nat} {α β : Type} {m : Evaluate → Action α} {f : α → Evaluate → Action β}
      (hm : Composed assigns own m) (hf : ∀ a, Composed assigns own (f a)) :
      Composed assigns own fun ev => m ev >>= fun a => f a ev
  | extend {own : List Nat} {β : Type} {f : Env → Evaluate → Action β} (frame : Table Term)
      (frames : List Nat) (ns : Bytes)
      (hf : ∀ i, Composed assigns (i :: own) (f ⟨i :: frames, ns⟩)) :
      Composed assigns own fun ev => Env.extend frame frames ns >>= fun env => f env ev
  | inForm {own : List Nat} {α : Type} {m : Evaluate → Action α} {form : Term}
      (hform : form.isForm = true) (hm : Composed assigns own m) :
      Composed assigns own fun ev => Action.inForm form (m ev)
  | inDirectory {own : List Nat} {α : Type} {m : Evaluate → Action α} (dir : Bytes)
      (hm : Composed assigns [] m) : Composed assigns own fun ev => Action.inDirectory dir (m ev)

namespace Composed

variable {assigns : Bool} {own : List Nat} {α β : Type}

theorem pure (a : α) : Composed assigns own fun _ => (Pure.pure a : Action α) :=
  .inspect (fun _ => .ok a) fun _ => .ok a

theorem fail {e : Error} (he : e.forms = []) :
    Composed assigns own fun _ => (Action.fail e : Action α) :=
  .inspect (fun _ => .error e) fun _ => .error he

theorem complain (c : Complaint) : Composed assigns own fun _ => (Action.complain c : Action α) :=
  fail rfl

theorem fault (f : RuntimeFault) : Composed assigns own fun _ => (Action.fault f : Action α) :=
  fail rfl

theorem read (f : State → α) : Composed assigns own fun _ => Action.read f :=
  .inspect (fun s => .ok (f s)) fun _ => .ok _

theorem ofExcept {r : Except Error α} (hr : Plain r) :
    Composed assigns own fun _ => Action.ofExcept r := by
  cases r with
  | ok a => exact pure a
  | error e => exact fail (hr e rfl)

theorem get (env : Env) (name : Bytes) : Composed assigns own fun _ => env.get name := by
  rw [get_eq_inspect]
  exact .inspect _ fun s => found_plain s env name

end Composed

/-! ## Evaluating the parts of a form -/

section Parts

variable {assigns : Bool} {own : List Nat}

theorem value_composed (t : Term) (env : Env) :
    Composed assigns own fun ev => ev.value t env :=
  .bind (.eval t env) fun p => .pure p.1

theorem values_composed (env : Env) (ts : List Term) :
    Composed assigns own fun ev => ev.values env ts := by
  induction ts with
  | nil => exact .pure []
  | cons t ts ih => exact .bind (value_composed t env) fun v => .bind ih fun vs => .pure (v :: vs)

theorem each_composed (env : Env) (ts : List Term) :
    Composed assigns own fun ev => ev.each env ts := by
  induction ts with
  | nil => exact .pure ()
  | cons t ts ih => exact .bind (value_composed t env) fun _ => ih

theorem enter_composed (f : Closure Term) (args : List Term) :
    Composed assigns own fun ev => f.enter ev args := by
  unfold Closure.enter
  split
  · exact .fault _
  · exact .extend _ _ _ fun i => .bind (each_composed _ _) fun _ => .pure _

theorem expand_composed (m : Closure Term) (args : List Term) :
    Composed assigns own fun ev => m.expand ev args :=
  .bind (enter_composed m args) fun r => value_composed r.2 r.1

theorem macroExpand_composed (env : Env) (fuel : Nat) (t : Term) :
    Composed assigns own fun ev => macroExpand ev env fuel t := by
  induction fuel generalizing t with
  | zero => exact .timeout
  | succ fuel ih =>
    match t with
    | .list (head :: args) =>
      refine .bind (.read _) fun m => ?_
      cases m with
      | none => exact .pure _
      | some m => exact .bind (.inForm rfl (expand_composed m args)) fun expanded => ih expanded
    | .list [] | .atom _ | .dict _ | .native _ | .closure _ => exact .pure _

/-! ## Making functions -/

theorem docString_composed (env : Env) (t : Term) :
    Composed assigns own fun ev => docString? ev env t := by
  unfold docString?
  split
  · exact .pure _
  · refine .bind (.get env _) fun v => ?_
    split <;> exact .pure _
  · split
    · exact .pure _
    · refine .bind (value_composed _ env) fun v => ?_
      split
      · exact .pure _
      · exact .complain _
  · exact .pure _

theorem listedNames_composed (t : Term) : Composed assigns own fun _ => listedNames t := by
  unfold listedNames
  split
  · split
    · exact .pure _
    · exact .complain _
  · exact .complain _

theorem paramNames_composed (env : Env) (t : Term) :
    Composed assigns own fun _ => paramNames env t := by
  unfold paramNames
  split
  · exact .bind (.get env _) listedNames_composed
  · exact listedNames_composed _

theorem makeClosure_composed (env : Env) (doc : Bytes) (params : Term) (body : List Term) :
    Composed assigns own fun _ => makeClosure env doc params body := by
  refine .bind (paramNames_composed env params) fun names => ?_
  split
  · exact .complain _
  · exact .bind (.read _) fun id => .bind (.change _ fun s => .closures s _) fun _ => .pure _

theorem makeFunction_composed (env : Env) (args : List Term) :
    Composed assigns own fun ev => makeFunction ev env args := by
  unfold makeFunction
  split
  · exact .complain _
  · exact makeClosure_composed env _ _ _
  · refine .bind (docString_composed env _) fun doc => ?_
    cases doc <;> exact makeClosure_composed env _ _ _

/-! ## Files -/

theorem look_composed (host : Host) (path : Bytes) :
    Composed assigns own fun _ => host.look path := by
  unfold Host.look
  split
  · exact .pure _
  · exact .fail rfl

theorem firstFile_composed (host : Host) (paths : List Bytes) :
    Composed assigns own fun _ => firstFile host paths := by
  induction paths with
  | nil => exact .pure none
  | cons path paths ih =>
    refine .bind (look_composed host path) fun e => ?_
    split
    · exact .pure _
    · exact ih

theorem fileForms_plain (file : Bytes) (contents : Except FileError Bytes) :
    Plain (fileForms file contents) := by
  cases contents with
  | error reason => exact .error rfl
  | ok src =>
    simp only [fileForms]
    cases parse src with
    | ok forms => exact .ok forms
    | error e => exact .error (ofParse_forms e)

theorem fileForms_eq_ok {file : Bytes} {contents : Except FileError Bytes} {forms : List Term}
    (h : fileForms file contents = .ok forms) :
    ∃ src, contents = .ok src ∧ parse src = .ok forms := by
  cases contents with
  | error reason => cases h
  | ok src =>
    have hforms : (parse src).mapError Error.ofParse = .ok forms := h
    cases hparse : parse src with
    | ok forms' =>
      rw [hparse] at hforms
      cases hforms
      exact ⟨src, rfl, hparse⟩
    | error e =>
      rw [hparse] at hforms
      cases hforms

theorem loadFound_composed (path : Bytes) (env : Env)
    (found : Option (Bytes × Except FileError Bytes)) :
    Composed assigns own fun ev => loadFound ev path env found := by
  cases found with
  | none => exact .fail rfl
  | some found =>
    simp only [loadFound]
    split
    · next e hforms =>
      have hplain : e.forms = [] := fileForms_plain _ _ e hforms
      exact .fail hplain
    · exact .bind (.change _ fun s => .emit s _ rfl rfl) fun _ =>
        .inDirectory _ (value_composed _ env)

theorem loadFile_composed (host : Host) (path : Bytes) (env : Env) :
    Composed assigns own fun ev => loadFile host ev path env :=
  .bind (.read _) fun _ => .bind (firstFile_composed host _) fun found =>
    loadFound_composed path env found

theorem loadText_composed (src : Bytes) (env : Env) :
    Composed assigns own fun ev => loadText ev src env := by
  unfold loadText
  split
  · exact .fail (ofParse_forms _)
  · exact value_composed _ env

theorem readFile_composed (host : Host) (path : Bytes) :
    Composed assigns own fun _ => readFile host path := by
  refine .bind (.read _) fun file => .bind (look_composed host file) fun e => ?_
  cases e.read with
  | ok contents => exact .pure _
  | error reason => exact .bind (.change _ fun s => .emit s _ rfl rfl) fun _ => .pure _

/-! ## Native functions -/

theorem write_composed (host : Host) (render : Term → Bytes) (ending : Bytes) (args : List Term) :
    Composed assigns own fun _ => Effect.write host render ending args := by
  unfold Effect.write
  split
  · exact .fail rfl
  · exact .bind (.change _ fun s => .emit s _ rfl rfl) fun _ => .pure _

theorem freshSymbol_composed (args : List Term) :
    Composed assigns own fun _ => Effect.freshSymbol args := by
  have hnumber (base : Bytes) : Composed assigns own fun _ =>
      (do
        Action.update fun s => { s with gensyms := s.gensyms + 1 }
        let n ← Action.read State.gensyms
        return .symbol (base ++ Bytes.ofNat n) : Action Term) :=
    .bind (.change _ fun s => .gensym s) fun _ => .bind (.read _) fun n => .pure _
  unfold Effect.freshSymbol
  dsimp only
  split
  · exact .bind (.pure _) hnumber
  · exact .bind (.ofExcept (Arguments.name_plain _ _)) hnumber
  · exact .bind (.ofExcept (.complain _)) hnumber

theorem importAll_composed (ns : Bytes) (args : List Term) :
    Composed assigns own fun _ => Effect.importAll ns args := by
  induction args with
  | nil => exact .pure ()
  | cons t ts ih =>
    exact .bind (.ofExcept (Arguments.name_plain _ t)) fun name =>
      .bind (.change _ fun s => .trans (.require s name) (.addImport _ ns name)) fun _ => ih

theorem addAlias_composed (env : Env) (args : List Term) :
    Composed assigns own fun _ => Effect.addAlias env args :=
  .bind (.ofExcept (Arguments.two_plain _ args)) fun ⟨t, u⟩ =>
    .bind (.ofExcept (Arguments.name_plain _ t)) fun short =>
      .bind (.ofExcept (Arguments.name_plain _ u)) fun name =>
        .bind (.change _ fun s => .trans (.require s name) (.addAlias _ env.ns short name))
          fun _ => .pure _

theorem namesIn_composed (name : Bytes) : Composed assigns own fun _ => Effect.namesIn name := by
  refine .bind (.read _) fun found => ?_
  cases found with
  | some ns => exact .pure _
  | none => exact .complain _

theorem publicNames_composed (env : Env) (args : List Term) :
    Composed assigns own fun _ => Effect.publicNames env args := by
  unfold Effect.publicNames
  split
  · exact namesIn_composed _
  · exact .bind (.ofExcept (Arguments.name_plain _ _)) namesIn_composed
  · exact .ofExcept (.complain _)

theorem effect_composed (host : Host) (env : Env) (e : Effect) (args : List Term) :
    Composed assigns own fun ev => e.call host ev env args := by
  cases e with
  | print => exact write_composed host _ _ args
  | println => exact write_composed host _ _ args
  | prn => exact write_composed host _ _ args
  | gensym => exact freshSymbol_composed args
  | eval => exact .bind (.ofExcept (Arguments.one_plain _ args)) fun t => value_composed t env
  | slurp =>
    exact .bind (.ofExcept (Arguments.one_plain _ args)) fun t =>
      .bind (.ofExcept (Arguments.string_plain _ t)) fun path => readFile_composed host path
  | load =>
    exact .bind (.ofExcept (Arguments.one_plain _ args)) fun t =>
      .bind (.ofExcept (Arguments.string_plain _ t)) fun path => loadFile_composed host path env
  | importNs =>
    simp only [Effect.call, Effect.importNamespaces]
    split
    · exact .complain _
    · exact .bind (importAll_composed env.ns args) fun _ => .pure _
  | aliasTo => exact addAlias_composed env args
  | nsName => exact .bind (.ofExcept (Arguments.none_plain _ args)) fun _ => .pure _
  | nsPublics => exact publicNames_composed env args

theorem native_composed (host : Host) (env : Env) (b : Builtin) (args : List Term) :
    Composed assigns own fun ev => b.call host ev env args := by
  cases b with
  | primitive p => exact .ofExcept (p.call_plain args)
  | effect e => exact effect_composed host env e args

end Parts

/-! ## Special forms -/

namespace Cursor

variable {assigns : Bool} {own : List Nat} (c : Cursor)

theorem define_composed (args : List Term) :
    Composed assigns own fun ev => c.define ev args := by
  unfold define
  split
  · exact .bind (value_composed _ c.env) fun v =>
      .bind (.change _ fun s => .bindRoot s _ _ v) fun _ => .pure _
  · exact .complain _
  · exact .complain _

theorem defineMacro_composed (args : List Term) :
    Composed assigns own fun ev => c.defineMacro ev args := by
  unfold defineMacro
  split
  · refine .bind (value_composed _ c.env) fun v => ?_
    split
    · exact .bind (.change _ fun s => .trans (.closures s _) (.bindRoot _ _ _ _)) fun _ => .pure _
    · exact .complain _
  · exact .complain _
  · exact .complain _

theorem bindAll_composed (env : Env) {frame : Nat} (hframe : frame ∈ own) :
    (bindings : List Term) → Composed assigns own fun ev => bindAll ev env frame bindings
  | [] => .pure ()
  | [t] => by
    simp only [bindAll]
    exact .pure ()
  | t :: form :: rest => by
    have ih : Composed assigns own fun ev => bindAll ev env frame rest :=
      bindAll_composed env hframe rest
    unfold bindAll
    split
    case h_1 name _ _ heq =>
      cases heq
      exact .bind (value_composed form env) fun v => .bind (.define hframe name v) fun _ => ih
    case h_2 => exact .complain _
    case h_3 => exact .pure ()

theorem letIn_composed (args : List Term) : Composed assigns own fun ev => c.letIn ev args := by
  unfold letIn
  split
  · exact .complain _
  · split
    · exact .complain _
    · refine .extend _ _ _ fun i => .bind (bindAll_composed _ List.mem_cons_self _) fun _ => ?_
      split
      · exact .pure _
      · exact .bind (each_composed _ _) fun _ => .pure _
  · exact .complain _

/-- A `set!` evaluates its value and then assigns it. -/
theorem assign_eq (ev : Evaluate) (name : Bytes) (form : Term) :
    c.assign ev [.symbol name, form] =
      ev.value form c.env >>= fun v => Action.assign c.env name v >>= fun _ => c.finish v := by
  funext s
  simp only [assign, Action.assign, Action.bind_apply, Action.read]
  cases ev.value form c.env s with
  | value v s₁ =>
    dsimp only
    cases s₁.find? c.env name <;> rfl
  | failure e s₁ => rfl
  | timeout => rfl

theorem assign_composed (args : List Term)
    (ha : ∀ name form, args = [.symbol name, form] → assigns = true) :
    Composed assigns own fun ev => c.assign ev args := by
  by_cases h : ∃ name form, args = [.symbol name, form]
  · obtain ⟨name, form, rfl⟩ := h
    simp only [assign_eq]
    exact .bind (value_composed form c.env) fun v =>
      .bind (.assign (ha name form rfl) c.env name v) fun _ => .pure _
  · unfold assign
    split
    · exact absurd ⟨_, _, rfl⟩ h
    · exact .complain _
    · exact .complain _

theorem call_composed (host : Host) (f : Term) (args : List Term) {e : Error} (he : e.forms = []) :
    Composed assigns own fun ev => c.call host ev f args (Action.fail e) := by
  unfold call
  split
  · exact .bind (native_composed host c.env _ args) fun _ => .pure _
  · exact .bind (enter_composed _ args) fun _ => .pure _
  · exact .fail he

theorem apply_composed (host : Host) (args : List Term) :
    Composed assigns own fun ev => c.apply host ev args := by
  unfold apply
  split
  · refine .bind (value_composed _ c.env) fun f => ?_
    split
    · refine .bind (value_composed _ c.env) fun l => ?_
      split
      · exact c.call_composed host f _ rfl
      · exact .complain _
    · exact .complain _
  · exact .complain _

theorem sequence_composed (args : List Term) :
    Composed assigns own fun ev => c.sequence ev args := by
  induction args generalizing c with
  | nil => exact .pure _
  | cons form forms ih =>
    cases forms with
    | nil => exact .pure _
    | cons next forms => exact .bind (.eval form c.env) fun p => ih (c.switch p.2)

theorem branch_composed (yes : Term) (no : Option Term) (v : Term) :
    Composed assigns own fun _ => c.branch yes no v := by
  unfold branch
  split
  · exact .pure _
  · cases no <;> exact .pure _
  · exact .complain _

theorem choose_composed (args : List Term) :
    Composed assigns own fun ev => c.choose ev args := by
  unfold choose
  split
  · exact .bind (value_composed _ c.env) fun v => c.branch_composed _ _ v
  · exact .bind (value_composed _ c.env) fun v => c.branch_composed _ _ v
  · exact .complain _

theorem whileTrue_composed (env : Env) (condition : Term) (body : List Term) (fuel : Nat)
    (result : Term) :
    Composed assigns own fun ev => whileTrue ev env condition body fuel result := by
  induction fuel generalizing result with
  | zero => exact .timeout
  | succ fuel ih =>
    refine .bind (value_composed condition env) fun v => ?_
    split
    · exact .bind (values_composed env body) fun vs => ih _
    · exact .pure _
    · exact .complain _

theorem loop_composed (fuel : Nat) (args : List Term) :
    Composed assigns own fun ev => c.loop ev fuel args := by
  unfold loop
  split
  · exact .bind (whileTrue_composed c.env _ _ fuel _) fun _ => .pure _
  · exact .complain _

theorem inNs_composed (args : List Term) : Composed assigns own fun ev => c.inNs ev args := by
  unfold inNs
  split
  · refine .bind ?_ fun name => .bind (.change _ fun s => .require s name) fun _ => .pure _
    unfold namespaceName
    split
    · exact .pure _
    · refine .bind (value_composed _ c.env) fun v => ?_
      split
      · exact .pure _
      · exact .pure _
      · exact .complain _
  · exact .complain _

theorem template_composed (args : List Term) : Composed assigns own fun _ => c.template args := by
  unfold template
  split
  · split
    · exact .pure _
    · exact .complain _
  · exact .complain _

theorem special_composed (host : Host) (fuel : Nat) (f : SpecialForm) (args : List Term)
    (ha : f = .assign → ∀ name form, args = [.symbol name, form] → assigns = true) :
    Composed assigns own fun ev => c.special host ev fuel f args := by
  cases f with
  | define => exact c.define_composed args
  | letIn => exact c.letIn_composed args
  | assign => exact c.assign_composed args (ha rfl)
  | apply => exact c.apply_composed host args
  | quote =>
    simp only [special]
    split
    · exact .pure _
    · exact .complain _
  | quasiquote => exact c.template_composed args
  | sequence => exact c.sequence_composed args
  | function => exact .bind (makeFunction_composed c.env args) fun _ => .pure _
  | choose => exact c.choose_composed args
  | loop => exact c.loop_composed fuel args
  | defineMacro => exact c.defineMacro_composed args
  | macroExpand =>
    simp only [special]
    split
    · exact .bind (macroExpand_composed c.env fuel _) fun _ => .pure _
    · exact .complain _
  | inNs => exact c.inNs_composed args

end Cursor

/-! ## A step -/

theorem evalAtom_composed {assigns : Bool} {own : List Nat} (env : Env) (t : Term) :
    Composed assigns own fun _ => evalAtom env t := by
  unfold evalAtom
  split
  · split
    · exact .pure _
    · exact .get env _
  · exact .pure _

theorem stepForm_composed {assigns : Bool} {own : List Nat} (host : Host) (fuel : Nat) (c : Cursor)
    (head : Term) (args : List Term)
    (ha : specialForm? head = some .assign →
      ∀ name form, args = [.symbol name, form] → assigns = true) :
    Composed assigns own fun ev => stepForm host ev fuel c head args := by
  refine .bind (.read _) fun m => ?_
  cases m with
  | some m => exact .bind (expand_composed m args) fun _ => .pure _
  | none =>
    dsimp only
    split
    case h_1 f hf => exact c.special_composed host fuel f args fun h => ha (h ▸ hf)
    case h_2 =>
      exact .bind (value_composed head c.env) fun f =>
        .bind (values_composed c.env args) fun vs => c.call_composed host f vs rfl

/-- Atoms are reported in a list form, if in any. -/
def Cursor.Proper (c : Cursor) : Prop := ∀ last, c.enclosing = some last → last.isForm = true

theorem step_composed {assigns : Bool} {own : List Nat} (host : Host) (fuel : Nat) {c : Cursor}
    (hc : c.Proper)
    (ha : ∀ head name value, c.form = .list [head, .symbol name, value] →
      specialForm? head = some .assign → assigns = true) :
    Composed assigns own fun ev => step host ev fuel c := by
  cases hf : c.form.isForm with
  | true =>
    match hform : c.form, hf with
    | .list (head :: args), _ =>
      simp only [step_form host _ fuel hform]
      refine .inForm (by rw [hform]; rfl) (stepForm_composed host fuel _ head args ?_)
      rintro hspecial name value rfl
      exact ha head name value hform hspecial
  | false =>
    have hatom : Composed assigns own fun _ => evalAtom c.env c.form :=
      evalAtom_composed c.env c.form
    unfold step
    split
    · simp_all [Term.isForm]
    · dsimp only
      split
      case h_1 last hlast => exact .bind (.inForm (hc last hlast) hatom) fun v => .pure _
      case h_2 => exact .bind hatom fun v => .pure _

def AtAssignment (c : Cursor) (s : State) (name : Bytes) (value : Term) : Prop :=
  ∃ head, c.form = .list [head, .symbol name, value] ∧ macroOf? s c.env head = none ∧
    specialForm? head = some .assign

/-- Away from a `set!`, what a step does is composed without assignments. -/
theorem step_composed_or_assignment (host : Host) (fuel : Nat) {c : Cursor} (hc : c.Proper)
    (s : State) :
    (∃ name value, AtAssignment c s name value) ∨
      ∃ m : Evaluate → Action Step, Composed false [] m ∧
        ∀ ev, step host ev fuel c s = m ev s := by
  by_cases h : ∃ head name value, c.form = .list [head, .symbol name, value] ∧
      specialForm? head = some .assign
  · obtain ⟨head, name, value, hform, hspecial⟩ := h
    cases hm : macroOf? s c.env head with
    | none => exact .inl ⟨name, value, head, hform, hm, hspecial⟩
    | some m =>
      right
      let d : Cursor := { c with enclosing := some c.form }
      let args := [Term.symbol name, value]
      refine ⟨fun ev => Action.inForm c.form (m.expand ev args >>= fun t => d.goOn t), ?_, ?_⟩
      · exact .inForm (by rw [hform]; rfl) (.bind (expand_composed m args) fun _ => .pure _)
      · intro ev
        have hexpand := stepForm_expand host ev fuel args (c := d) hm
        rw [step_form host ev fuel hform]
        simp only [Action.inForm]
        rw [hexpand]
  · right
    refine ⟨fun ev => step host ev fuel c, step_composed host fuel hc ?_, fun _ => rfl⟩
    intro head name value hform hspecial
    exact absurd ⟨head, name, value, hform, hspecial⟩ h

end SmallLisp

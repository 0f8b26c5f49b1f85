import SmallLisp.Proofs.Expansion
import SmallLisp.Proofs.Sequence

/-! Changes of namespace. An evaluation hands back the environment it was given, switched by the
`in-ns` forms that it ran at top level (`evalWith_switches`), so that the last of these decides the
namespace that the caller sees. Top level are the form itself, the elements of a `do`, the branch
taken of an `if`, and what a macro call or a template stands for, where these are at top level in
turn; what runs inside of any other form switches nothing. -/
namespace SmallLisp

def Env.switched (env : Env) (names : List Bytes) : Env :=
  names.foldl (fun env name => { env with ns := name }) env

theorem switched_append (env : Env) (names more : List Bytes) :
    env.switched (names ++ more) = (env.switched names).switched more :=
  List.foldl_append

/-- Forms with parts that are at top level if the form is, and `in-ns` itself. -/
def SpecialForm.isOpen : SpecialForm → Bool
  | .inNs | .sequence | .choose | .quasiquote => true
  | _ => false

mutual

/-- The evaluation of a form runs `in-ns` at top level with these names, in this order. -/
inductive Switches (host : Host) : Term → Env → State → List Bytes → Prop
  | atom {t : Term} {env : Env} {s : State} (h : t.isForm = false) : Switches host t env s []
  | closed {head : Term} {args : List Term} {env : Env} {s : State}
      (hm : macroOf? s env head = none) (hf : ∀ f ∈ specialForm? head, f.isOpen = false) :
      Switches host (.list (head :: args)) env s []
  | inNs {head t : Term} {env : Env} {s s' : State} {fuel : Nat} {name : Bytes}
      (hm : macroOf? s env head = none) (hf : specialForm? head = some .inNs)
      (hn : Cursor.namespaceName (evalWith host fuel) env t s = .value name s') :
      Switches host (.list [head, t]) env s [name]
  | expand {head t : Term} {args : List Term} {m : Closure Term} {env : Env} {s s' : State}
      {fuel : Nat} {names : List Bytes} (hm : macroOf? s env head = some m)
      (hx : m.expand (evalWith host fuel) args s = .value t s') (h : Switches host t env s' names) :
      Switches host (.list (head :: args)) env s names
  | template {head t built : Term} {env : Env} {s : State} {names : List Bytes}
      (hm : macroOf? s env head = none) (hf : specialForm? head = some .quasiquote)
      (hb : quasiquote t = .ok built) (h : Switches host built env s names) :
      Switches host (.list [head, t]) env s names
  | yes {head condition form : Term} {no : List Term} {env env' : Env} {s s' : State}
      {names : List Bytes} (hm : macroOf? s env head = none)
      (hf : specialForm? head = some .choose)
      (hc : Evaluates host condition env s (.value (.bool true, env') s'))
      (h : Switches host form env s' names) :
      Switches host (.list (head :: condition :: form :: no)) env s names
  | no {head condition yes form : Term} {env env' : Env} {s s' : State} {names : List Bytes}
      (hm : macroOf? s env head = none) (hf : specialForm? head = some .choose)
      (hc : Evaluates host condition env s (.value (.bool false, env') s'))
      (h : Switches host form env s' names) :
      Switches host (.list [head, condition, yes, form]) env s names
  | neither {head condition yes : Term} {env env' : Env} {s s' : State}
      (hm : macroOf? s env head = none) (hf : specialForm? head = some .choose)
      (hc : Evaluates host condition env s (.value (.bool false, env') s')) :
      Switches host (.list [head, condition, yes]) env s []
  | sequence {head : Term} {forms : List Term} {env env' : Env} {s s' : State} {names : List Bytes}
      (hm : macroOf? s env head = none) (hf : specialForm? head = some .sequence)
      (h : Completes host forms env s names env' s') :
      Switches host (.list (head :: forms)) env s names

/-- Forms at top level are evaluated one after the other, each with a value, and run `in-ns` at top
level with these names. -/
inductive Completes (host : Host) : List Term → Env → State → List Bytes → Env → State → Prop
  | nil {env : Env} {s : State} : Completes host [] env s [] env s
  | cons {t v : Term} {ts : List Term} {env env₁ env₂ : Env} {s s₁ s₂ : State}
      {names more : List Bytes} (h : Evaluates host t env s (.value (v, env₁) s₁))
      (hs : Switches host t env s names) (hts : Completes host ts env₁ s₁ more env₂ s₂) :
      Completes host (t :: ts) env s (names ++ more) env₂ s₂

end

/-! ## Forms that switch nothing -/

def Action.Gives {α : Type} (m : Action α) (p : α → Prop) : Prop :=
  ∀ s a s', m s = .value a s' → p a

namespace Action.Gives

theorem fail {α : Type} (e : Error) (p : α → Prop) : (Action.fail e).Gives p := by
  rintro s a s' ⟨⟩

theorem bind {α β : Type} {m : Action α} {f : α → Action β} {p : β → Prop}
    (h : ∀ a, (f a).Gives p) : (m >>= f).Gives p := by
  intro s b s' hs
  obtain ⟨a, s₁, -, hf⟩ := Action.bind_eq_value.mp hs
  exact h a s₁ b s' hf

end Action.Gives

/-- The step ends with the environment `out`, or goes on in a frame from which nothing else is
handed back. -/
def Step.Keeps (out : Env) : Step → Prop
  | .done _ out' => out' = out
  | .next d => d.top = false ∧ d.out = out

namespace Cursor

variable (c : Cursor) (host : Host) (ev : Evaluate)

theorem finish_keeps (v : Term) : (c.finish v).Gives (Step.Keeps c.out) := by
  rintro s a s' ⟨⟩
  rfl

theorem tail_keeps (env : Env) (form : Term) : (c.tail env form).Gives (Step.Keeps c.out) := by
  rintro s a s' ⟨⟩
  exact ⟨rfl, rfl⟩

theorem define_keeps (args : List Term) : (c.define ev args).Gives (Step.Keeps c.out) := by
  unfold define
  split
  · exact .bind fun _ => .bind fun _ => c.finish_keeps _
  · exact .fail _ _
  · exact .fail _ _

theorem defineMacro_keeps (args : List Term) :
    (c.defineMacro ev args).Gives (Step.Keeps c.out) := by
  unfold defineMacro
  split
  · refine .bind fun v => ?_
    split
    · exact .bind fun _ => c.finish_keeps _
    · exact .fail _ _
  · exact .fail _ _
  · exact .fail _ _

theorem letIn_keeps (args : List Term) : (c.letIn ev args).Gives (Step.Keeps c.out) := by
  unfold letIn
  split
  · exact .fail _ _
  · split
    · exact .fail _ _
    · refine .bind fun env => .bind fun _ => ?_
      split
      · exact c.finish_keeps _
      · exact .bind fun _ => c.tail_keeps env _
  · exact .fail _ _

theorem assign_keeps (args : List Term) : (c.assign ev args).Gives (Step.Keeps c.out) := by
  unfold assign
  split
  · refine .bind fun v => .bind fun found => ?_
    cases found with
    | some frame => exact .bind fun _ => c.finish_keeps v
    | none => exact .fail _ _
  · exact .fail _ _
  · exact .fail _ _

theorem call_keeps (f : Term) (args : List Term) (e : Error) :
    (c.call host ev f args (Action.fail e)).Gives (Step.Keeps c.out) := by
  unfold call
  split
  · exact .bind fun v => c.finish_keeps v
  · exact .bind fun r => c.tail_keeps r.1 r.2
  · exact .fail _ _

theorem apply_keeps (args : List Term) : (c.apply host ev args).Gives (Step.Keeps c.out) := by
  unfold apply
  split
  · refine .bind fun f => ?_
    split
    · refine .bind fun l => ?_
      split
      · exact call_keeps c host ev f _ _
      · exact .fail _ _
    · exact .fail _ _
  · exact .fail _ _

theorem loop_keeps (fuel : Nat) (args : List Term) :
    (c.loop ev fuel args).Gives (Step.Keeps c.out) := by
  unfold loop
  split
  · exact .bind fun v => c.finish_keeps v
  · exact .fail _ _

theorem special_keeps (fuel : Nat) {f : SpecialForm} (hf : f.isOpen = false) (args : List Term) :
    (c.special host ev fuel f args).Gives (Step.Keeps c.out) := by
  cases f with
  | define => exact c.define_keeps ev args
  | letIn => exact c.letIn_keeps ev args
  | assign => exact c.assign_keeps ev args
  | apply => exact c.apply_keeps host ev args
  | quote =>
    simp only [special]
    split
    · exact c.finish_keeps _
    · exact .fail _ _
  | function => exact .bind fun v => c.finish_keeps v
  | loop => exact c.loop_keeps ev fuel args
  | defineMacro => exact c.defineMacro_keeps ev args
  | macroExpand =>
    simp only [special]
    split
    · exact .bind fun v => c.finish_keeps v
    · exact .fail _ _
  | quasiquote | sequence | choose | inNs => cases hf

end Cursor

/-- A form whose parts are not at top level hands back what it was given. -/
theorem stepForm_keeps (host : Host) (ev : Evaluate) (fuel : Nat) (c : Cursor) {head : Term}
    (args : List Term) {s s' : State} {r : Step} (hm : macroOf? s c.env head = none)
    (hf : ∀ f ∈ specialForm? head, f.isOpen = false)
    (h : stepForm host ev fuel c head args s = .value r s') : r.Keeps c.out := by
  cases hspecial : specialForm? head with
  | some f =>
    rw [stepForm_special host ev fuel args hm hspecial] at h
    exact c.special_keeps host ev fuel (hf f hspecial) args s r s' h
  | none =>
    rw [stepForm_apply host ev fuel args hm hspecial] at h
    have hkeeps : (applyForm host ev c head args).Gives (Step.Keeps c.out) :=
      .bind fun f => .bind fun vs => c.call_keeps host ev f vs _
    exact hkeeps s r s' h

theorem finishRun_keeps {host : Host} {fuel : Nat} {r : Step} {env env' : Env} {s s' : State}
    {v : Term} (hr : r.Keeps env) (h : finishRun host fuel (.value r s) = .value (v, env') s') :
    env' = env := by
  cases r with
  | done w out =>
    cases h
    exact hr
  | next d =>
    obtain ⟨htop, hout⟩ := hr
    have hco : d.Coherent := fun ht => by rw [htop] at ht; cases ht
    have hheld : d.held = some env := by simp [Cursor.held, htop, hout]
    have hrun : run host fuel d s = .value (v, env') s' := h
    rw [run_eq_handBack host fuel hco s, hheld] at hrun
    cases hfresh : evalWith host fuel d.form d.env s with
    | value p s₁ => rw [hfresh] at hrun; cases hrun; rfl
    | failure e s₁ => rw [hfresh] at hrun; cases hrun
    | timeout => rw [hfresh] at hrun; cases hrun

/-! ## What an evaluation hands back -/

theorem inForm_eq_value {α : Type} {form : Term} {m : Action α} {s s' : State} {a : α} :
    Action.inForm form m s = .value a s' ↔ m s = .value a s' := by
  unfold Action.inForm
  cases m s <;> simp

theorem value_of_finishRun {host : Host} {fuel : Nat} {o : Outcome Step} {s' : State}
    {p : Term × Env} (h : finishRun host fuel o = .value p s') : ∃ r s, o = .value r s := by
  cases o with
  | value r s => exact ⟨r, s, rfl⟩
  | failure e s => cases h
  | timeout => cases h

/-- An evaluation of a list form that ends with a value has taken a step and finished the loop. -/
theorem evalWith_form_value {host : Host} {fuel : Nat} {head : Term} {args : List Term} {env : Env}
    {s s' : State} {p : Term × Env}
    (h : evalWith host (fuel + 1) (.list (head :: args)) env s = .value p s') :
    ∃ r s₁, stepForm host (evalWith host fuel) fuel
        ⟨.list (head :: args), env, env, true, some (.list (head :: args))⟩ head args s =
          .value r s₁ ∧
      finishRun host fuel (.value r s₁) = .value p s' := by
  rw [evalWith, run_eq_finishRun, step_form host _ fuel rfl] at h
  obtain ⟨r, s₁, hstep⟩ := value_of_finishRun h
  exact ⟨r, s₁, inForm_eq_value.mp hstep, hstep ▸ h⟩

/-- A loop that goes on at top level ends as a fresh evaluation there. -/
theorem finishRun_goOn {host : Host} {fuel : Nat} {form t : Term} {env : Env} {s s' : State}
    {p : Term × Env}
    (h : finishRun host fuel (.value (.next ⟨t, env, env, true, some form⟩) s) = .value p s') :
    evalWith host fuel t env s = .value p s' :=
  inForm_eq_value.mp ((run_last host fuel form t env s).symm.trans h)

theorem evaluates_of_evalWith {host : Host} {fuel : Nat} {t : Term} {env : Env} {s s' : State}
    {p : Term × Env} (h : evalWith host fuel t env s = .value p s') :
    Evaluates host t env s (.value p s') := ⟨nofun, fuel, h⟩

/-- The environment handed back by evaluations with so much fuel is switched by what they run at top
level. -/
def HandsBack (host : Host) (fuel : Nat) : Prop :=
  ∀ (t : Term) (env : Env) (s : State) (v : Term) (env' : Env) (s' : State),
    evalWith host fuel t env s = .value (v, env') s' →
      ∃ names, Switches host t env s names ∧ env' = env.switched names

theorem inTurn_completes {host : Host} {fuel : Nat} (ih : HandsBack host fuel) {forms : List Term}
    {v w : Term} {env env' : Env} {s s' : State}
    (h : (evalWith host fuel).inTurn forms w env s = .value (v, env') s') :
    ∃ names, Completes host forms env s names env' s' ∧ env' = env.switched names := by
  induction forms generalizing w env s with
  | nil =>
    cases h
    exact ⟨[], .nil, rfl⟩
  | cons t ts ihts =>
    rw [inTurn_cons] at h
    cases ht : evalWith host fuel t env s with
    | failure e s₁ => simp [ht] at h
    | timeout => simp [ht] at h
    | value p s₁ =>
      simp only [ht] at h
      obtain ⟨names, hnames, henv⟩ := ih t env s p.1 p.2 s₁ ht
      obtain ⟨more, hmore, hlast⟩ := ihts h
      refine ⟨names ++ more, .cons (evaluates_of_evalWith ht) hnames hmore, ?_⟩
      rw [switched_append, ← henv, hlast]

theorem value_eq_value {ev : Evaluate} {t v : Term} {env : Env} {s s' : State}
    (h : ev.value t env s = .value v s') : ∃ env', ev t env s = .value (v, env') s' := by
  obtain ⟨p, s₁, hp, hv⟩ := Action.bind_eq_value.mp h
  cases hv
  exact ⟨p.2, hp⟩

section

variable {host : Host} {fuel : Nat} {head : Term} {args : List Term} {env env' : Env}
  {s s' : State} {v : Term}

theorem inNs_switches (hm : macroOf? s env head = none) (hf : specialForm? head = some .inNs)
    (h : evalWith host (fuel + 1) (.list (head :: args)) env s = .value (v, env') s') :
    ∃ names, Switches host (.list (head :: args)) env s names ∧ env' = env.switched names := by
  obtain ⟨r, s₁, hstep, hfinish⟩ := evalWith_form_value h
  rw [stepForm_special host _ fuel args hm hf] at hstep
  simp only [Cursor.special, Cursor.inNs] at hstep
  split at hstep
  case h_1 t =>
    obtain ⟨name, s₂, hname, hrest⟩ := Action.bind_eq_value.mp hstep
    obtain ⟨_, s₃, -, hdone⟩ := Action.bind_eq_value.mp hrest
    cases hdone
    cases hfinish
    exact ⟨[name], .inNs hm hf hname, rfl⟩
  case h_2 => cases hstep

theorem template_switches (ih : HandsBack host fuel) (hm : macroOf? s env head = none)
    (hf : specialForm? head = some .quasiquote)
    (h : evalWith host (fuel + 1) (.list (head :: args)) env s = .value (v, env') s') :
    ∃ names, Switches host (.list (head :: args)) env s names ∧ env' = env.switched names := by
  obtain ⟨r, s₁, hstep, hfinish⟩ := evalWith_form_value h
  rw [stepForm_special host _ fuel args hm hf] at hstep
  simp only [Cursor.special, Cursor.template] at hstep
  split at hstep
  case h_1 t =>
    cases hb : quasiquote t with
    | ok built =>
      simp only [hb] at hstep
      cases hstep
      obtain ⟨names, hnames, henv⟩ := ih _ _ _ _ _ _ (finishRun_goOn hfinish)
      exact ⟨names, .template hm hf hb hnames, henv⟩
    | error e =>
      simp only [hb] at hstep
      cases hstep
  case h_2 => cases hstep

theorem choose_eq_value {ev : Evaluate} {c : Cursor} {r : Step}
    (h : c.choose ev args s = .value r s') :
    ∃ condition yes no b s₁, args = condition :: yes :: no.toList ∧
      ev.value condition c.env s = .value b s₁ ∧ c.branch yes no b s₁ = .value r s' := by
  unfold Cursor.choose at h
  split at h
  case h_1 condition yes =>
    obtain ⟨b, s₁, hb, hbranch⟩ := Action.bind_eq_value.mp h
    exact ⟨condition, yes, none, b, s₁, rfl, hb, hbranch⟩
  case h_2 condition yes no =>
    obtain ⟨b, s₁, hb, hbranch⟩ := Action.bind_eq_value.mp h
    exact ⟨condition, yes, some no, b, s₁, rfl, hb, hbranch⟩
  case h_3 => cases h

theorem choose_switches (ih : HandsBack host fuel) (hm : macroOf? s env head = none)
    (hf : specialForm? head = some .choose)
    (h : evalWith host (fuel + 1) (.list (head :: args)) env s = .value (v, env') s') :
    ∃ names, Switches host (.list (head :: args)) env s names ∧ env' = env.switched names := by
  obtain ⟨r, s₁, hstep, hfinish⟩ := evalWith_form_value h
  rw [stepForm_special host _ fuel args hm hf] at hstep
  obtain ⟨condition, yes, no, b, s₂, rfl, hb, hbranch⟩ := choose_eq_value hstep
  obtain ⟨env₁, hb⟩ := value_eq_value hb
  have hcondition := evaluates_of_evalWith hb
  unfold Cursor.branch at hbranch
  split at hbranch
  case h_1 =>
    cases hbranch
    obtain ⟨names, hnames, henv⟩ := ih _ _ _ _ _ _ (finishRun_goOn hfinish)
    exact ⟨names, .yes hm hf hcondition hnames, henv⟩
  case h_2 =>
    cases no with
    | none =>
      cases hbranch
      cases hfinish
      exact ⟨[], .neither hm hf hcondition, rfl⟩
    | some form =>
      cases hbranch
      obtain ⟨names, hnames, henv⟩ := ih _ _ _ _ _ _ (finishRun_goOn hfinish)
      exact ⟨names, .no hm hf hcondition hnames, henv⟩
  case h_3 => cases hbranch

theorem sequence_switches (ih : HandsBack host fuel) (hm : macroOf? s env head = none)
    (hf : specialForm? head = some .sequence)
    (h : evalWith host (fuel + 1) (.list (head :: args)) env s = .value (v, env') s') :
    ∃ names, Switches host (.list (head :: args)) env s names ∧ env' = env.switched names := by
  rw [evalWith_do host fuel hm hf] at h
  obtain ⟨names, hnames, henv⟩ := inTurn_completes ih (inForm_eq_value.mp h)
  exact ⟨names, .sequence hm hf hnames, henv⟩

theorem expand_switches (ih : HandsBack host fuel) {m : Closure Term}
    (hm : macroOf? s env head = some m)
    (h : evalWith host (fuel + 1) (.list (head :: args)) env s = .value (v, env') s') :
    ∃ names, Switches host (.list (head :: args)) env s names ∧ env' = env.switched names := by
  obtain ⟨r, s₁, hstep, hfinish⟩ := evalWith_form_value h
  rw [stepForm_expand host _ fuel args hm] at hstep
  obtain ⟨t, s₂, hx, hnext⟩ := Action.bind_eq_value.mp hstep
  cases hnext
  obtain ⟨names, hnames, henv⟩ := ih _ _ _ _ _ _ (finishRun_goOn hfinish)
  exact ⟨names, .expand hm hx hnames, henv⟩

theorem closed_switches (hm : macroOf? s env head = none)
    (hf : ∀ f ∈ specialForm? head, f.isOpen = false)
    (h : evalWith host (fuel + 1) (.list (head :: args)) env s = .value (v, env') s') :
    ∃ names, Switches host (.list (head :: args)) env s names ∧ env' = env.switched names := by
  obtain ⟨r, s₁, hstep, hfinish⟩ := evalWith_form_value h
  have hkeeps := stepForm_keeps host _ fuel _ args hm hf hstep
  exact ⟨[], .closed hm hf, finishRun_keeps hkeeps hfinish⟩

end

theorem atom_switches {host : Host} {fuel : Nat} {t v : Term} {env env' : Env} {s s' : State}
    (ht : t.isForm = false) (h : evalWith host (fuel + 1) t env s = .value (v, env') s') :
    ∃ names, Switches host t env s names ∧ env' = env.switched names := by
  refine ⟨[], .atom ht, ?_⟩
  have hatom := step_atom host (evalWith host fuel) fuel (c := Cursor.start t env) ht s
  rw [evalWith, run_succ, hatom] at h
  cases ha : evalAtom (Cursor.start t env).env (Cursor.start t env).form s with
  | value w s₁ => simp only [ha] at h; cases h; rfl
  | failure e s₁ => simp [ha] at h
  | timeout => simp [ha] at h

/-- An evaluation hands back its environment, switched by the `in-ns` forms that it ran at top
level. -/
theorem evalWith_switches (host : Host) (fuel : Nat) : HandsBack host fuel := by
  induction fuel with
  | zero =>
    intro t env s v env' s' h
    cases h
  | succ fuel ih =>
    intro t env s v env' s' h
    cases ht : t.isForm with
    | false => exact atom_switches ht h
    | true =>
      match t, ht with
      | .list (head :: args), _ =>
        cases hm : macroOf? s env head with
        | some m => exact expand_switches ih hm h
        | none =>
          -- of the special forms only four have parts at top level
          by_cases hopen : ∀ f ∈ specialForm? head, f.isOpen = false
          · exact closed_switches hm hopen h
          · obtain ⟨f, hf, hf'⟩ : ∃ f, specialForm? head = some f ∧ f.isOpen = true := by
              simpa using hopen
            cases f with
            | inNs => exact inNs_switches hm hf h
            | sequence => exact sequence_switches ih hm hf h
            | choose => exact choose_switches ih hm hf h
            | quasiquote => exact template_switches ih hm hf h
            | _ => cases hf'

/-! ## What runs at top level is determined -/

theorem namespaceName_unique {host : Host} {fuel fuel' : Nat} {env : Env} {t : Term}
    {s s₁ s₂ : State} {name name' : Bytes}
    (h : Cursor.namespaceName (evalWith host fuel) env t s = .value name s₁)
    (h' : Cursor.namespaceName (evalWith host fuel') env t s = .value name' s₂) : name = name' := by
  have hmono {n k : Nat} (hle : n ≤ k) :
      (Cursor.namespaceName (evalWith host n) env t).Below
        (Cursor.namespaceName (evalWith host k) env t) :=
    namespaceName_below (evalWith_below host hle) env t
  have hends : Cursor.namespaceName (evalWith host fuel) env t s ≠ .timeout := by
    rw [h]
    exact nofun
  have hends' : Cursor.namespaceName (evalWith host fuel') env t s ≠ .timeout := by
    rw [h']
    exact nofun
  have hsame := Action.Below.agree hmono hends hends'
  rw [h, h'] at hsame
  cases hsame
  rfl

theorem expand_unique {host : Host} {fuel fuel' : Nat} {m : Closure Term} {args : List Term}
    {s s₁ s₂ : State} {t t' : Term} (h : m.expand (evalWith host fuel) args s = .value t s₁)
    (h' : m.expand (evalWith host fuel') args s = .value t' s₂) : t = t' ∧ s₁ = s₂ := by
  have hlarge := expand_mono h nofun (Nat.le_max_left fuel fuel')
  rw [expand_mono h' nofun (Nat.le_max_right fuel fuel')] at hlarge
  cases hlarge
  exact ⟨rfl, rfl⟩

theorem condition_unique {host : Host} {t : Term} {b b' : Bool} {env env₁ env₂ : Env}
    {s s₁ s₂ : State} (h : Evaluates host t env s (.value (.bool b, env₁) s₁))
    (h' : Evaluates host t env s (.value (.bool b', env₂) s₂)) : b = b' ∧ s₁ = s₂ := by
  cases returns_unique h h'
  exact ⟨rfl, rfl⟩

mutual

/-- What a form runs at top level is determined by the environment and the state. -/
theorem Switches.unique {host : Host} {t : Term} {env : Env} {s : State}
    {names names' : List Bytes} :
    Switches host t env s names → Switches host t env s names' → names = names'
  | .atom ht, h' => by
    cases h' with
    | atom _ => rfl
    | _ => cases ht
  | .closed hm hf, h' => by
    cases h' with
    | closed _ _ => rfl
    | atom ht => cases ht
    | _ => simp_all [SpecialForm.isOpen]
  | .inNs hm hf hn, h' => by
    cases h' with
    | inNs _ _ hn' => rw [namespaceName_unique hn hn']
    | atom ht => cases ht
    | _ => simp_all [SpecialForm.isOpen]
  | .expand hm hx h, h' => by
    cases h' with
    | expand hm' hx' h' =>
      cases hm.symm.trans hm'
      obtain ⟨rfl, rfl⟩ := expand_unique hx hx'
      exact Switches.unique h h'
    | atom ht => cases ht
    | _ => simp_all
  | .template hm hf hb h, h' => by
    cases h' with
    | template _ _ hb' h' =>
      cases hb.symm.trans hb'
      exact Switches.unique h h'
    | atom ht => cases ht
    | _ => simp_all [SpecialForm.isOpen]
  | .yes hm hf hc h, h' => by
    cases h' with
    | yes _ _ hc' h' =>
      obtain ⟨-, rfl⟩ := condition_unique hc hc'
      exact Switches.unique h h'
    | no _ _ hc' _ => cases (condition_unique hc hc').1
    | neither _ _ hc' => cases (condition_unique hc hc').1
    | atom ht => cases ht
    | _ => simp_all [SpecialForm.isOpen]
  | .no hm hf hc h, h' => by
    cases h' with
    | no _ _ hc' h' =>
      obtain ⟨-, rfl⟩ := condition_unique hc hc'
      exact Switches.unique h h'
    | yes _ _ hc' _ => cases (condition_unique hc hc').1
    | atom ht => cases ht
    | _ => simp_all [SpecialForm.isOpen]
  | .neither hm hf hc, h' => by
    cases h' with
    | neither _ _ _ => rfl
    | yes _ _ hc' _ => cases (condition_unique hc hc').1
    | atom ht => cases ht
    | _ => simp_all [SpecialForm.isOpen]
  | .sequence hm hf h, h' => by
    cases h' with
    | sequence _ _ h' => exact Completes.unique h h'
    | atom ht => cases ht
    | _ => simp_all [SpecialForm.isOpen]

theorem Completes.unique {host : Host} {ts : List Term} {env env₁ env₂ : Env} {s s₁ s₂ : State}
    {names names' : List Bytes} : Completes host ts env s names env₁ s₁ →
      Completes host ts env s names' env₂ s₂ → names = names'
  | .nil, h' => by
    cases h'
    rfl
  | .cons h hs hts, h' => by
    cases h' with
    | cons h' hs' hts' =>
      cases returns_unique h h'
      rw [Switches.unique hs hs', Completes.unique hts hts']

end

/-! ## What the caller sees -/

/-- The frames stay, and the last switch decides the namespace. -/
theorem switched_eq (env : Env) (names : List Bytes) :
    env.switched names = ⟨env.frames, names.getLastD env.ns⟩ := by
  induction names generalizing env with
  | nil => rfl
  | cons name names ih =>
    have hfirst : env.switched (name :: names) = (Env.mk env.frames name).switched names := rfl
    rw [hfirst, ih, List.getLastD_cons]

/-- An evaluation that ends with a value hands back an environment with the frames that it was
given, in the namespace of the last `in-ns` that it ran at top level, or in its own if it ran none.
A form that is no macro call and has no parts at top level hands back the environment as it was,
whatever runs inside of it. -/
theorem caller_sees_last_switch {host : Host} {form v : Term} {env env' : Env} {s s' : State}
    (h : Evaluates host form env s (.value (v, env') s')) :
    ∃ names, (∀ names', Switches host form env s names' ↔ names' = names) ∧
      env'.frames = env.frames ∧ env'.ns = names.getLastD env.ns ∧
      ∀ head args, form = .list (head :: args) → macroOf? s env head = none →
        (∀ f ∈ specialForm? head, f.isOpen = false) → env' = env := by
  obtain ⟨-, fuel, hfuel⟩ := h
  obtain ⟨names, hnames, henv⟩ := evalWith_switches host fuel form env s v env' s' hfuel
  rw [switched_eq] at henv
  subst henv
  refine ⟨names, fun names' => ⟨fun h' => h'.unique hnames, fun h' => h' ▸ hnames⟩, rfl, rfl, ?_⟩
  rintro head args rfl hm hf
  have hnone : names = [] := hnames.unique (.closed hm hf)
  rw [hnone]
  rfl

/-- `(do (in-ns a) (if true (in-ns b)) (let () (in-ns c)))` -/
def threeSwitches : Term :=
  .list [.sym "do", .list [.sym "in-ns", .sym "a"],
    .list [.sym "if", .sym "true", .list [.sym "in-ns", .sym "b"]],
    .list [.sym "let", .list [], .list [.sym "in-ns", .sym "c"]]]

/-- The branch of the `if` is at top level, the body of the `let` is not: of three switches the
caller sees the second. -/
theorem threeSwitches_seen :
    let state :=
      ((State.empty.require (Bytes.ofString "a")).require (Bytes.ofString "b")).addFrame []
    let outcome : Outcome (Term × Env) :=
      .value (.sym "c", ⟨[], Bytes.ofString "b"⟩) (state.require (Bytes.ofString "c"))
    Evaluates Host.bare threeSwitches ⟨[], []⟩ State.empty outcome ∧
      ∃ names, Switches Host.bare threeSwitches ⟨[], []⟩ State.empty names ∧
        names.getLastD [] = Bytes.ofString "b" := by
  intro state outcome
  have heval : Evaluates Host.bare threeSwitches ⟨[], []⟩ State.empty outcome := ⟨nofun, 5, rfl⟩
  obtain ⟨names, hnames, -, hns, -⟩ := caller_sees_last_switch heval
  exact ⟨heval, names, (hnames names).mpr rfl, hns.symm⟩

end SmallLisp

import SmallLisp.Eval

/-! Fuel bounds an evaluation but does not steer it: an evaluation that ends does so with the same
outcome under every larger amount. Each part of the evaluator is monotone in the evaluation of
subterms that it is given, hence so are a step (`step_below`) and the loop (`run_below`), and the
outcome of an evaluation is one (`returns_unique`). -/
namespace SmallLisp

/-- Wherever `m` ends, `m'` ends with the same outcome. -/
def Action.Below {α : Type} (m m' : Action α) : Prop := ∀ s, m s = .timeout ∨ m s = m' s

namespace Action.Below

theorem refl {α : Type} (m : Action α) : m.Below m := fun _ => .inr rfl

theorem timeout {α : Type} (m : Action α) : Action.timeout.Below m := fun _ => .inl rfl

theorem bind {α β : Type} {m m' : Action α} {f f' : α → Action β} (hm : m.Below m')
    (hf : ∀ a, (f a).Below (f' a)) : (m >>= f).Below (m' >>= f') := by
  intro s
  rw [Action.bind_apply, Action.bind_apply]
  rcases hm s with h | h
  · left
    simp only [h]
  · simp only [← h]
    cases m s with
    | value a s => exact hf a s
    | failure e s => exact .inr rfl
    | timeout => exact .inl rfl

theorem inForm {α : Type} {m m' : Action α} (form : Term) (h : m.Below m') :
    (Action.inForm form m).Below (Action.inForm form m') := by
  intro s
  rcases h s with h | h
  · left
    simp only [Action.inForm, h]
  · right
    simp only [Action.inForm, h]

theorem inDirectory {α : Type} {m m' : Action α} (dir : Bytes) (h : m.Below m') :
    (Action.inDirectory dir m).Below (Action.inDirectory dir m') := by
  intro s
  rcases h (Action.enterDirectory dir s) with h | h
  · left
    simp only [Action.inDirectory, h]
  · right
    simp only [Action.inDirectory, h]

end Action.Below

/-- Every evaluation that ends under `ev` ends with the same outcome under `ev'`. -/
def Evaluate.Below (ev ev' : Evaluate) : Prop := ∀ t env, (ev t env).Below (ev' t env)

/-! ## The parts of a step -/

section Parts

variable {ev ev' : Evaluate} (h : ev.Below ev')
include h

theorem value_below (t : Term) (env : Env) : (ev.value t env).Below (ev'.value t env) :=
  .bind (h t env) fun _ => .refl _

theorem values_below (env : Env) (ts : List Term) :
    (ev.values env ts).Below (ev'.values env ts) := by
  induction ts with
  | nil => exact .refl _
  | cons t ts ih => exact .bind (value_below h t env) fun _ => .bind ih fun _ => .refl _

theorem each_below (env : Env) (ts : List Term) : (ev.each env ts).Below (ev'.each env ts) := by
  induction ts with
  | nil => exact .refl _
  | cons t ts ih => exact .bind (value_below h t env) fun _ => ih

theorem enter_below (f : Closure Term) (args : List Term) :
    (f.enter ev args).Below (f.enter ev' args) := by
  unfold Closure.enter
  split
  · exact .refl _
  · exact .bind (.refl _) fun env => .bind (each_below h env _) fun _ => .refl _

theorem expand_below (m : Closure Term) (args : List Term) :
    (m.expand ev args).Below (m.expand ev' args) :=
  .bind (enter_below h m args) fun _ => value_below h _ _

theorem macroExpand_below (env : Env) {fuel fuel' : Nat} (hf : fuel ≤ fuel') (t : Term) :
    (macroExpand ev env fuel t).Below (macroExpand ev' env fuel' t) := by
  induction fuel generalizing fuel' t with
  | zero => exact .timeout _
  | succ fuel ih =>
    obtain ⟨more, rfl⟩ : ∃ more, fuel' = more + 1 := ⟨fuel' - 1, by omega⟩
    match t with
    | .list (head :: args) =>
      refine .bind (.refl _) fun m => ?_
      cases m with
      | none => exact .refl _
      | some m =>
        exact .bind (.inForm _ (expand_below h m args)) fun _ => ih (Nat.le_of_succ_le_succ hf) _
    | .list [] | .atom _ | .dict _ | .native _ | .closure _ => exact .refl _

theorem docString_below (env : Env) (t : Term) :
    (docString? ev env t).Below (docString? ev' env t) := by
  unfold docString?
  split
  · exact .refl _
  · exact .refl _
  · split
    · exact .refl _
    · exact .bind (value_below h _ env) fun _ => .refl _
  · exact .refl _

theorem makeFunction_below (env : Env) (args : List Term) :
    (makeFunction ev env args).Below (makeFunction ev' env args) := by
  unfold makeFunction
  split
  · exact .refl _
  · exact .refl _
  · exact .bind (docString_below h env _) fun _ => .refl _

theorem loadFound_below (path : Bytes) (env : Env)
    (found : Option (Bytes × Except FileError Bytes)) :
    (loadFound ev path env found).Below (loadFound ev' path env found) := by
  cases found with
  | none => exact .refl _
  | some found =>
    simp only [loadFound]
    split
    · exact .refl _
    · exact .bind (.refl _) fun _ => .inDirectory _ (value_below h _ env)

theorem loadFile_below (host : Host) (path : Bytes) (env : Env) :
    (loadFile host ev path env).Below (loadFile host ev' path env) :=
  .bind (.refl _) fun _ => .bind (.refl _) fun found => loadFound_below h path env found

theorem call_below (host : Host) (env : Env) (b : Builtin) (args : List Term) :
    (b.call host ev env args).Below (b.call host ev' env args) := by
  cases b with
  | primitive p => exact .refl _
  | effect e =>
    cases e with
    | eval => exact .bind (.refl _) fun t => value_below h t env
    | load =>
      exact .bind (.refl _) fun _ => .bind (.refl _) fun path => loadFile_below h host path env
    | _ => exact .refl _

theorem namespaceName_below (env : Env) (t : Term) :
    (Cursor.namespaceName ev env t).Below (Cursor.namespaceName ev' env t) := by
  unfold Cursor.namespaceName
  split
  · exact .refl _
  · exact .bind (value_below h t env) fun _ => .refl _

theorem bindAll_below (env : Env) (frame : Nat) (bindings : List Term) :
    (Cursor.bindAll ev env frame bindings).Below (Cursor.bindAll ev' env frame bindings) := by
  fun_induction Cursor.bindAll ev env frame bindings with
  | case1 name form rest ih =>
    exact .bind (value_below h form env) fun _ => .bind (.refl _) fun _ => ih
  | case2 t form rest ht =>
    rw [Cursor.bindAll.eq_2 ev' env frame t form rest ht]
    exact .refl _
  | case3 bindings hs ht =>
    rw [Cursor.bindAll.eq_3 ev' env frame bindings hs ht]
    exact .refl _

theorem whileTrue_below (env : Env) (condition : Term) (body : List Term) {fuel fuel' : Nat}
    (hf : fuel ≤ fuel') (result : Term) :
    (Cursor.whileTrue ev env condition body fuel result).Below
      (Cursor.whileTrue ev' env condition body fuel' result) := by
  induction fuel generalizing fuel' result with
  | zero => exact .timeout _
  | succ fuel ih =>
    obtain ⟨more, rfl⟩ : ∃ more, fuel' = more + 1 := ⟨fuel' - 1, by omega⟩
    refine .bind (value_below h condition env) fun v => ?_
    split
    · exact .bind (values_below h env body) fun _ => ih (Nat.le_of_succ_le_succ hf) _
    · exact .refl _
    · exact .refl _

end Parts

/-! ## A step and the loop -/

namespace Cursor

variable {ev ev' : Evaluate} (h : ev.Below ev') (c : Cursor)
include h

theorem define_below (args : List Term) : (c.define ev args).Below (c.define ev' args) := by
  unfold define
  split
  · exact .bind (value_below h _ c.env) fun _ => .refl _
  · exact .refl _
  · exact .refl _

theorem defineMacro_below (args : List Term) :
    (c.defineMacro ev args).Below (c.defineMacro ev' args) := by
  unfold defineMacro
  split
  · exact .bind (value_below h _ c.env) fun _ => .refl _
  · exact .refl _
  · exact .refl _

theorem letIn_below (args : List Term) : (c.letIn ev args).Below (c.letIn ev' args) := by
  unfold letIn
  split
  · exact .refl _
  · split
    · exact .refl _
    · refine .bind (.refl _) fun env => .bind (bindAll_below h env _ _) fun _ => ?_
      split
      · exact .refl _
      · exact .bind (each_below h env _) fun _ => .refl _
  · exact .refl _

theorem assign_below (args : List Term) : (c.assign ev args).Below (c.assign ev' args) := by
  unfold assign
  split
  · exact .bind (value_below h _ c.env) fun _ => .refl _
  · exact .refl _
  · exact .refl _

theorem callBody_below (host : Host) (f : Term) (args : List Term) (otherwise : Action Step) :
    (c.call host ev f args otherwise).Below (c.call host ev' f args otherwise) := by
  unfold call
  split
  · exact .bind (call_below h host c.env _ args) fun _ => .refl _
  · exact .bind (enter_below h _ args) fun _ => .refl _
  · exact .refl _

theorem apply_below (host : Host) (args : List Term) :
    (c.apply host ev args).Below (c.apply host ev' args) := by
  unfold apply
  split
  · refine .bind (value_below h _ c.env) fun f => ?_
    split
    · refine .bind (value_below h _ c.env) fun l => ?_
      split
      · exact callBody_below h c host f _ _
      · exact .refl _
    · exact .refl _
  · exact .refl _

theorem sequence_below (args : List Term) : (c.sequence ev args).Below (c.sequence ev' args) := by
  fun_induction sequence c ev args with
  | case1 => exact .refl _
  | case2 => exact .refl _
  | case3 c form forms hne ih =>
    rw [sequence.eq_3 c ev' form forms hne]
    exact .bind (h form c.env) fun r => ih r.2

theorem choose_below (args : List Term) : (c.choose ev args).Below (c.choose ev' args) := by
  unfold choose
  split
  · exact .bind (value_below h _ c.env) fun _ => .refl _
  · exact .bind (value_below h _ c.env) fun _ => .refl _
  · exact .refl _

theorem loop_below {fuel fuel' : Nat} (hf : fuel ≤ fuel') (args : List Term) :
    (c.loop ev fuel args).Below (c.loop ev' fuel' args) := by
  unfold loop
  split
  · exact .bind (whileTrue_below h c.env _ _ hf _) fun _ => .refl _
  · exact .refl _

theorem inNs_below (args : List Term) : (c.inNs ev args).Below (c.inNs ev' args) := by
  unfold inNs
  split
  · exact .bind (namespaceName_below h c.env _) fun _ => .refl _
  · exact .refl _

theorem special_below (host : Host) {fuel fuel' : Nat} (hf : fuel ≤ fuel') (f : SpecialForm)
    (args : List Term) :
    (c.special host ev fuel f args).Below (c.special host ev' fuel' f args) := by
  cases f with
  | define => exact define_below h c args
  | letIn => exact letIn_below h c args
  | assign => exact assign_below h c args
  | apply => exact apply_below h c host args
  | quote => exact .refl _
  | quasiquote => exact .refl _
  | sequence => exact sequence_below h c args
  | function => exact .bind (makeFunction_below h c.env args) fun _ => .refl _
  | choose => exact choose_below h c args
  | loop => exact loop_below h c hf args
  | defineMacro => exact defineMacro_below h c args
  | macroExpand =>
    simp only [special]
    split
    · exact .bind (macroExpand_below h c.env hf _) fun _ => .refl _
    · exact .refl _
  | inNs => exact inNs_below h c args

end Cursor

theorem stepForm_below {ev ev' : Evaluate} (h : ev.Below ev') (host : Host) {fuel fuel' : Nat}
    (hf : fuel ≤ fuel') (c : Cursor) (head : Term) (args : List Term) :
    (stepForm host ev fuel c head args).Below (stepForm host ev' fuel' c head args) := by
  refine .bind (.refl _) fun m => ?_
  cases m with
  | some m => exact .bind (expand_below h m args) fun _ => .refl _
  | none =>
    dsimp only
    split
    · exact Cursor.special_below h c host hf _ args
    · exact .bind (value_below h head c.env) fun f =>
        .bind (values_below h c.env args) fun vs => Cursor.callBody_below h c host f vs _

theorem step_below {ev ev' : Evaluate} (h : ev.Below ev') (host : Host) {fuel fuel' : Nat}
    (hf : fuel ≤ fuel') (c : Cursor) :
    (step host ev fuel c).Below (step host ev' fuel' c) := by
  unfold step
  split
  · exact .inForm _ (stepForm_below h host hf _ _ _)
  · exact .refl _

/-- The loop ends as it does with less fuel, if it does end then. -/
theorem run_below (host : Host) {fuel fuel' : Nat} (hf : fuel ≤ fuel') (c : Cursor) :
    (run host fuel c).Below (run host fuel' c) := by
  induction fuel generalizing fuel' c with
  | zero => exact .timeout _
  | succ fuel ih =>
    obtain ⟨more, rfl⟩ : ∃ more, fuel' = more + 1 := ⟨fuel' - 1, by omega⟩
    have hle : fuel ≤ more := Nat.le_of_succ_le_succ hf
    refine .bind (step_below (fun t env => ih hle (Cursor.start t env)) host hle c) fun r => ?_
    cases r with
    | done v out => exact .refl _
    | next d => exact ih hle d

theorem evalWith_below (host : Host) {fuel fuel' : Nat} (hf : fuel ≤ fuel') :
    (evalWith host fuel).Below (evalWith host fuel') :=
  fun t env => run_below host hf (Cursor.start t env)

/-! ## Outcomes without fuel -/

def Returns (host : Host) (c : Cursor) (s : State) (r : Outcome (Term × Env)) : Prop :=
  r ≠ .timeout ∧ ∃ fuel, run host fuel c s = r

/-- The evaluation of a form ends with the outcome `r`. -/
def Evaluates (host : Host) (form : Term) (env : Env) (s : State) (r : Outcome (Term × Env)) :
    Prop := Returns host (Cursor.start form env) s r

/-- Of two amounts of fuel that are enough the larger one gives no other outcome. -/
theorem Action.Below.agree {α : Type} {m : Nat → Action α}
    (h : ∀ {fuel fuel' : Nat}, fuel ≤ fuel' → (m fuel).Below (m fuel')) {fuel fuel' : Nat}
    {s : State} (hs : m fuel s ≠ .timeout) (hs' : m fuel' s ≠ .timeout) :
    m fuel s = m fuel' s := by
  rcases Nat.le_total fuel fuel' with hle | hle
  · exact (h hle s).resolve_left hs
  · exact ((h hle s).resolve_left hs').symm

theorem returns_unique {host : Host} {c : Cursor} {s : State} {r r' : Outcome (Term × Env)}
    (h : Returns host c s r) (h' : Returns host c s r') : r = r' := by
  obtain ⟨hr, fuel, rfl⟩ := h
  obtain ⟨hr', fuel', rfl⟩ := h'
  exact Action.Below.agree (fun hle => run_below host hle c) hr hr'

end SmallLisp

import SmallLisp.Proofs.Guarded

/-! Evaluation observes every discipline: every part of the evaluator is guarded, and so is a whole
step. -/
namespace SmallLisp

open Discipline (admits_mono admits_all_mono)

/-! ## Evaluating the parts of a form -/

section Parts

variable {E : Type} {D : Discipline E} {w : E} {env : Env}

theorem value_guarded {t : Term} (henv : D.Scope w env) (ht : D.Admits w t) :
    Guarded D w D.Admits fun ev => ev.value t env :=
  .bind (.eval ht henv) fun _ _ _ hp => .pure hp.1

theorem values_guarded {ts : List Term} (henv : D.Scope w env) (hts : D.AdmitsAll w ts) :
    Guarded D w D.AdmitsAll fun ev => ev.values env ts := by
  induction ts generalizing w with
  | nil => exact .pure (List.forall_mem_nil _)
  | cons t ts ih =>
    obtain ⟨ht, hts⟩ := List.forall_mem_cons.mp hts
    refine .bind (value_guarded henv ht) fun w₁ v hw₁ hv => ?_
    refine .bind (ih (D.scope_mono hw₁ henv) (admits_all_mono hw₁ hts)) fun w₂ vs hw₂ hvs => ?_
    exact .pure (.cons (admits_mono hw₂ hv) hvs)

theorem each_guarded {ts : List Term} (henv : D.Scope w env) (hts : D.AdmitsAll w ts) :
    Guarded D w Anything fun ev => ev.each env ts := by
  induction ts generalizing w with
  | nil => exact .pure trivial
  | cons t ts ih =>
    obtain ⟨ht, hts⟩ := List.forall_mem_cons.mp hts
    exact .bind (value_guarded henv ht) fun _ _ hw _ =>
      ih (D.scope_mono hw henv) (admits_all_mono hw hts)

/-- What is left to evaluate of a function: its last form, in its namespace. -/
theorem enter_guarded {f : Closure Term} {args : List Term} (hf : D.Admits w (.closure f))
    (hargs : D.AdmitsAll w args) :
    Guarded D w (fun w p => D.Scope w p.1 ∧ D.Admits w p.2) fun ev => f.enter ev args := by
  obtain ⟨hhome, hbody⟩ := Term.Functions.closure_iff.mp hf
  unfold Closure.enter
  split
  case h_1 => exact .fault _
  case h_2 frame hbind =>
    have hframe : ∀ x v, frame.get? x = some v → D.Admits w v := by
      intro x v hv
      rcases Closure.mem_of_bind hbind hv with hmem | rfl
      · exact hargs v hmem
      · exact .list fun t ht => hargs t (List.mem_of_mem_drop ht)
    refine .bind (.extend hframe (D.scope_inside hhome)) fun w₁ env hw₁ ⟨henv, _⟩ => ?_
    have hinit : D.AdmitsAll w₁ f.body.dropLast := fun t ht =>
      admits_all_mono hw₁ hbody t (List.dropLast_subset _ ht)
    refine .bind (each_guarded henv hinit) fun w₂ _ hw₂ _ => .pure ⟨D.scope_mono hw₂ henv, ?_⟩
    rw [List.getLastD_eq_getLast?]
    cases hlast : f.body.getLast? with
    | none => exact .atom
    | some t => exact admits_all_mono (D.trans hw₁ hw₂) hbody t (List.mem_of_getLast? hlast)

theorem expand_guarded {m : Closure Term} {args : List Term} (hm : D.Admits w (.closure m))
    (hargs : D.AdmitsAll w args) : Guarded D w D.Admits fun ev => m.expand ev args :=
  .bind (enter_guarded hm hargs) fun _ _ _ h => value_guarded h.1 h.2

/-- The macro that a name is bound to meets the condition. -/
theorem macroOf_guarded (henv : D.Scope w env) (head : Term) :
    Guarded D w (fun w m => ∀ f, m = some f → D.Admits w (.closure f)) fun _ =>
      Action.read fun s => macroOf? s env head :=
  .read fun _ hs hw _ hf => by
    subst hw
    exact Discipline.macroOf_admits hs henv hf

theorem macroExpand_guarded (henv : D.Scope w env) (fuel : Nat) {t : Term}
    (ht : D.Admits w t) : Guarded D w D.Admits fun ev => macroExpand ev env fuel t := by
  induction fuel generalizing w t with
  | zero => exact .timeout
  | succ fuel ih =>
    match t, ht with
    | .list (head :: args), ht =>
      refine .bind (macroOf_guarded henv head) fun w₁ m hw₁ hm => ?_
      have ht₁ := admits_mono hw₁ ht
      cases m with
      | none => exact .pure ht₁
      | some m =>
        refine .bind (.inForm ht₁ (expand_guarded (hm m rfl) ht₁.tail.2)) fun w₂ u hw₂ hu => ?_
        exact ih (D.scope_mono hw₂ (D.scope_mono hw₁ henv)) hu
    | .list [], ht | .atom _, ht | .dict _, ht | .native _, ht | .closure _, ht => exact .pure ht

/-! ## Making functions -/

theorem docString_guarded {t : Term} (henv : D.Scope w env) (ht : D.Admits w t) :
    Guarded D w Anything fun ev => docString? ev env t := by
  unfold docString?
  split
  · exact .pure trivial
  · refine .bind (.get henv _) fun _ v _ _ => ?_
    split <;> exact .pure trivial
  · split
    · exact .pure trivial
    · refine .bind (value_guarded henv ht) fun _ v _ _ => ?_
      split
      · exact .pure trivial
      · exact .complain _
  · exact .pure trivial

theorem listedNames_guarded (t : Term) : Guarded D w Anything fun _ => listedNames t := by
  unfold listedNames
  split
  · split
    · exact .pure trivial
    · exact .complain _
  · exact .complain _

theorem paramNames_guarded (henv : D.Scope w env) (t : Term) :
    Guarded D w Anything fun _ => paramNames env t := by
  unfold paramNames
  split
  · exact .bind (.get henv _) fun _ v _ _ => listedNames_guarded v
  · exact listedNames_guarded _

/-- A new function is defined in the namespace of the environment that it captures. -/
theorem makeClosure_guarded (henv : D.Scope w env) (doc : Bytes) (params : Term)
    {body : List Term} (hbody : D.AdmitsAll w body) :
    Guarded D w D.Admits fun _ => makeClosure env doc params body := by
  refine .bind (paramNames_guarded henv params) fun w₁ names hw₁ _ => ?_
  split
  · exact .complain _
  · refine .bind (.look _) fun w₂ id hw₂ _ => ?_
    refine .bind (.tick (fun _ => rfl) fun _ => rfl) fun w₃ _ hw₃ _ => .pure ?_
    have hw := D.trans (D.trans hw₁ hw₂) hw₃
    exact Term.Functions.closure_iff.mpr
      ⟨D.function_new (D.scope_mono hw henv) .., admits_all_mono hw hbody⟩

theorem makeFunction_guarded {args : List Term} (henv : D.Scope w env)
    (hargs : D.AdmitsAll w args) : Guarded D w D.Admits fun ev => makeFunction ev env args := by
  unfold makeFunction
  split
  case h_1 => exact .complain _
  case h_2 => exact makeClosure_guarded henv _ _ (List.forall_mem_nil _)
  case h_3 first second body =>
    obtain ⟨hfirst, hrest⟩ := List.forall_mem_cons.mp hargs
    refine .bind (docString_guarded henv hfirst) fun w₁ doc hw₁ _ => ?_
    have hrest₁ := admits_all_mono hw₁ hrest
    cases doc with
    | some doc =>
      exact makeClosure_guarded (D.scope_mono hw₁ henv) _ _ (List.forall_mem_cons.mp hrest₁).2
    | none => exact makeClosure_guarded (D.scope_mono hw₁ henv) _ _ hrest₁

/-! ## Files -/

theorem look_guarded (host : Host) (path : Bytes) :
    Guarded D w Anything fun _ => host.look path := by
  unfold Host.look
  split
  · exact .pure trivial
  · exact .fail rfl

theorem firstFile_guarded (host : Host) (paths : List Bytes) :
    Guarded D w Anything fun _ => firstFile host paths := by
  induction paths generalizing w with
  | nil => exact .pure trivial
  | cons path paths ih =>
    refine .bind (look_guarded host path) fun _ e _ _ => ?_
    split
    · exact .pure trivial
    · exact ih

/-- There are no functions in a text. -/
theorem sequenceOf_admitted {src : Bytes} {forms : List Term} (h : parse src = .ok forms) :
    D.Admits w (sequenceOf forms) := .list (.cons .atom (parse_functions h))

theorem loadFound_guarded (path : Bytes) (henv : D.Scope w env)
    (found : Option (Bytes × Except FileError Bytes)) :
    Guarded D w D.Admits fun ev => loadFound ev path env found := by
  cases found with
  | none => exact .fail rfl
  | some found =>
    simp only [loadFound]
    split
    case h_1 e hforms =>
      have hplain : e.forms = [] := fileForms_plain _ _ e hforms
      exact .fail hplain
    case h_2 forms hforms =>
      obtain ⟨src, -, hparse⟩ := fileForms_eq_ok hforms
      exact .bind (.tick (fun _ => rfl) fun _ => rfl) fun _ _ hw _ =>
        .inDirectory _ (value_guarded (D.scope_mono hw henv) (sequenceOf_admitted hparse))

theorem loadFile_guarded (host : Host) (path : Bytes) (henv : D.Scope w env) :
    Guarded D w D.Admits fun ev => loadFile host ev path env :=
  .bind (.look _) fun _ _ hw₁ _ => .bind (firstFile_guarded host _) fun _ found hw₂ _ =>
    loadFound_guarded path (D.scope_mono hw₂ (D.scope_mono hw₁ henv)) found

theorem loadText_guarded (src : Bytes) (henv : D.Scope w env) :
    Guarded D w D.Admits fun ev => loadText ev src env := by
  unfold loadText
  split
  case h_1 => exact .fail (ofParse_forms _)
  case h_2 forms hforms => exact value_guarded henv (sequenceOf_admitted hforms)

theorem readFile_guarded (host : Host) (path : Bytes) :
    Guarded D w D.Admits fun _ => readFile host path := by
  refine .bind (.look _) fun _ file _ _ => ?_
  refine .bind (look_guarded host file) fun _ e _ _ => ?_
  cases e.read with
  | ok contents => exact .pure .atom
  | error reason => exact .bind (.tick (fun _ => rfl) fun _ => rfl) fun _ _ _ _ => .pure .atom

/-! ## Native functions -/

theorem write_guarded (host : Host) (render : Term → Bytes) (ending : Bytes) (args : List Term) :
    Guarded D w D.Admits fun _ => Effect.write host render ending args := by
  unfold Effect.write
  split
  · exact .fail rfl
  · exact .bind (.tick (fun _ => rfl) fun _ => rfl) fun _ _ _ _ => .pure .atom

theorem freshSymbol_guarded (args : List Term) :
    Guarded D w D.Admits fun _ => Effect.freshSymbol args := by
  have hnumber (w : E) (base : Bytes) : Guarded D w D.Admits fun _ =>
      (do
        Action.update fun s => { s with gensyms := s.gensyms + 1 }
        let n ← Action.read State.gensyms
        return .symbol (base ++ Bytes.ofNat n) : Action Term) :=
    .bind (.tick (fun _ => rfl) fun _ => rfl) fun _ _ _ _ =>
      .bind (.look _) fun _ _ _ _ => .pure .atom
  unfold Effect.freshSymbol
  dsimp only
  split
  · exact .bind (Q := Anything) (.pure trivial) fun w₁ base _ _ => hnumber w₁ base
  · exact .bind (.check (Arguments.name_plain _ _)) fun w₁ base _ _ => hnumber w₁ base
  · exact .bind (.check (.complain _)) fun w₁ base _ _ => hnumber w₁ base

theorem require_guarded (henv : D.Scope w env) (name : Bytes) :
    Guarded D w (fun w _ => D.Scope w { env with ns := name }) fun _ =>
      Action.update fun s => s.require name :=
  .update fun _ hs hw => ⟨D.require hs name, D.scope_require hs (hw ▸ henv) name⟩

theorem importAll_guarded (ns : Bytes) (args : List Term) :
    Guarded D w Anything fun _ => Effect.importAll ns args := by
  induction args generalizing w with
  | nil => exact .pure trivial
  | cons t ts ih =>
    refine .bind (.check (Arguments.name_plain _ t)) fun _ name _ _ => ?_
    exact .bind (.change fun s hs _ => D.addImport hs ns name) fun _ _ _ _ => ih

theorem addAlias_guarded (env : Env) (args : List Term) :
    Guarded D w D.Admits fun _ => Effect.addAlias env args := by
  refine .bind (.check (Arguments.two_plain _ args)) fun _ ⟨t, u⟩ _ _ => ?_
  refine .bind (.check (Arguments.name_plain _ t)) fun _ short _ _ => ?_
  refine .bind (.check (Arguments.name_plain _ u)) fun _ name _ _ => ?_
  exact .bind (.change fun s hs _ => D.addAlias hs env.ns short name) fun _ _ _ _ => .pure .atom

theorem namesIn_guarded (name : Bytes) : Guarded D w D.Admits fun _ => Effect.namesIn name := by
  refine .bind (.look _) fun _ found _ _ => ?_
  cases found with
  | none => exact .complain _
  | some ns =>
    refine .pure (.list fun t ht => ?_)
    obtain ⟨n, -, rfl⟩ := List.mem_map.mp ht
    exact .atom

theorem publicNames_guarded (env : Env) (args : List Term) :
    Guarded D w D.Admits fun _ => Effect.publicNames env args := by
  unfold Effect.publicNames
  split
  · exact namesIn_guarded _
  · exact .bind (.check (Arguments.name_plain _ _)) fun _ name _ _ =>
      namesIn_guarded name
  · exact .ofExcept (.complain _) (.error _)

theorem effect_guarded (host : Host) (e : Effect) {args : List Term}
    (henv : D.Scope w env) (hargs : D.AdmitsAll w args) :
    Guarded D w D.Admits fun ev => e.call host ev env args := by
  cases e with
  | print => exact write_guarded host _ _ args
  | println => exact write_guarded host _ _ args
  | prn => exact write_guarded host _ _ args
  | gensym => exact freshSymbol_guarded args
  | eval =>
    exact .bind (.ofExcept (Arguments.one_plain _ args) (Arguments.one_functions _ hargs))
      fun _ t hw ht => value_guarded (D.scope_mono hw henv) ht
  | slurp =>
    exact .bind (.check (Arguments.one_plain _ args)) fun _ t _ _ =>
      .bind (.check (Arguments.string_plain _ t)) fun _ path _ _ =>
        readFile_guarded host path
  | load =>
    exact .bind (.check (Arguments.one_plain _ args)) fun _ t hw₁ _ =>
      .bind (.check (Arguments.string_plain _ t)) fun _ path hw₂ _ =>
        loadFile_guarded host path (D.scope_mono hw₂ (D.scope_mono hw₁ henv))
  | importNs =>
    simp only [Effect.call, Effect.importNamespaces]
    split
    · exact .complain _
    · exact .bind (importAll_guarded env.ns args) fun _ _ _ _ => .pure .atom
  | aliasTo => exact addAlias_guarded env args
  | nsName =>
    exact .bind (.check (Arguments.none_plain _ args)) fun _ _ _ _ => .pure .atom
  | nsPublics => exact publicNames_guarded env args

theorem native_guarded (host : Host) (b : Builtin) {args : List Term}
    (henv : D.Scope w env) (hargs : D.AdmitsAll w args) :
    Guarded D w D.Admits fun ev => b.call host ev env args := by
  cases b with
  | primitive p => exact .ofExcept (p.call_plain args) (p.call_functions hargs)
  | effect e => exact effect_guarded host e henv hargs

end Parts

/-! ## Special forms -/

structure Discipline.AdmitsCursor {E : Type} (D : Discipline E) (w : E) (c : Cursor) : Prop where
  form : D.Admits w c.form
  env : D.Scope w c.env
  out : D.Scope w c.out
  enclosing {t : Term} (h : c.enclosing = some t) : D.Admits w t

def Discipline.AdmitsStep {E : Type} (D : Discipline E) (w : E) : Step → Prop
  | .done v out => D.Admits w v ∧ D.Scope w out
  | .next c => D.AdmitsCursor w c

namespace Discipline.AdmitsCursor

variable {E : Type} {D : Discipline E} {w : E} {c : Cursor}

theorem start {form : Term} {env : Env} (hform : D.Admits w form) (henv : D.Scope w env) :
    D.AdmitsCursor w (Cursor.start form env) := ⟨hform, henv, henv, nofun⟩

theorem mono {w' : E} (hw : D.Covers w' w) (hc : D.AdmitsCursor w c) : D.AdmitsCursor w' c :=
  ⟨admits_mono hw hc.form, D.scope_mono hw hc.env, D.scope_mono hw hc.out,
    fun h => admits_mono hw (hc.enclosing h)⟩

theorem switch {env : Env} (hc : D.AdmitsCursor w c) (henv : D.Scope w env) :
    D.AdmitsCursor w (c.switch env) := by
  refine ⟨hc.form, henv, ?_, hc.enclosing⟩
  unfold Cursor.switch
  dsimp only
  split
  · exact henv
  · exact hc.out

end Discipline.AdmitsCursor

namespace Cursor

variable {E : Type} {D : Discipline E} {w : E} {c : Cursor}

section

variable (hc : D.AdmitsCursor w c)

include hc

theorem finish_guarded {v : Term} (hv : D.Admits w v) :
    Guarded D w D.AdmitsStep fun _ => c.finish v := .pure ⟨hv, hc.out⟩

theorem goOn_guarded {form : Term} (hform : D.Admits w form) :
    Guarded D w D.AdmitsStep fun _ => c.goOn form :=
  .pure ⟨hform, hc.env, hc.out, hc.enclosing⟩

theorem tail_guarded {env : Env} (henv : D.Scope w env) {form : Term}
    (hform : D.Admits w form) : Guarded D w D.AdmitsStep fun _ => c.tail env form :=
  .pure ⟨hform, henv, hc.out, hc.enclosing⟩

variable {args : List Term} (hargs : D.AdmitsAll w args)

include hargs

theorem define_guarded : Guarded D w D.AdmitsStep fun ev => c.define ev args := by
  unfold define
  split
  case h_1 name form =>
    refine .bind (value_guarded hc.env (hargs form (by simp))) fun w₁ v hw₁ hv => ?_
    refine .bind (.bindRoot _ name hv) fun w₂ _ hw₂ _ => ?_
    exact finish_guarded (hc.mono (D.trans hw₁ hw₂)) .atom
  case h_2 => exact .complain _
  case h_3 => exact .complain _

/-- A macro is a copy of a function. -/
theorem defineMacro_guarded : Guarded D w D.AdmitsStep fun ev => c.defineMacro ev args := by
  unfold defineMacro
  split
  case h_1 name form =>
    refine .bind (value_guarded hc.env (hargs form (by simp))) fun w₁ v hw₁ hv => ?_
    split
    case h_1 f =>
      obtain ⟨hhome, hbody⟩ := Term.Functions.closure_iff.mp hv
      refine .bind (.change fun s hs hw => ?_) fun w₂ _ hw₂ _ => ?_
      · subst hw
        let s' : State := { s with closures := s.closures + 1 }
        have hcount : D.Follows s' s := Discipline.follows_of_eq hs rfl rfl
        have hcopy : D.Admits (D.extent s)
            (.closure { f with id := s.closures, isMacro := true }) :=
          Term.Functions.closure_iff.mpr ⟨D.function_copy hhome _, hbody⟩
        exact Discipline.follows_trans hcount
          (D.bindRoot hcount.holds _ name (admits_mono hcount.covers hcopy))
      · exact finish_guarded (hc.mono (D.trans hw₁ hw₂)) .atom
    case h_2 => exact .complain _
  case h_2 => exact .complain _
  case h_3 => exact .complain _

end

theorem bindAll_guarded {w : E} {env : Env} (henv : D.Scope w env) {frame : Nat}
    (hframe : frame ∈ env.frames) {bindings : List Term} (hb : D.AdmitsAll w bindings) :
    Guarded D w Anything fun ev => bindAll ev env frame bindings := by
  match bindings, hb with
  | [], _ => exact .pure trivial
  | [t], _ =>
    simp only [bindAll]
    exact .pure trivial
  | t :: form :: rest, hb =>
    obtain ⟨-, hb⟩ := List.forall_mem_cons.mp hb
    obtain ⟨hform, hrest⟩ := List.forall_mem_cons.mp hb
    unfold bindAll
    split
    case h_1 name _ _ heq =>
      cases heq
      refine .bind (value_guarded henv hform) fun w₁ v hw₁ hv => ?_
      refine .bind (.define (D.scope_mono hw₁ henv) hframe name hv) fun w₂ _ hw₂ _ => ?_
      have hw := D.trans hw₁ hw₂
      exact bindAll_guarded (D.scope_mono hw henv) hframe (admits_all_mono hw hrest)
    case h_2 => exact .complain _
    case h_3 => exact .pure trivial
termination_by bindings.length

section

variable {args : List Term} (hc : D.AdmitsCursor w c) (hargs : D.AdmitsAll w args)

include hc hargs

theorem letIn_guarded : Guarded D w D.AdmitsStep fun ev => c.letIn ev args := by
  unfold letIn
  split
  case h_1 => exact .complain _
  case h_2 bindings body =>
    obtain ⟨hbindings, hbody⟩ := List.forall_mem_cons.mp hargs
    split
    · exact .complain _
    · refine .bind (.extend (by rintro _ _ ⟨⟩) hc.env) fun w₁ env hw₁ ⟨henv, hframe⟩ => ?_
      have hb := admits_all_mono hw₁ (Term.Functions.list_iff.mp hbindings)
      refine .bind (bindAll_guarded henv hframe hb) fun w₂ _ hw₂ _ => ?_
      have hc₂ := hc.mono (D.trans hw₁ hw₂)
      have hbody₂ := admits_all_mono (D.trans hw₁ hw₂) hbody
      have henv₂ := D.scope_mono hw₂ henv
      split
      case h_1 => exact finish_guarded hc₂ .atom
      case h_2 last hlast =>
        have hinit : D.AdmitsAll w₂ body.dropLast := fun t ht =>
          hbody₂ t (List.dropLast_subset _ ht)
        refine .bind (each_guarded henv₂ hinit) fun w₃ _ hw₃ _ => ?_
        exact tail_guarded (hc₂.mono hw₃) (D.scope_mono hw₃ henv₂)
          (admits_all_mono hw₃ hbody₂ last (List.mem_of_getLast? hlast))
  case h_3 => exact .complain _

theorem assign_guarded : Guarded D w D.AdmitsStep fun ev => c.assign ev args := by
  unfold assign
  split
  case h_1 name form =>
    refine .bind (value_guarded hc.env (hargs form (by simp))) fun w₁ v hw₁ hv => ?_
    have hfound : Guarded D w₁ (fun _ found => ∀ i, found = some i → i ∈ c.env.frames) fun _ =>
        Action.read fun s => s.find? c.env name :=
      .read fun _ _ _ _ hi => (State.find?_eq_some hi).1
    refine .bind hfound fun w₂ found hw₂ hmem => ?_
    cases found with
    | none => exact .fault _
    | some frame =>
      have henv₂ := D.scope_mono (D.trans hw₁ hw₂) hc.env
      refine .bind (.define henv₂ (hmem frame rfl) name (admits_mono hw₂ hv)) fun w₃ _ hw₃ _ => ?_
      have hw := D.trans hw₂ hw₃
      exact finish_guarded (hc.mono (D.trans hw₁ hw)) (admits_mono hw hv)
  case h_2 => exact .complain _
  case h_3 => exact .complain _

theorem call_guarded (host : Host) {f : Term} (hf : D.Admits w f) {e : Error} (he : e.forms = []) :
    Guarded D w D.AdmitsStep fun ev => c.call host ev f args (Action.fail e) := by
  unfold call
  split
  · exact .bind (native_guarded host _ hc.env hargs) fun _ _ hw hv =>
      finish_guarded (hc.mono hw) hv
  · exact .bind (enter_guarded hf hargs) fun _ _ hw h => tail_guarded (hc.mono hw) h.1 h.2
  · exact .fail he

theorem apply_guarded (host : Host) :
    Guarded D w D.AdmitsStep fun ev => c.apply host ev args := by
  unfold apply
  split
  case h_1 function arguments =>
    refine .bind (value_guarded hc.env (hargs function (by simp))) fun w₁ f hw₁ hf => ?_
    have hc₁ := hc.mono hw₁
    have harguments := admits_all_mono hw₁ hargs arguments (by simp)
    split
    · refine .bind (value_guarded hc₁.env harguments) fun w₂ l hw₂ hl => ?_
      split
      · exact call_guarded (hc₁.mono hw₂) (Term.Functions.list_iff.mp hl) host
          (admits_mono hw₂ hf) rfl
      · exact .complain _
    · exact .complain _
  case h_2 => exact .complain _

end

theorem sequence_guarded {args : List Term} (hc : D.AdmitsCursor w c) (hargs : D.AdmitsAll w args) :
    Guarded D w D.AdmitsStep fun ev => c.sequence ev args := by
  induction args generalizing w c with
  | nil => exact finish_guarded hc .atom
  | cons form forms ih =>
    obtain ⟨hform, hforms⟩ := List.forall_mem_cons.mp hargs
    cases forms with
    | nil => exact goOn_guarded hc hform
    | cons next forms =>
      refine .bind (.eval hform hc.env) fun w₁ p hw₁ hp => ?_
      exact ih ((hc.mono hw₁).switch hp.2) (admits_all_mono hw₁ hforms)

section

variable (hc : D.AdmitsCursor w c)

include hc

theorem branch_guarded {yes : Term} (hyes : D.Admits w yes) {no : Option Term}
    (hno : ∀ t, no = some t → D.Admits w t) (v : Term) :
    Guarded D w D.AdmitsStep fun _ => c.branch yes no v := by
  unfold branch
  split
  · exact goOn_guarded hc hyes
  · cases no with
    | none => exact finish_guarded hc .atom
    | some form => exact goOn_guarded hc (hno form rfl)
  · exact .complain _

theorem choose_guarded {args : List Term} (hargs : D.AdmitsAll w args) :
    Guarded D w D.AdmitsStep fun ev => c.choose ev args := by
  unfold choose
  split
  case h_1 condition yes =>
    refine .bind (value_guarded hc.env (hargs condition (by simp))) fun w₁ v hw₁ _ => ?_
    have hyes := admits_all_mono hw₁ hargs yes (by simp)
    exact branch_guarded (hc.mono hw₁) hyes (by rintro _ ⟨⟩) v
  case h_2 condition yes no =>
    refine .bind (value_guarded hc.env (hargs condition (by simp))) fun w₁ v hw₁ _ => ?_
    have hyes := admits_all_mono hw₁ hargs yes (by simp)
    have hno := admits_all_mono hw₁ hargs no (by simp)
    exact branch_guarded (hc.mono hw₁) hyes (by rintro _ ⟨⟩; exact hno) v
  case h_3 => exact .complain _

end

theorem whileTrue_guarded {env : Env} (henv : D.Scope w env) {condition : Term}
    (hcondition : D.Admits w condition) {body : List Term} (hbody : D.AdmitsAll w body) (fuel : Nat)
    {result : Term} (hresult : D.Admits w result) :
    Guarded D w D.Admits fun ev => whileTrue ev env condition body fuel result := by
  induction fuel generalizing w result with
  | zero => exact .timeout
  | succ fuel ih =>
    refine .bind (value_guarded henv hcondition) fun w₁ v hw₁ _ => ?_
    split
    · have hvalues := values_guarded (D.scope_mono hw₁ henv) (admits_all_mono hw₁ hbody)
      refine .bind hvalues fun w₂ vs hw₂ hvs => ?_
      have hw := D.trans hw₁ hw₂
      refine ih (D.scope_mono hw henv) (admits_mono hw hcondition) (admits_all_mono hw hbody) ?_
      rw [List.getLastD_eq_getLast?]
      cases hlast : vs.getLast? with
      | none => exact admits_mono hw hresult
      | some v => exact hvs v (List.mem_of_getLast? hlast)
    · exact .pure (admits_mono hw₁ hresult)
    · exact .complain _

section

variable {args : List Term} (hc : D.AdmitsCursor w c) (hargs : D.AdmitsAll w args)

include hc hargs

theorem loop_guarded (fuel : Nat) : Guarded D w D.AdmitsStep fun ev => c.loop ev fuel args := by
  unfold loop
  split
  case h_1 condition first body =>
    obtain ⟨hcondition, hbody⟩ := List.forall_mem_cons.mp hargs
    exact .bind (whileTrue_guarded hc.env hcondition hbody fuel .atom) fun _ _ hw hv =>
      finish_guarded (hc.mono hw) hv
  case h_2 => exact .complain _

theorem inNs_guarded : Guarded D w D.AdmitsStep fun ev => c.inNs ev args := by
  unfold inNs
  split
  case h_1 t =>
    have hname : Guarded D w Anything fun ev => namespaceName ev c.env t := by
      unfold namespaceName
      split
      · exact .pure trivial
      · refine .bind (value_guarded hc.env (hargs _ (by simp))) fun _ v _ _ => ?_
        split
        · exact .pure trivial
        · exact .pure trivial
        · exact .complain _
    refine .bind hname fun w₁ name hw₁ _ => ?_
    refine .bind (require_guarded (D.scope_mono hw₁ hc.env) name) fun w₂ _ hw₂ henv => ?_
    exact finish_guarded ((hc.mono (D.trans hw₁ hw₂)).switch henv) .atom
  case h_2 => exact .complain _

theorem template_guarded : Guarded D w D.AdmitsStep fun _ => c.template args := by
  unfold template
  split
  case h_1 t =>
    split
    case h_1 expanded h =>
      exact goOn_guarded hc (quasiquote_functions (hargs t (by simp)) expanded h)
    case h_2 => exact .complain _
  case h_2 => exact .complain _

theorem special_guarded (host : Host) (fuel : Nat) (f : SpecialForm) :
    Guarded D w D.AdmitsStep fun ev => c.special host ev fuel f args := by
  cases f with
  | define => exact define_guarded hc hargs
  | letIn => exact letIn_guarded hc hargs
  | assign => exact assign_guarded hc hargs
  | apply => exact apply_guarded hc hargs host
  | quote =>
    simp only [special]
    split
    · exact finish_guarded hc (hargs _ (by simp))
    · exact .complain _
  | quasiquote => exact template_guarded hc hargs
  | sequence => exact sequence_guarded hc hargs
  | function =>
    exact .bind (makeFunction_guarded hc.env hargs) fun _ _ hw hf => finish_guarded (hc.mono hw) hf
  | choose => exact choose_guarded hc hargs
  | loop => exact loop_guarded hc hargs fuel
  | defineMacro => exact defineMacro_guarded hc hargs
  | macroExpand =>
    simp only [special]
    split
    · exact .bind (macroExpand_guarded hc.env fuel (hargs _ (by simp))) fun _ _ hw ht =>
        finish_guarded (hc.mono hw) ht
    · exact .complain _
  | inNs => exact inNs_guarded hc hargs

end

end Cursor

/-! ## A step -/

section

variable {E : Type} {D : Discipline E} {w : E} {c : Cursor} (hc : D.AdmitsCursor w c)

theorem constant_admitted {name : Bytes} {v : Term} (h : constant? name = some v) :
    D.Admits w v := by
  unfold constant? at h
  split at h
  · cases h
    exact .atom
  · split at h
    · cases h
      exact .atom
    · split at h <;> cases h
      exact .atom

theorem evalAtom_guarded {env : Env} (henv : D.Scope w env) {t : Term} (ht : D.Admits w t) :
    Guarded D w D.Admits fun _ => evalAtom env t := by
  unfold evalAtom
  split
  · split
    case h_1 v hv => exact .pure (constant_admitted hv)
    case h_2 => exact .get henv _
  · exact .pure ht

include hc

theorem stepForm_guarded (host : Host) (fuel : Nat) {head : Term} (hhead : D.Admits w head)
    {args : List Term} (hargs : D.AdmitsAll w args) :
    Guarded D w D.AdmitsStep fun ev => stepForm host ev fuel c head args := by
  refine .bind (macroOf_guarded hc.env head) fun w₁ m hw₁ hm => ?_
  have hc₁ := hc.mono hw₁
  have hargs₁ := admits_all_mono hw₁ hargs
  cases m with
  | some m =>
    exact .bind (expand_guarded (hm m rfl) hargs₁) fun _ _ hw ht =>
      Cursor.goOn_guarded (hc₁.mono hw) ht
  | none =>
    dsimp only
    split
    · exact Cursor.special_guarded hc₁ hargs₁ host fuel _
    · refine .bind (value_guarded hc₁.env (admits_mono hw₁ hhead)) fun w₂ f hw₂ hf => ?_
      have hc₂ := hc₁.mono hw₂
      refine .bind (values_guarded hc₂.env (admits_all_mono hw₂ hargs₁)) fun w₃ vs hw₃ hvs => ?_
      exact Cursor.call_guarded (hc₂.mono hw₃) hvs host (admits_mono hw₃ hf) rfl

/-- A step observes every discipline. -/
theorem step_guarded (host : Host) (fuel : Nat) :
    Guarded D w D.AdmitsStep fun ev => step host ev fuel c := by
  unfold step
  split
  case h_1 head args hform =>
    have hc' : D.AdmitsCursor w { c with enclosing := some c.form } :=
      ⟨hc.form, hc.env, hc.out, by rintro _ ⟨⟩; exact hc.form⟩
    have hlist : D.Admits w (.list (head :: args)) := hform ▸ hc.form
    exact .inForm hc.form (stepForm_guarded hc' host fuel hlist.tail.1 hlist.tail.2)
  case h_2 t hform =>
    have hatom := evalAtom_guarded hc.env hc.form
    split
    case h_1 last hlast =>
      exact .bind (.inForm (hc.enclosing hlast) hatom) fun _ _ hw hv =>
        Cursor.finish_guarded (hc.mono hw) hv
    case h_2 => exact .bind hatom fun _ _ hw hv => Cursor.finish_guarded (hc.mono hw) hv

end

end SmallLisp

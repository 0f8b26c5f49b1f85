import SmallLisp.Proofs.GuardedForms
import SmallLisp.Session

/-! Every evaluation and every session observes a discipline: a condition on states that all changes
keep holds after evaluations, loads, changes of namespace and bindings of what they have handed out,
and also halfway through an evaluation. -/
namespace SmallLisp

open Discipline (admits_mono admits_all_mono)

section

variable {E : Type} {D : Discipline E}

/-! ## Evaluations -/

/-- The loop observes the discipline, however it ends. -/
theorem run_ends (host : Host) (fuel : Nat) {c : Cursor} {s : State} (hs : D.Holds s)
    (hc : D.AdmitsCursor (D.extent s) c) : D.Ends D.Result s (run host fuel c s) := by
  induction fuel generalizing c s with
  | zero => trivial
  | succ fuel ih =>
    -- the evaluations inside of the step have the fuel of the rest of the loop
    have hev : D.Observes (evalWith host fuel) := fun q hq => ih hq.state (.start hq.form hq.env)
    have hstep := (step_guarded hc host fuel).follows hs rfl hev
    rw [run_succ]
    cases heq : step host (evalWith host fuel) fuel c s with
    | value r s₁ =>
      rw [heq] at hstep
      cases r with
      | done v out => exact hstep
      | next d => exact (ih hstep.1.holds hstep.2).after hstep.1
    | failure e s₁ =>
      rw [heq] at hstep
      exact hstep
    | timeout => trivial

theorem evalWith_observes (host : Host) (fuel : Nat) : D.Observes (evalWith host fuel) :=
  fun _ hq => run_ends host fuel hq.state (.start hq.form hq.env)

/-- All states that an evaluation passes meet the condition, and so do the loops in them. -/
theorem Comes.admitted {host : Host} {c d : Cursor} {s s' : State} (h : Comes host c s d s')
    (hs : D.Holds s) (hc : D.AdmitsCursor (D.extent s) c) :
    D.Holds s' ∧ D.AdmitsCursor (D.extent s') d := by
  induction h with
  | here => exact ⟨hs, hc⟩
  | @next d d' s₁ s₂ _ hstep ih =>
    obtain ⟨hs₁, hd⟩ := ih
    obtain ⟨fuel, hstep⟩ := hstep
    have hends := (step_guarded hd host fuel).follows hs₁ rfl (evalWith_observes host fuel)
    rw [hstep] at hends
    exact ⟨hends.1.holds, hends.2⟩
  | @inside d s₁ q _ hq ih =>
    obtain ⟨hs₁, hd⟩ := ih
    obtain ⟨fuel, hbegins⟩ := hq
    have hquery := (step_guarded hd host fuel).begins hs₁ rfl (evalWith_observes host fuel) hbegins
    exact ⟨hquery.state, .start hquery.form hquery.env⟩

end

/-! ## Sessions -/

/-- The terms that an answer hands out: values, and the forms that errors are attached to. -/
def Answer.terms {α : Type} (values : α → List Term) : Answer α → List Term
  | .value a => values a
  | .failure e => e.forms
  | .timeout => []

/-- The functions in the term are functions in the terms at hand. -/
def Term.MadeFrom (held : List Term) (t : Term) : Prop :=
  t.Functions fun f => ∃ u ∈ held, f.Within u

namespace Session

/-- The sessions that calls lead to from a fresh one, with the terms that the calls have handed out.
From these, and from what has no functions in it, the terms are made that are given to calls. -/
inductive Serves : Session → List Term → Prop
  | fresh : Serves fresh []
  | evalForm {s : Session} {held : List Term} (h : Serves s held) (host : Host) (fuel : Nat)
      {t : Term} (ht : t.MadeFrom held) :
      Serves (s.evalFormWith (evalWith host fuel) t).2
        ((s.evalFormWith (evalWith host fuel) t).1.terms (fun v => [v]) ++ held)
  | evalText {s : Session} {held : List Term} (h : Serves s held) (host : Host) (fuel : Nat)
      (src : Bytes) :
      Serves (s.evalTextWith (evalWith host fuel) src).2
        ((s.evalTextWith (evalWith host fuel) src).1.terms (fun v => [v]) ++ held)
  | load {s : Session} {held : List Term} (h : Serves s held) (host : Host) (fuel : Nat)
      (src : Bytes) :
      Serves (s.loadWith (evalWith host fuel) src).2
        ((s.loadWith (evalWith host fuel) src).1.terms (fun _ => []) ++ held)
  | loadFile {s : Session} {held : List Term} (h : Serves s held) (host : Host) (fuel : Nat)
      (path : Bytes) :
      Serves (s.loadFileWith host (evalWith host fuel) path).2
        ((s.loadFileWith host (evalWith host fuel) path).1.terms (fun _ => []) ++ held)
  | inNamespace {s : Session} {held : List Term} (h : Serves s held) (name : Bytes) :
      Serves (s.inNamespace name) held
  | bind {s : Session} {held : List Term} (h : Serves s held) (ns name : Bytes) {v : Term}
      (hv : v.MadeFrom held) : Serves (s.bind ns name v) held
  | get {s : Session} {held : List Term} (h : Serves s held) {name : Bytes} {v : Term}
      (hv : s.state.lookup s.env name = .ok v) : Serves s (v :: held)
  | lookup {s : Session} {held : List Term} (h : Serves s held) {ns name : Bytes} {v : Term}
      (hv : s.lookup? ns name = some v) : Serves s (v :: held)

section

variable {E : Type} {D : Discipline E} {s : Session}

structure Observes (D : Discipline E) (s : Session) : Prop where
  state : D.Holds s.state
  env : D.Scope (D.extent s.state) s.env

/-- A call to a session is answered with terms that meet the condition in the session it leaves. -/
structure Answered {α : Type} (D : Discipline E) (s : Session) (values : α → List Term)
    (r : Answer α × Session) : Prop where
  session : r.2.Observes D
  covers : D.Covers (D.extent r.2.state) (D.extent s.state)
  terms : D.AdmitsAll (D.extent r.2.state) (r.1.terms values)

variable (hs : s.Observes D)

include hs

theorem perform_answered {α : Type} {values : α → List Term} {m : Action (α × Env)}
    (hm : D.Ends (fun w p => D.AdmitsAll w (values p.1) ∧ D.Scope w p.2) s.state (m s.state)) :
    s.Answered D values (s.perform m) := by
  unfold perform
  split
  case h_1 a env st heq =>
    rw [heq] at hm
    obtain ⟨hst, hvalues, henv⟩ := hm
    exact ⟨⟨hst.holds, henv⟩, hst.covers, hvalues⟩
  case h_2 e st heq =>
    rw [heq] at hm
    obtain ⟨hst, hforms⟩ := hm
    exact ⟨⟨hst.holds, D.scope_mono hst.covers hs.env⟩, hst.covers, hforms⟩
  case h_3 => exact ⟨hs, D.refl _, List.forall_mem_nil _⟩

/-- Loads hand out no values. -/
theorem query_answered {m : Evaluate → Env → Action Unit} {ev : Evaluate} (hev : D.Observes ev)
    (hm : Guarded D (D.extent s.state) Anything fun ev => m ev s.env) :
    s.Answered D (fun _ => []) (s.query (m ev)) := by
  have hthen : Guarded D (D.extent s.state)
      (fun w (p : Unit × Env) => D.AdmitsAll w [] ∧ D.Scope w p.2)
      fun ev => m ev s.env >>= fun a => pure (a, s.env) :=
    .bind hm fun _ _ hw _ => .pure ⟨List.forall_mem_nil _, D.scope_mono hw hs.env⟩
  exact perform_answered hs (hthen.follows hs.state rfl hev)

variable (host : Host) (fuel : Nat)

theorem evalForm_answered {t : Term} (ht : D.Admits (D.extent s.state) t) :
    s.Answered D (fun v => [v]) (s.evalFormWith (evalWith host fuel) t) := by
  have heval := evalWith_observes host fuel ⟨t, s.env, s.state⟩ ⟨hs.state, ht, hs.env⟩
  exact perform_answered hs (heval.imp fun _ _ h => ⟨.cons h.1 (List.forall_mem_nil _), h.2⟩)

theorem evalForms_answered {ts : List Term} (hts : D.AdmitsAll (D.extent s.state) ts) {v : Term}
    (hv : D.Admits (D.extent s.state) v) :
    s.Answered D (fun v => [v]) (s.evalFormsWith (evalWith host fuel) ts v) := by
  induction ts generalizing s v with
  | nil => exact ⟨hs, D.refl _, .cons hv (List.forall_mem_nil _)⟩
  | cons t ts ih =>
    obtain ⟨ht, hts⟩ := List.forall_mem_cons.mp hts
    have hfirst := evalForm_answered hs host fuel ht
    unfold evalFormsWith
    split
    case h_1 w s' heq =>
      rw [heq] at hfirst
      have hrest := ih hfirst.session (admits_all_mono hfirst.covers hts)
        (hfirst.terms w List.mem_cons_self)
      exact ⟨hrest.session, D.trans hfirst.covers hrest.covers, hrest.terms⟩
    case h_2 e s' heq =>
      rw [heq] at hfirst
      exact hfirst
    case h_3 s' heq =>
      rw [heq] at hfirst
      exact hfirst

theorem evalText_answered (src : Bytes) :
    s.Answered D (fun v => [v]) (s.evalTextWith (evalWith host fuel) src) := by
  unfold evalTextWith
  split
  case h_1 e _ =>
    refine ⟨hs, D.refl _, ?_⟩
    rw [Answer.terms, ofParse_forms]
    exact List.forall_mem_nil _
  case h_2 forms hforms => exact evalForms_answered hs host fuel (parse_functions hforms) .atom

theorem load_answered (src : Bytes) :
    s.Answered D (fun _ => []) (s.loadWith (evalWith host fuel) src) :=
  query_answered hs (m := fun ev env => loadText ev src env >>= fun _ => pure ())
    (evalWith_observes host fuel)
    (.bind (loadText_guarded src hs.env) fun _ _ _ _ => .pure trivial)

theorem loadFile_answered (path : Bytes) :
    s.Answered D (fun _ => []) (s.loadFileWith host (evalWith host fuel) path) :=
  query_answered hs (m := fun ev env => SmallLisp.loadFile host ev path env >>= fun _ => pure ())
    (evalWith_observes host fuel)
    (.bind (loadFile_guarded host path hs.env) fun _ _ _ _ => .pure trivial)

omit host fuel in
theorem inNamespace_answered (name : Bytes) : (s.inNamespace name).Observes D ∧
    D.Covers (D.extent (s.inNamespace name).state) (D.extent s.state) :=
  ⟨⟨(D.require hs.state name).holds, D.scope_require hs.state hs.env name⟩,
    (D.require hs.state name).covers⟩

omit host fuel in
theorem bind_answered (ns name : Bytes) {v : Term} (hv : D.Admits (D.extent s.state) v) :
    (s.bind ns name v).Observes D ∧
      D.Covers (D.extent (s.bind ns name v).state) (D.extent s.state) := by
  have hrequire := D.require hs.state ns
  have hbind := Discipline.follows_trans hrequire
    (D.bindRoot hrequire.holds ns name (admits_mono hrequire.covers hv))
  exact ⟨⟨hbind.holds, D.scope_mono hbind.covers hs.env⟩, hbind.covers⟩

end

section

variable {E : Type} {D : Discipline E}

theorem madeFrom_admitted {w : E} {held : List Term} (h : D.AdmitsAll w held) {t : Term}
    (ht : t.MadeFrom held) : D.Admits w t :=
  ht.mono fun f hf => by
    obtain ⟨u, hu, hwithin⟩ := hf
    exact h u hu f hwithin

/-- What calls hand out meets the condition in the session, and goes on doing so, if that is so at
first and of what namespaces bind. -/
theorem Serves.observes (hfresh : Session.fresh.Observes D)
    (hroot : ∀ (s : Session) (ns name : Bytes) (v : Term), D.Holds s.state →
      s.lookup? ns name = some v → D.Admits (D.extent s.state) v)
    {s : Session} {held : List Term} (h : s.Serves held) :
    s.Observes D ∧ D.AdmitsAll (D.extent s.state) held := by
  have hanswered {α : Type} {values : α → List Term} {s : Session} {held : List Term}
      {r : Answer α × Session} (hr : s.Answered D values r)
      (hheld : D.AdmitsAll (D.extent s.state) held) :
      r.2.Observes D ∧ D.AdmitsAll (D.extent r.2.state) (r.1.terms values ++ held) := by
    refine ⟨hr.session, fun t ht => ?_⟩
    rcases List.mem_append.mp ht with ht | ht
    · exact hr.terms t ht
    · exact admits_all_mono hr.covers hheld t ht
  induction h with
  | fresh => exact ⟨hfresh, List.forall_mem_nil _⟩
  | evalForm _ host fuel ht ih =>
    exact hanswered (evalForm_answered ih.1 host fuel (madeFrom_admitted ih.2 ht)) ih.2
  | evalText _ host fuel src ih => exact hanswered (evalText_answered ih.1 host fuel src) ih.2
  | load _ host fuel src ih => exact hanswered (load_answered ih.1 host fuel src) ih.2
  | loadFile _ host fuel path ih => exact hanswered (loadFile_answered ih.1 host fuel path) ih.2
  | inNamespace _ name ih =>
    obtain ⟨hs, hcovers⟩ := inNamespace_answered ih.1 name
    exact ⟨hs, admits_all_mono hcovers ih.2⟩
  | bind _ ns name hv ih =>
    obtain ⟨hs, hcovers⟩ := bind_answered ih.1 ns name (madeFrom_admitted ih.2 hv)
    exact ⟨hs, admits_all_mono hcovers ih.2⟩
  | get _ hv ih => exact ⟨ih.1, .cons (D.lookup ih.1.state ih.1.env hv) ih.2⟩
  | @lookup s _ _ ns name v hv ih =>
    exact ⟨ih.1, .cons (hroot s ns name v ih.1.state hv) ih.2⟩

end

end Session

end SmallLisp

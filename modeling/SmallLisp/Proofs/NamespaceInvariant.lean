import SmallLisp.Proofs.GuardedSessions
import SmallLisp.Proofs.NamespaceStore

/-! The store of namespaces in every session. It is well-formed after evaluations, loads, changes of
namespace and bindings of what they have handed out, and also halfway through an evaluation: that is
a discipline (`namespaceDiscipline`). -/
namespace SmallLisp

structure Cursor.WellFormed (r : Registry) (c : Cursor) : Prop where
  form : c.form.Homed r
  env : r.Registered c.env.ns
  out : r.Registered c.out.ns
  enclosing {t : Term} (h : c.enclosing = some t) : t.Homed r

structure Session.WellFormed (s : Session) : Prop where
  state : s.state.WellFormed
  env : s.state.namespaces.Registered s.env.ns

def namespaceCondition : Condition Registry where
  extent := State.namespaces
  Covers := Registry.Covers
  Holds := State.WellFormed
  Function := Closure.Homed
  Scope r env := r.Registered env.ns

theorem State.Follows.condition {s s' : State} (h : s'.Follows s) :
    namespaceCondition.Follows s' s := ⟨h.wellFormed, h.covers⟩

def namespaceDiscipline : Discipline Registry where
  toCondition := namespaceCondition
  refl := Registry.Covers.refl
  trans h h' := h.trans h'
  function_mono hr _ h := h.mono hr
  scope_mono hr _ h := hr _ h
  lookup hs _ _ _ _ hv := lookup_homed hs hv
  holds_of_eq hs hns hframes := (hs.of_eq hns hframes).wellFormed
  extent_of_eq hns _ := hns
  require hs name := (hs.require name).condition
  scope_require _ _ _ name := State.require_registered _ name
  bindRoot hs ns name _ hv := (hs.bindRoot ns name hv).condition
  addImport {s} hs ns other :=
    ((hs.require other).trans
      ((hs.require other).wellFormed.addImport ns (s.require_registered other))).condition
  addAlias {s} hs ns short target :=
    ((hs.require target).trans
      ((hs.require target).wellFormed.addAlias ns short (s.require_registered target))).condition
  addFrame hs _ hframe := (hs.addFrame hframe).condition
  scope_addFrame _ _ _ henv := henv
  define hs _ _ i _ name _ hv := (hs.define i name hv).condition
  function_new henv _ _ _ _ _ := ⟨rfl, henv⟩
  function_copy h _ := ⟨h.home_eq, h.registered⟩
  scope_inside h := h.registered

theorem Session.fresh_observes : Session.fresh.Observes namespaceDiscipline :=
  ⟨fresh_wellFormed, State.require_registered _ userName⟩

/-- What calls hand out is at home in the session, and stays so. -/
theorem Session.Serves.wellFormed {s : Session} {held : List Term} (h : s.Serves held) :
    s.WellFormed ∧ ∀ t ∈ held, t.Homed s.state.namespaces := by
  obtain ⟨⟨hstate, henv⟩, hheld⟩ := h.observes (D := namespaceDiscipline) Session.fresh_observes
    fun s ns name v hs hv => by
      obtain ⟨n, hn, hv⟩ := Option.bind_eq_some_iff.mp hv
      exact (hs.namespaces hn).root hv
  exact ⟨⟨hstate, henv⟩, hheld⟩

theorem Session.madeFrom_homed {r : Registry} {held : List Term} (h : ∀ t ∈ held, t.Homed r)
    {t : Term} (ht : t.MadeFrom held) : t.Homed r :=
  madeFrom_admitted (D := namespaceDiscipline) h ht

theorem Cursor.start_wellFormed {r : Registry} {form : Term} {env : Env} (hform : form.Homed r)
    (henv : r.Registered env.ns) : (Cursor.start form env).WellFormed r :=
  ⟨hform, henv, henv, nofun⟩

/-- All states that an evaluation passes are well-formed, and so are the loops in them. -/
theorem Comes.wellFormed {host : Host} {c d : Cursor} {s s' : State} (h : Comes host c s d s')
    (hs : s.WellFormed) (hc : c.WellFormed s.namespaces) :
    s'.WellFormed ∧ d.WellFormed s'.namespaces := by
  obtain ⟨hs', hform, henv, hout, henclosing⟩ := h.admitted (D := namespaceDiscipline) hs
    ⟨hc.form, hc.env, hc.out, hc.enclosing⟩
  exact ⟨hs', hform, henv, hout, henclosing⟩

/-- In every session that evaluations, loads, changes of namespace and bindings lead to, the store
of namespaces is well-formed, the environment is in a namespace of it, and the functions that calls
have handed out are at home there. The same holds in the middle of an evaluation, or of a load,
which starts with other directories: of every state that it passes, and of the forms and
environments of the loop there. -/
theorem namespaces_well_formed {s : Session} {held : List Term} (h : s.Serves held) :
    s.WellFormed ∧ (∀ t ∈ held, t.Homed s.state.namespaces) ∧
    ∀ (host : Host) (t : Term) (st : State) (d : Cursor) (st' : State), t.MadeFrom held →
      st.namespaces = s.state.namespaces → st.frames = s.state.frames →
      Comes host (Cursor.start t s.env) st d st' →
        st'.WellFormed ∧ d.WellFormed st'.namespaces := by
  obtain ⟨hs, hheld⟩ := h.wellFormed
  refine ⟨hs, hheld, fun host t st d st' ht hns hframes hcomes => ?_⟩
  have hst : st.WellFormed := (hs.state.of_eq hns hframes).wellFormed
  have hc : (Cursor.start t s.env).WellFormed st.namespaces := by
    rw [hns]
    exact Cursor.start_wellFormed (Session.madeFrom_homed hheld ht) hs.env
  exact hcomes.wellFormed hst hc

/-- `(function (y) x)` -/
def constantFunction : Term := .list [.sym "function", .list [.sym "y"], .sym "x"]

/-- The function is made in `a` and then bound in `b`, which is new; its home is still `a`. -/
theorem functionOfOther_homed :
    let a := Bytes.ofString "a"
    let b := Bytes.ofString "b"
    let f : Closure Term :=
      ⟨0, false, [], a, [Bytes.ofString "y"], none, [.sym "x"], ⟨[0], a⟩⟩
    let r := (Session.fresh.inNamespace a).evalFormWith (evalWith Host.bare 2) constantFunction
    let s := r.2.bind b (Bytes.ofString "f") (.closure f)
    r.1 = .value (.closure f) ∧ s.WellFormed ∧ (Term.closure f).Homed s.state.namespaces := by
  intro a b f r s
  have hvalue : r.1 = .value (.closure f) := rfl
  have hmade : constantFunction.MadeFrom [] :=
    .list (.cons .atom (.cons (.list (.cons .atom (List.forall_mem_nil _)))
      (.cons .atom (List.forall_mem_nil _))))
  have hcalled : r.2.Serves [.closure f] := by
    have h : r.2.Serves (r.1.terms (fun v => [v]) ++ []) :=
      (Session.Serves.fresh.inNamespace a).evalForm Host.bare 2 hmade
    rwa [hvalue] at h
  have hbound : s.Serves [.closure f] := hcalled.bind b _ fun g hg => ⟨_, List.mem_cons_self, hg⟩
  obtain ⟨hs, hheld, -⟩ := namespaces_well_formed hbound
  exact ⟨hvalue, hs, hheld _ List.mem_cons_self⟩

end SmallLisp

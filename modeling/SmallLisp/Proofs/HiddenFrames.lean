import SmallLisp.Proofs.Calls
import SmallLisp.Proofs.FormRules
import SmallLisp.Proofs.Frames
import SmallLisp.Proofs.GuardedSessions
import SmallLisp.Proofs.NamespaceStore

/-! Frames that are out of reach. Evaluation changes a frame only through an environment that has it,
its own or one that a function has captured. So if no function that is bound anywhere refers to some
frames, and neither does what is evaluated, then these frames stay as they are
(`callValue_hides`). In every session the functions refer only to frames that are there
(`Session.Serves.complete`); a new frame is therefore out of reach at first (`State.Hides.hide`). -/
namespace SmallLisp

/-- The frames of the environment are there, and none of them is hidden. -/
def Env.Sees (hidden : Nat → Prop) (size : Nat) (env : Env) : Prop :=
  ∀ i ∈ env.frames, i < size ∧ ¬ hidden i

abbrev Term.Sees (hidden : Nat → Prop) (size : Nat) (t : Term) : Prop :=
  t.Functions fun f => f.env.Sees hidden size

/-- No function that a namespace or a frame in sight binds has captured a hidden frame. -/
structure State.Hides (hidden : Nat → Prop) (s : State) : Prop where
  roots {ns x : Bytes} {n : Namespace} {v : Term} (hn : s.namespaces.get? ns = some n)
    (hv : n.root.get? x = some v) : v.Sees hidden s.frames.size
  frames {i : Nat} {x : Bytes} {v : Term} (hi : ¬ hidden i) (hv : (s.frame i).get? x = some v) :
    v.Sees hidden s.frames.size
  below {i : Nat} (hi : hidden i) : i < s.frames.size

section

variable {hidden : Nat → Prop} {s : State} {size size' : Nat}

theorem Env.Sees.mono (h : size ≤ size') {env : Env} (henv : env.Sees hidden size) :
    env.Sees hidden size' := fun i hi => ⟨Nat.lt_of_lt_of_le (henv i hi).1 h, (henv i hi).2⟩

theorem Term.Sees.mono (h : size ≤ size') {t : Term} (ht : t.Sees hidden size) :
    t.Sees hidden size' := Functions.mono (fun _ hf => hf.mono h) ht

/-- What sees no hidden frames does not see one that is new. -/
theorem Term.Sees.hide {t : Term} (ht : t.Sees hidden size) :
    t.Sees (fun i => hidden i ∨ i = size) (size + 1) := by
  refine Term.Functions.mono (fun f hf i hi => ?_) ht
  obtain ⟨hsize, hseen⟩ := hf i hi
  exact ⟨Nat.lt_succ_of_lt hsize, not_or.mpr ⟨hseen, Nat.ne_of_lt hsize⟩⟩

namespace State.Hides

/-- Namespaces with the bindings of the state or some that see no hidden frames. -/
theorem of_roots (hs : s.Hides hidden) {s' : State} (hframes : s'.frames = s.frames)
    (h : ∀ ns n x v, s'.namespaces.get? ns = some n → n.root.get? x = some v →
      v.Sees hidden s.frames.size ∨
        ∃ ns' n', s.namespaces.get? ns' = some n' ∧ n'.root.get? x = some v) : s'.Hides hidden where
  roots hn hv := by
    rw [hframes]
    rcases h _ _ _ _ hn hv with hv | ⟨ns', n', hn', hv'⟩
    · exact hv
    · exact hs.roots hn' hv'
  frames hi hv := by
    rw [State.frame, hframes] at hv
    rw [hframes]
    exact hs.frames hi hv
  below hi := by
    rw [hframes]
    exact hs.below hi

theorem of_eq (hs : s.Hides hidden) {s' : State} (hns : s'.namespaces = s.namespaces)
    (hframes : s'.frames = s.frames) : s'.Hides hidden :=
  hs.of_roots hframes fun ns n _ _ hn hv => .inr ⟨ns, n, hns ▸ hn, hv⟩

theorem create (hs : s.Hides hidden) (name : Bytes) : (s.create name).Hides hidden := by
  refine hs.of_roots rfl fun ns n x v hn hv => ?_
  rcases Table.eq_or_of_get?_insert hn with rfl | hn
  · cases hv
  · exact .inr ⟨ns, n, hn, hv⟩

theorem require (hs : s.Hides hidden) (name : Bytes) : (s.require name).Hides hidden := by
  unfold State.require
  split
  · exact hs
  · split
    · exact hs.create name
    · exact (hs.create coreName).create name

/-- A change of one namespace that binds nothing but what sees no hidden frames. -/
theorem modify (hs : s.Hides hidden) (ns : Bytes) {f : Namespace → Namespace}
    (hf : ∀ n x v, (f n).root.get? x = some v →
      v.Sees hidden s.frames.size ∨ n.root.get? x = some v) :
    State.Hides hidden { s with namespaces := s.namespaces.modify ns f } := by
  refine hs.of_roots rfl fun other n x v hn hv => ?_
  dsimp only at hn
  by_cases hne : ns = other
  · subst hne
    rw [Table.get?_modify_self] at hn
    obtain ⟨n', hn', rfl⟩ := Option.map_eq_some_iff.mp hn
    exact (hf n' x v hv).imp_right fun hv => ⟨ns, n', hn', hv⟩
  · rw [Table.get?_modify_of_ne _ hne] at hn
    exact .inr ⟨other, n, hn, hv⟩

theorem bindRoot (hs : s.Hides hidden) (ns name : Bytes) {v : Term}
    (hv : v.Sees hidden s.frames.size) : (s.bindRoot ns name v).Hides hidden :=
  hs.modify ns fun n x w hw => by
    rcases Table.eq_or_of_get?_insert hw with rfl | hw
    · exact .inl hv
    · exact .inr hw

theorem addImport (hs : s.Hides hidden) (ns other : Bytes) :
    (s.addImport ns other).Hides hidden :=
  hs.modify ns fun n _ _ hv => by
    unfold Namespace.addImport at hv
    split at hv <;> exact .inr hv

theorem addAlias (hs : s.Hides hidden) (ns short target : Bytes) :
    (s.addAlias ns short target).Hides hidden := hs.modify ns fun _ _ _ => .inr

theorem addFrame (hs : s.Hides hidden) {frame : Table Term}
    (h : ∀ x v, frame.get? x = some v → v.Sees hidden s.frames.size) :
    (s.addFrame frame).Hides hidden where
  roots hn hv := (hs.roots hn hv).mono (by simp)
  frames {i x v} hi hv := by
    have hle : s.frames.size ≤ (s.addFrame frame).frames.size := by simp
    refine Term.Sees.mono hle ?_
    rcases State.frame_addFrame_eq_or s frame i with heq | heq
    · rw [heq] at hv
      exact h x v hv
    · rw [heq] at hv
      exact hs.frames hi hv
  below hi := by
    rw [State.addFrame_size]
    exact Nat.lt_succ_of_lt (hs.below hi)

theorem define (hs : s.Hides hidden) (i : Nat) (name : Bytes) {v : Term}
    (hv : v.Sees hidden s.frames.size) : (s.define i name v).Hides hidden where
  roots hn hw := by
    rw [State.define_size]
    exact hs.roots hn hw
  frames {j x w} hj hw := by
    rw [State.define_size]
    rcases State.frame_define_eq_or s i name v j with heq | heq
    · rw [heq] at hw
      rcases Table.eq_or_of_get?_insert hw with rfl | hw
      · exact hv
      · exact hs.frames hj hw
    · rw [heq] at hw
      exact hs.frames hj hw
  below hi := by
    rw [State.define_size]
    exact hs.below hi

theorem lookup (hs : s.Hides hidden) {env : Env} (henv : env.Sees hidden s.frames.size)
    {name : Bytes} {v : Term} (h : s.lookup env name = .ok v) : v.Sees hidden s.frames.size := by
  rcases State.lookup_source h with ⟨i, hi, hv⟩ | ⟨ns, n, x, hn, hv⟩
  · exact hs.frames (henv i hi).2 hv
  · exact hs.roots hn hv

/-- A new frame can be hidden, whatever it binds. -/
theorem hide (hs : s.Hides hidden) (frame : Table Term) :
    (s.addFrame frame).Hides fun i => hidden i ∨ i = s.frames.size := by
  have hsees {t : Term} (ht : t.Sees hidden s.frames.size) :
      t.Sees (fun i => hidden i ∨ i = s.frames.size) (s.addFrame frame).frames.size := by
    rw [State.addFrame_size]
    exact ht.hide
  refine ⟨fun hn hv => hsees (hs.roots hn hv), fun {i x v} hi hv => ?_, fun {i} hi => ?_⟩
  · obtain ⟨hi, hne⟩ := not_or.mp hi
    rcases Nat.lt_or_gt_of_ne hne with hlt | hgt
    · rw [State.frame_addFrame hlt] at hv
      exact hsees (hs.frames hi hv)
    · have hnone : (s.addFrame frame).frame i = [] := by
        have hsize : (s.addFrame frame).frames.size ≤ i := by
          rw [State.addFrame_size]
          exact hgt
        rw [State.frame, Array.getD_eq_getD_getElem?, Array.getElem?_eq_none hsize]
        rfl
      rw [hnone] at hv
      cases hv
  · rw [State.addFrame_size]
    rcases hi with hi | rfl
    · exact Nat.lt_succ_of_lt (hs.below hi)
    · exact Nat.lt_succ_self _

end State.Hides

/-! ## Evaluation -/

/-- The hidden frames are as they are in `kept`, and out of reach. -/
def hidingCondition (hidden : Nat → Prop) (kept : Nat → Table Term) : Condition Nat where
  extent s := s.frames.size
  Covers later earlier := earlier ≤ later
  Holds s := s.Hides hidden ∧ ∀ i, hidden i → s.frame i = kept i
  Function size f := f.env.Sees hidden size
  Scope size env := env.Sees hidden size

theorem follows_of_frames {kept : Nat → Table Term} {s' : State} (hs' : s'.Hides hidden)
    (hframes : s'.frames = s.frames) (hkept : ∀ i, hidden i → s.frame i = kept i) :
    (hidingCondition hidden kept).Follows s' s := by
  refine ⟨⟨hs', fun i hi => ?_⟩, Nat.le_of_eq (congrArg Array.size hframes.symm)⟩
  rw [← hkept i hi, State.frame, hframes]
  rfl

def hidingDiscipline (hidden : Nat → Prop) (kept : Nat → Table Term) : Discipline Nat where
  toCondition := hidingCondition hidden kept
  refl := Nat.le_refl
  trans h h' := Nat.le_trans h h'
  function_mono hle _ h := h.mono hle
  scope_mono hle _ h := h.mono hle
  lookup hs _ henv _ _ hv := hs.1.lookup henv hv
  holds_of_eq hs hns hframes := (follows_of_frames (hs.1.of_eq hns hframes) hframes hs.2).holds
  extent_of_eq _ hframes := congrArg Array.size hframes
  require hs name := follows_of_frames (hs.1.require name) (State.require_frames _ name) hs.2
  scope_require {s} _ env henv name := by
    change Env.Sees hidden (s.require name).frames.size env
    rw [State.require_frames]
    exact henv
  bindRoot hs ns name _ hv := follows_of_frames (hs.1.bindRoot ns name hv) rfl hs.2
  addImport hs ns other :=
    follows_of_frames ((hs.1.require other).addImport ns other) (State.require_frames _ other) hs.2
  addAlias hs ns short target :=
    follows_of_frames ((hs.1.require target).addAlias ns short target)
      (State.require_frames _ target) hs.2
  addFrame {s} hs frame hframe := by
    refine ⟨⟨hs.1.addFrame hframe, fun i hi => ?_⟩, ?_⟩
    · rw [State.frame_addFrame (hs.1.below hi)]
      exact hs.2 i hi
    · change s.frames.size ≤ (s.addFrame frame).frames.size
      simp
  scope_addFrame {s} hs frame env henv := by
    change Env.Sees hidden (s.addFrame frame).frames.size _
    intro i hi
    rw [State.addFrame_size]
    rcases List.mem_cons.mp hi with rfl | hi
    · exact ⟨Nat.lt_succ_self _, fun hhidden => Nat.lt_irrefl _ (hs.1.below hhidden)⟩
    · exact ⟨Nat.lt_succ_of_lt (henv i hi).1, (henv i hi).2⟩
  define {s} hs env henv i hi name v hv := by
    refine ⟨⟨hs.1.define i name hv, fun j hj => ?_⟩, ?_⟩
    · have hne : i ≠ j := by
        rintro rfl
        exact (henv i hi).2 hj
      rw [State.frame_define_of_ne s hne]
      exact hs.2 j hj
    · change s.frames.size ≤ (s.define i name v).frames.size
      simp
  function_new henv _ _ _ _ _ := henv
  function_copy h _ := h
  scope_inside h := h

end

/-- A call of a function that sees no hidden frames, with such arguments, leaves these frames as
they are, and out of reach. Its value does not see them either. -/
theorem callValue_hides {hidden : Nat → Prop} {host : Host} {s s' : State} {ns : Bytes}
    {f v : Term} {args : List Term} {refusal : Error} (hs : s.Hides hidden)
    (hf : f.Sees hidden s.frames.size) (hargs : ∀ t ∈ args, t.Sees hidden s.frames.size)
    (hrefusal : refusal.forms = [])
    (h : EndsIn host (callValue host ⟨[], ns⟩ f args refusal) s (.value v s')) :
    s'.Hides hidden ∧ s.frames.size ≤ s'.frames.size ∧ (∀ i, hidden i → s'.frame i = s.frame i) ∧
      v.Sees hidden s'.frames.size := by
  obtain ⟨-, fuel, hfuel⟩ := h
  let D := hidingDiscipline hidden s.frame
  have hcall : Guarded D s.frames.size D.Admits (callValue host ⟨[], ns⟩ f args refusal) := by
    unfold callValue
    split
    · exact native_guarded host _ (List.forall_mem_nil _) hargs
    · exact expand_guarded hf hargs
    · exact .fail hrefusal
  have hends := hcall.follows (s := s) ⟨hs, fun _ _ => rfl⟩ rfl (evalWith_observes host fuel)
  rw [hfuel] at hends
  obtain ⟨⟨⟨hs', hkept⟩, hsize⟩, hv⟩ := hends
  exact ⟨hs', hsize, hkept, hv⟩

/-! ## Frames that are there -/

/-- Functions refer only to frames that are there. -/
abbrev State.Bounded (s : State) : Prop := s.Hides fun _ => False

/-- The functions in the state and in the terms refer only to frames that are there, and so does the
environment. -/
structure State.Complete (s : State) (env : Env) (ts : List Term) : Prop where
  state : s.Bounded
  env : env.Within s
  terms : ∀ t ∈ ts, t.Functions fun f => f.env.Within s

namespace State.Complete

variable {s s' : State} {env : Env} {ts vs : List Term}

private def nothing : Discipline Nat := hidingDiscipline (fun _ => False) fun _ => []

private theorem of_holds (hs : nothing.Holds s) (henv : nothing.Scope s.frames.size env)
    (hts : nothing.AdmitsAll s.frames.size ts) : s.Complete env ts where
  state := hs.1
  env i hi := (henv i hi).1
  terms t ht := Term.Functions.mono (fun _ hf i hi => (hf i hi).1) (hts t ht)

variable (h : s.Complete env ts)

include h

private theorem holds : nothing.Holds s := ⟨h.state, nofun⟩

private theorem scope : nothing.Scope s.frames.size env := fun i hi => ⟨h.env i hi, nofun⟩

theorem sees : ∀ t ∈ ts, t.Sees (fun _ => False) s.frames.size := fun t ht =>
  Term.Functions.mono (fun _ hf i hi => ⟨hf i hi, nofun⟩) (h.terms t ht)

/-- The evaluation of the terms leaves it so, also with their values. -/
theorem values {host : Host} (hv : EndsIn host (fun ev => ev.values env ts) s (.value vs s')) :
    s'.Complete env vs := by
  obtain ⟨-, fuel, hfuel⟩ := hv
  have hends := (values_guarded h.scope h.sees).follows h.holds rfl (evalWith_observes host fuel)
  dsimp only at hfuel
  rw [hfuel] at hends
  exact .of_holds hends.1.holds (nothing.scope_mono hends.1.covers h.scope) hends.2

/-- It is so wherever an evaluation comes. -/
theorem comes {host : Host} {t : Term} {d : Cursor} (ht : t ∈ ts)
    (hd : Comes host (Cursor.start t env) s d s') : s'.Complete d.env [d.form] := by
  obtain ⟨hs', hcursor⟩ := hd.admitted h.holds (.start (h.sees t ht) h.scope)
  exact .of_holds hs' hcursor.env (List.forall_mem_singleton.mpr hcursor.form)

end State.Complete

/-! ## Sessions -/

theorem Session.fresh_bounded : Session.fresh.state.Bounded := by
  have hempty : State.empty.Bounded := ⟨nofun, nofun, nofun⟩
  have hinitial : State.initial.Bounded := by
    refine State.initial_induction (hempty.require coreName) (fun s name hs => hs.require name) ?_
    rintro s ns name v (⟨b, rfl⟩ | ⟨x, rfl⟩) hs
    · exact hs.bindRoot ns name .native
    · exact hs.bindRoot ns name .atom
  exact (hinitial.require userName).addFrame nofun

/-- In every session the functions refer only to frames that are there, and so do its environment
and what calls have handed out. -/
theorem Session.Serves.complete {s : Session} {held : List Term} (h : s.Serves held) :
    s.state.Complete s.env held := by
  have hfresh : Session.fresh.Observes (hidingDiscipline (fun _ => False) fun _ => []) :=
    ⟨⟨Session.fresh_bounded, nofun⟩, fun i hi => by
      obtain rfl := List.mem_singleton.mp hi
      exact ⟨Session.fresh_topEmpty.1, nofun⟩⟩
  obtain ⟨⟨hs, henv⟩, hheld⟩ := h.observes hfresh fun s ns name v hs hv => by
    obtain ⟨n, hn, hv⟩ := Option.bind_eq_some_iff.mp hv
    exact hs.1.roots hn hv
  exact .of_holds hs henv hheld

end SmallLisp

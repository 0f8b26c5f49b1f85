import SmallLisp.Proofs.Nesting
import SmallLisp.Session

/-! Frames and the names in them. Evaluation makes frames and fills those that it has made, but in a
frame that was there before it only gives names other values, by assignments. A session therefore
never binds a name in the frame at top level, and a `set!` finds none there. -/
namespace SmallLisp

/-- A table has the names of another one, and their values but for the new ones that are allowed. -/
structure Table.Revises (t' t : Table Term) (allowed : Bytes → Term → Prop) : Prop where
  names_eq : t'.names = t.names
  get_eq_or (name : Bytes) :
    t'.get? name = t.get? name ∨ ∃ v, allowed name v ∧ t'.get? name = some v

/-- The frames of `s` are all there in `s'`, with the same names. -/
structure FramesKept (allowed : Nat → Bytes → Term → Prop) (s s' : State) : Prop where
  size_le : s.frames.size ≤ s'.frames.size
  frame {i : Nat} (hi : i < s.frames.size) : (s'.frame i).Revises (s.frame i) (allowed i)

theorem Table.Revises.refl (t : Table Term) (allowed : Bytes → Term → Prop) :
    t.Revises t allowed := ⟨rfl, fun _ => .inl rfl⟩

theorem Table.Revises.trans {t₁ t₂ t₃ : Table Term} {allowed : Bytes → Term → Prop}
    (h : t₂.Revises t₁ allowed) (h' : t₃.Revises t₂ allowed) : t₃.Revises t₁ allowed := by
  refine ⟨h'.names_eq.trans h.names_eq, fun name => ?_⟩
  -- the later of two new values is the one that stands
  rcases h'.get_eq_or name with heq | hnew
  · rw [heq]
    exact h.get_eq_or name
  · exact .inr hnew

theorem Table.Revises.insert {t : Table Term} {name : Bytes} {v : Term}
    {allowed : Bytes → Term → Prop} (h : t.contains name = true) (ha : allowed name v) :
    (t.insert name v).Revises t allowed := by
  refine ⟨names_insert h v, fun other => ?_⟩
  by_cases heq : name = other
  · subst heq
    exact .inr ⟨v, ha, get?_insert_self t name v⟩
  · exact .inl (get?_insert_of_ne t heq v)

namespace FramesKept

variable {allowed : Nat → Bytes → Term → Prop} {s s' : State}

theorem of_frames_eq (h : s'.frames = s.frames) : FramesKept allowed s s' := by
  refine ⟨Nat.le_of_eq (by rw [h]), fun {i} _ => ?_⟩
  have hframe : s'.frame i = s.frame i := by simp only [State.frame, h]
  rw [hframe]
  exact .refl _ _

theorem trans {s₁ s₂ s₃ : State} (h : FramesKept allowed s₁ s₂) (h' : FramesKept allowed s₂ s₃) :
    FramesKept allowed s₁ s₃ :=
  ⟨Nat.le_trans h.size_le h'.size_le,
    fun hi => (h.frame hi).trans (h'.frame (Nat.lt_of_lt_of_le hi h.size_le))⟩

theorem addFrame (s : State) (f : Table Term) : FramesKept allowed s (s.addFrame f) := by
  refine ⟨by simp, fun hi => ?_⟩
  rw [State.frame_addFrame hi]
  exact .refl _ _

/-- Names may be bound in frames that are new. -/
theorem fill {i : Nat} (name : Bytes) (v : Term) (hi : s.frames.size ≤ i)
    (h : FramesKept allowed s s') : FramesKept allowed s (s'.define i name v) := by
  refine ⟨by simpa using h.size_le, fun {j} hj => ?_⟩
  rw [State.frame_define_of_ne s' (Nat.ne_of_gt (Nat.lt_of_lt_of_le hj hi))]
  exact h.frame hj

/-- An allowed assignment to a name that is bound. -/
theorem assign {env : Env} {name : Bytes} {v : Term} {i : Nat} (hfind : s.find? env name = some i)
    (ha : allowed i name v) : FramesKept allowed s (s.define i name v) := by
  refine ⟨by simp, fun {j} hj => ?_⟩
  by_cases hij : i = j
  · subst hij
    rw [State.frame_define_self hj]
    exact .insert (State.find?_eq_some hfind).2 ha
  · rw [State.frame_define_of_ne s hij]
    exact .refl _ _

theorem law (allowed : Nat → Bytes → Term → Prop) : Law (FramesKept allowed) where
  refl _ := of_frames_eq rfl
  trans := trans
  grows := size_le
  change h := of_frames_eq h.frames
  addFrame := addFrame
  fill := fill
  directory _ h := ⟨h.size_le, h.frame⟩

end FramesKept

/-! ## Evaluation -/

section

variable {host : Host} {form : Term} {env : Env} {s : State}

/-- Only the assignments that an evaluation comes to change what was bound before it. -/
theorem evaluates_framesKept {r : Outcome (Term × Env)} (h : Evaluates host form env s r) :
    ∃ s', r.state? = some s' ∧ FramesKept (fun i name v => ∃ d s₁ s₂,
      Comes host (Cursor.start form env) s d s₁ ∧ Assigns host d s₁ i name v s₂) s s' := by
  refine (FramesKept.law _).evaluates ?_ h
  intro d s₁ i name v s₂ hd hassigns
  exact .assign hassigns.found ⟨d, s₁, s₂, hd, hassigns⟩

/-- With any assignments allowed, the names are still kept. -/
abbrev NamesKept : State → State → Prop := FramesKept fun _ _ _ => True

theorem comes_namesKept {c d : Cursor} {s' : State} (hc : c.Sound) (h : Comes host c s d s') :
    NamesKept s s' :=
  (FramesKept.law _).comes (fun _ _ => .of_frames_eq rfl)
    (fun _ _ _ _ _ _ hassigns => .assign hassigns.found trivial) hc h

theorem composed_namesKept {α : Type} {m : Evaluate → Action α} {fuel : Nat} {s' : State}
    (hm : Composed false [] m) (h : (m (evalWith host fuel) s).state? = some s') :
    NamesKept s s' :=
  (FramesKept.law _).composed
    (fun _ _ _ _ _ _ hassigns => .assign hassigns.found trivial) hm h

/-! ## The frame at top level -/

/-- There is a first frame, and it binds no name. -/
def State.TopEmpty (s : State) : Prop := 0 < s.frames.size ∧ s.frame 0 = []

theorem NamesKept.topEmpty {s' : State} (h : NamesKept s s') (hs : s.TopEmpty) : s'.TopEmpty := by
  obtain ⟨hsize, hempty⟩ := hs
  refine ⟨Nat.lt_of_lt_of_le hsize h.size_le, ?_⟩
  have hnames := (h.frame hsize).names_eq
  rw [hempty] at hnames
  exact List.map_eq_nil_iff.mp hnames

/-- A `set!` of a name that no frame of its environment binds fails when its value has been
evaluated, and changes nothing after that. -/
theorem returns_notLocal {c : Cursor} {s₁ : State} {name : Bytes} {value v : Term} {env' : Env}
    (hat : AtAssignment c s name value)
    (hvalue : Evaluates host value c.env s (.value (v, env') s₁))
    (hnone : s₁.find? c.env name = none) :
    Returns host c s (.failure (.inForm c.form (.runtime (.notLocal name))) s₁) := by
  obtain ⟨-, fuel, hvalue⟩ := hvalue
  have heval : (evalWith host fuel).value value c.env s = .value v s₁ := by
    rw [Evaluate.value, Action.bind_apply]
    simp only [evalWith, hvalue]
    rfl
  refine ⟨ne_timeout_of_state rfl, fuel + 1, ?_⟩
  rw [run_succ, step_assignment host _ fuel hat]
  simp only [Action.inForm, Action.bind_apply, heval, assign_apply, hnone]
  rfl

theorem find_eq_none {name : Bytes} (htop : s.frame 0 = [])
    (h : ∀ i ∈ env.frames, i ≠ 0 → (s.frame i).contains name = false) :
    s.find? env name = none := by
  refine List.find?_eq_none.mpr fun i hi => ?_
  by_cases h0 : i = 0
  · rw [h0, htop]
    exact nofun
  · simp [h i hi h0]

end

namespace Session

/-- The sessions that evaluating and loading lead to, from a fresh one. -/
inductive Reached : Session → Prop
  | fresh : Reached fresh
  | evalForm {s : Session} (h : Reached s) (host : Host) (fuel : Nat) (t : Term) :
      Reached (s.evalFormWith (evalWith host fuel) t).2
  | evalText {s : Session} (h : Reached s) (host : Host) (fuel : Nat) (src : Bytes) :
      Reached (s.evalTextWith (evalWith host fuel) src).2
  | load {s : Session} (h : Reached s) (host : Host) (fuel : Nat) (src : Bytes) :
      Reached (s.loadWith (evalWith host fuel) src).2
  | loadFile {s : Session} (h : Reached s) (host : Host) (fuel : Nat) (path : Bytes) :
      Reached (s.loadFileWith host (evalWith host fuel) path).2

def TopEmpty (s : Session) : Prop := s.env.frames = [0] ∧ s.state.TopEmpty

theorem fresh_topEmpty : fresh.state.TopEmpty := by
  constructor
  · simp [fresh]
  · simp [fresh, State.frame, State.addFrame, State.initial_frames]

/-! ### What requests keep -/

/-- What the evaluation of each form keeps, that of forms in a row keeps. -/
theorem evalForms_keeps {P : Session → Prop} {ev : Evaluate}
    (hP : ∀ s t, P s → P (s.evalFormWith ev t).2) (ts : List Term) (v : Term) {s : Session}
    (hs : P s) : P (s.evalFormsWith ev ts v).2 := by
  induction ts generalizing s v with
  | nil => exact hs
  | cons t ts ih =>
    have ht := hP s t hs
    unfold evalFormsWith
    split
    case h_1 v s' heq =>
      rw [heq] at ht
      exact ih v ht
    case h_2 e s' heq =>
      rw [heq] at ht
      exact ht
    case h_3 s' heq =>
      rw [heq] at ht
      exact ht

section

variable {R : State → State → Prop} (hR : Law R) (s : Session)

include hR in
theorem perform_law {α : Type} {m : Action (α × Env)}
    (hm : ∀ st, (m s.state).state? = some st → R s.state st) :
    R s.state (s.perform m).2.state := by
  unfold perform
  split
  case h_1 a env st heq => exact hm st (by rw [heq]; rfl)
  case h_2 e st heq => exact hm st (by rw [heq]; rfl)
  case h_3 => exact hR.refl s.state

include hR in
theorem query_law {α : Type} {m : Env → Action α}
    (hm : ∀ st, (m s.env s.state).state? = some st → R s.state st) :
    R s.state (s.query m).2.state := by
  refine s.perform_law hR fun st h => hm st ?_
  rw [← h, Action.bind_apply]
  cases m s.env s.state <;> rfl

variable {host : Host} (hassign : ∀ d s₁ i name v s₂, Assigns host d s₁ i name v s₂ →
  R s₂ (s₂.define i name v))

include hR hassign

theorem evalForm_law (fuel : Nat) (t : Term) :
    R s.state (s.evalFormWith (evalWith host fuel) t).2.state :=
  s.perform_law hR fun _ h => hR.composed hassign (.eval t s.env) h

theorem evalForms_law (fuel : Nat) (ts : List Term) (v : Term) :
    R s.state (s.evalFormsWith (evalWith host fuel) ts v).2.state := by
  have hkeeps (s' : Session) (t : Term) (h : R s.state s'.state) :
      R s.state (s'.evalFormWith (evalWith host fuel) t).2.state :=
    hR.trans h (s'.evalForm_law hR hassign fuel t)
  exact evalForms_keeps hkeeps ts v (hR.refl s.state)

theorem evalText_law (fuel : Nat) (src : Bytes) :
    R s.state (s.evalTextWith (evalWith host fuel) src).2.state := by
  unfold evalTextWith
  split
  · exact hR.refl s.state
  · exact s.evalForms_law hR hassign fuel _ _

theorem load_law (fuel : Nat) (src : Bytes) :
    R s.state (s.loadWith (evalWith host fuel) src).2.state := by
  have hload : Composed false [] fun ev => loadText ev src s.env >>= fun _ => pure () :=
    .bind (loadText_composed src s.env) fun _ => .pure ()
  exact s.query_law hR fun _ h => hR.composed hassign hload h

theorem loadFile_law (fuel : Nat) (path : Bytes) :
    R s.state (s.loadFileWith host (evalWith host fuel) path).2.state := by
  have hload : Composed false [] fun ev =>
      SmallLisp.loadFile host ev path s.env >>= fun _ => pure () :=
    .bind (loadFile_composed host path s.env) fun _ => .pure ()
  exact s.query_law hR fun _ h => hR.composed hassign hload h

end

/-- What all evaluations keep, every request keeps. -/
theorem Reached.of_law {R : State → State → Prop} (hR : Law R) {P : State → Prop}
    (hfresh : P Session.fresh.state) (hP : ∀ {st st'}, R st st' → P st → P st')
    (hassign : ∀ host d s₁ i name v s₂, Assigns host d s₁ i name v s₂ → R s₂ (s₂.define i name v))
    {s : Session} (h : Reached s) : P s.state := by
  induction h with
  | fresh => exact hfresh
  | @evalForm s _ host fuel t ih => exact hP (s.evalForm_law hR (hassign host) fuel t) ih
  | @evalText s _ host fuel src ih => exact hP (s.evalText_law hR (hassign host) fuel src) ih
  | @load s _ host fuel src ih => exact hP (s.load_law hR (hassign host) fuel src) ih
  | @loadFile s _ host fuel path ih => exact hP (s.loadFile_law hR (hassign host) fuel path) ih

/-! ### The frames of the environment -/

theorem evalForm_frames (s : Session) (host : Host) (fuel : Nat) (t : Term) :
    (s.evalFormWith (evalWith host fuel) t).2.env.frames = s.env.frames := by
  unfold evalFormWith perform
  split
  case h_1 v env st heq =>
    obtain ⟨names, -, henv⟩ := evalWith_switches host fuel t s.env s.state v env st heq
    rw [henv, switched_eq]
  case h_2 => rfl
  case h_3 => rfl

theorem evalForms_frames (s : Session) (host : Host) (fuel : Nat) (ts : List Term) (v : Term) :
    (s.evalFormsWith (evalWith host fuel) ts v).2.env.frames = s.env.frames := by
  have hkeeps (s' : Session) (t : Term) (h : s'.env.frames = s.env.frames) :
      (s'.evalFormWith (evalWith host fuel) t).2.env.frames = s.env.frames :=
    (s'.evalForm_frames host fuel t).trans h
  exact evalForms_keeps hkeeps ts v rfl

theorem query_frames {α : Type} (m : Env → Action α) (s : Session) :
    (s.query m).2.env.frames = s.env.frames := by
  unfold query perform
  rw [Action.bind_apply]
  cases m s.env s.state <;> rfl

theorem Reached.frames {s : Session} (h : Reached s) : s.env.frames = [0] := by
  induction h with
  | fresh => rfl
  | @evalForm s _ host fuel t ih => rw [evalForm_frames, ih]
  | @evalText s _ host fuel src ih =>
    unfold evalTextWith
    split
    · exact ih
    · rw [evalForms_frames, ih]
  | @load s _ host fuel src ih => rw [loadWith, query_frames, ih]
  | @loadFile s _ host fuel path ih => rw [loadFileWith, query_frames, ih]

theorem Reached.topEmpty {s : Session} (h : Reached s) : s.TopEmpty := by
  refine ⟨h.frames, h.of_law (FramesKept.law fun _ _ _ => True) fresh_topEmpty ?_ ?_⟩
  · exact fun hkept hs => NamesKept.topEmpty hkept hs
  · exact fun _ _ _ _ _ _ _ hassigns => .assign hassigns.found trivial

end Session

/-- An evaluation, however it ends, leaves the frames that were there with the names that they had,
and a name of them has another value only if a `set!` on its way gave it that value, having found
this frame innermost. Hence the frame at top level of a session stays empty. From a state with such
a frame, a `set!` of a name that no other frame of its environment binds fails when its value has
been evaluated, in the state that this left, and the whole evaluation fails with that error. -/
theorem existing_frames_keep_names (host : Host) (form : Term) (env : Env) (s : State) :
    (∀ r, Evaluates host form env s r → ∃ s', r.state? = some s' ∧
      s.frames.size ≤ s'.frames.size ∧ ∀ i < s.frames.size,
        (s'.frame i).names = (s.frame i).names ∧
        ∀ name, (s'.frame i).get? name ≠ (s.frame i).get? name →
          ∃ d s₁ s₂ v, Comes host (Cursor.start form env) s d s₁ ∧
            Assigns host d s₁ i name v s₂ ∧ (s'.frame i).get? name = some v) ∧
    (∀ session, Session.Reached session → session.TopEmpty) ∧
    (s.TopEmpty → ∀ d s₁ s₂ name value v env', Comes host (Cursor.start form env) s d s₁ →
      AtAssignment d s₁ name value → Evaluates host value d.env s₁ (.value (v, env') s₂) →
      (∀ i ∈ d.env.frames, i ≠ 0 → (s₂.frame i).contains name = false) →
      let e := Error.inForm d.form (.runtime (.notLocal name))
      Returns host d s₁ (.failure e s₂) ∧ ∃ s', Evaluates host form env s (.failure e s')) := by
  refine ⟨fun r h => ?_, fun session h => h.topEmpty, ?_⟩
  · obtain ⟨s', hs', hkept⟩ := evaluates_framesKept h
    refine ⟨s', hs', hkept.size_le, fun i hi => ⟨(hkept.frame hi).names_eq, fun name hne => ?_⟩⟩
    obtain ⟨v, ⟨d, s₁, s₂, hd, hassigns⟩, hv⟩ := ((hkept.frame hi).get_eq_or name).resolve_left hne
    exact ⟨d, s₁, s₂, v, hd, hassigns, hv⟩
  · intro htop d s₁ s₂ name value v env' hd hat hvalue hother e
    -- neither the way to the `set!` nor its value puts a name into the first frame
    have htop₁ : s₁.TopEmpty := (comes_namesKept (start_sound form env) hd).topEmpty htop
    obtain ⟨fuel, hfuel⟩ := hvalue.2
    have hend : (evalWith host fuel value d.env s₁).state? = some s₂ := by
      rw [evalWith, hfuel]
      rfl
    have hkept : NamesKept s₁ s₂ := composed_namesKept (.eval value d.env) hend
    have hfind : s₂.find? d.env name = none := find_eq_none (hkept.topEmpty htop₁).2 hother
    have hreturns : Returns host d s₁ (.failure e s₂) := returns_notLocal hat hvalue hfind
    exact ⟨hreturns, hd.failure (start_sound form env) hreturns (List.cons_ne_nil _ _)⟩

/-- `(let (y 1) (set! x 2))` -/
def assignInLet : Term :=
  .list [.sym "let", .list [.sym "y", .int 1], .list [.sym "set!", .sym "x", .int 2]]

/-- `(set! z 1)` -/
def assignUnbound : Term := .list [.sym "set!", .sym "z", .int 1]

/-- The `set!` in the body of the `let` finds the frame outside of it; in a fresh session there is
none to find. -/
theorem assignInLet_frames :
    let x := Bytes.ofString "x"
    let s := State.empty.addFrame [(x, .int 1)]
    let s' := (State.empty.addFrame [(x, .int 2)]).addFrame [(Bytes.ofString "y", .int 1)]
    let z := Error.runtime (.notLocal (Bytes.ofString "z"))
    Evaluates Host.bare assignInLet ⟨[0], []⟩ s (.value (.int 2, ⟨[0], []⟩) s') ∧
      (∃ d s₁ s₂ v, Comes Host.bare (Cursor.start assignInLet ⟨[0], []⟩) s d s₁ ∧
        Assigns Host.bare d s₁ 0 x v s₂ ∧ (s'.frame 0).get? x = some v) ∧
      ∃ st, Evaluates Host.bare assignUnbound Session.fresh.env Session.fresh.state
        (.failure (.inForm assignUnbound z) st) := by
  intro x s s' z
  have heval : Evaluates Host.bare assignInLet ⟨[0], []⟩ s (.value (.int 2, ⟨[0], []⟩) s') :=
    ⟨nofun, 4, rfl⟩
  refine ⟨heval, ?_, ?_⟩
  · obtain ⟨t, ht, -, hframes⟩ := (existing_frames_keep_names _ _ _ _).1 _ heval
    cases ht
    have hdiffers : (s'.frame 0).get? x ≠ (s.frame 0).get? x := by
      have hnew : (s'.frame 0).get? x = some (.int 2) := rfl
      have hold : (s.frame 0).get? x = some (.int 1) := rfl
      rw [hnew, hold]
      simp [Term.int]
    exact (hframes 0 Nat.zero_lt_one).2 x hdiffers
  · have htop := (existing_frames_keep_names Host.bare assignUnbound Session.fresh.env
      Session.fresh.state).2.1 _ .fresh
    have hother : ∀ i ∈ Session.fresh.env.frames, i ≠ 0 →
        (Session.fresh.state.frame i).contains (Bytes.ofString "z") = false := by
      intro i hi h0
      rw [htop.1] at hi
      exact absurd (List.mem_singleton.mp hi) h0
    exact ((existing_frames_keep_names _ _ _ _).2.2 htop.2 _ _ _ _ _ (.int 1) _ .here
      ⟨_, rfl, rfl, rfl⟩ ⟨nofun, 1, rfl⟩ hother).2

end SmallLisp

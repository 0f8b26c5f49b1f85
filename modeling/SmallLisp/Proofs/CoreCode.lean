import SmallLisp.Proofs.CoreLibrary

/-! Code of the core library in its own environments. The functions of the library run in the core
namespace, inside frames that bind their parameters. As long as the library is intact, the names of
special forms and native functions mean there what they should, unless a frame binds them. -/
namespace SmallLisp

def coreCalls : List (String × Primitive) :=
  [("empty?", .isEmpty), ("first", .first), ("rest", .rest), ("nth", .nth), ("cons", .cons),
    ("reverse", .reverse), ("<", .compare .less), ("-", .sub)]

theorem coreCalls_bound : ∀ c ∈ coreCalls,
    coreNative? (Bytes.ofString c.1) = some (.primitive c.2) ∧
      (Bytes.ofString c.1 ∉ coreDefinitions.map fun d => Bytes.ofString d.name) ∧
      splitQualified (Bytes.ofString c.1) = none ∧
      SpecialForm.ofName? (Bytes.ofString c.1) = none ∧
      (constant? (Bytes.ofString c.1)).isNone := by
  decide +kernel

/-- The core namespace is that of the library, and the frames bind these names at most. -/
structure State.CoreScope (s : State) (frames : List Nat) (names : List Bytes) : Prop where
  core : s.HasCore coreRoot
  unbound {name : Bytes} (h : name ∉ names) : s.Unbound frames name

namespace State.CoreScope

variable {s : State} {frames : List Nat} {names : List Bytes} (h : s.CoreScope frames names)

theorem top {s : State} (h : s.HasCore coreRoot) : s.CoreScope [0] [] :=
  ⟨h, fun _ => h.unbound_top _⟩

include h

/-- Inside of one more frame. -/
theorem push {i : Nat} {frame : Table Term} (hi : s.frame i = frame) :
    s.CoreScope (i :: frames) (frame.names ++ names) := by
  refine ⟨h.core, fun {name} hname j hj => ?_⟩
  obtain ⟨hframe, hnames⟩ := not_or.mp (mt List.mem_append.mpr hname)
  rcases List.mem_cons.mp hj with rfl | hj
  · rw [hi]
    exact Table.get?_eq_none_iff.mpr hframe
  · exact h.unbound hnames j hj

/-- A new frame on top of others. -/
theorem extend (hframes : ∀ i ∈ frames, i < s.frames.size) (f : Table Term) :
    (s.addFrame f).CoreScope (s.frames.size :: frames) (f.names ++ names) := by
  have hbefore : (s.addFrame f).CoreScope frames names :=
    ⟨h.core.addFrame f, fun {name} hname i hi => by
      rw [State.frame_addFrame (hframes i hi)]
      exact h.unbound hname i hi⟩
  exact hbefore.push (State.frame_addFrame_self s f)

omit h in
theorem inner {s : State} {i : Nat} {frame : Table Term} (h : s.HasCore coreRoot)
    (hi : s.frame i = frame) : s.CoreScope [i, 0] frame.names := by
  simpa using (top h).push hi

theorem plain (f : SpecialForm) (hf : f.name ∉ names) :
    macroOf? s ⟨frames, coreName⟩ (.symbol f.name) = none :=
  h.core.special_plain coreRoot_templating f (h.unbound hf)

theorem calls {c : String × Primitive} (hc : c ∈ coreCalls) (hname : Bytes.ofString c.1 ∉ names) :
    s.Calls ⟨frames, coreName⟩ (Bytes.ofString c.1) c.2 := by
  obtain ⟨hnative, hkept, hsplit, hspecial, hconstant⟩ := coreCalls_bound c hc
  exact ⟨h.core.lookup (h.unbound hname) hsplit (coreRoot_native hnative hkept), hspecial,
    Option.isNone_iff_eq_none.mp hconstant⟩

theorem builds (hnames : ∀ name ∈ ["core/cons", "core/concat", "quote"],
    Bytes.ofString name ∉ names) : s.BuildsLists ⟨frames, coreName⟩ where
  cons := h.core.lookup_qualified (h.unbound (hnames "core/cons" (by simp))) (by decide)
    coreRoot_templating.cons
  concat := h.core.lookup_qualified (h.unbound (hnames "core/concat" (by simp))) (by decide)
    coreRoot_templating.concat
  quote := h.plain .quote (hnames "quote" (by simp))

/-- A function of the library, by its name. -/
theorem defined {d : Definition} (hd : d ∈ coreDefinitions) (hname : Bytes.ofString d.name ∉ names)
    (hsplit : splitQualified (Bytes.ofString d.name) = none) :
    ∃ id, s.lookup ⟨frames, coreName⟩ (Bytes.ofString d.name) = .ok (.closure (d.function id)) := by
  obtain ⟨id, hid⟩ := coreSession_hasCore.2.2 d hd
  exact ⟨id, h.core.lookup (h.unbound hname) hsplit hid⟩

end State.CoreScope

/-- A name that the innermost frame binds. -/
theorem computes_local {s : State} {k : Nat} {frames : List Nat} {ns name : Bytes} {v : Term}
    (h : (s.frame k).get? name = some v) (hconstant : constant? name = none) :
    Computes 1 s ⟨k :: frames, ns⟩ (.symbol name) v := .symbol (State.lookup_local h) hconstant

/-- A special form is no macro where its name means what it does in the library. -/
theorem plain_as_loaded {s : State} {env : Env} (f : SpecialForm)
    (h : s.lookup env f.name = coreSession.state.lookup coreEnv f.name) :
    macroOf? s env (.symbol f.name) = none := by
  have hnone := (State.CoreScope.top coreSession_hasCore.1).plain f List.not_mem_nil
  simp only [macroOf?] at hnone ⊢
  rw [h]
  exact hnone

/-! ## What the code of the library depends on besides

Its names are looked up in the imports of the core namespace and in the frame at top level as well.
Where these bind a name, the code can mean something else, although the core namespace itself binds
what it did and has the aliases that it had. -/

/-- The core namespace has its own bindings and aliases as they were in the loaded session. -/
def State.CoreKept (s : State) : Prop :=
  (s.namespaces.get? coreName).map (fun ns => (ns.root, ns.aliases)) =
    (coreSession.state.namespaces.get? coreName).map fun ns => (ns.root, ns.aliases)

def otherName : Bytes := Bytes.ofString "other"

/-- `(function (& xs) 42)`, as a macro -/
def always42 : Closure Term :=
  ⟨coreSession.state.closures, true, [], otherName, [], some (Bytes.ofString "xs"), [.int 42],
    ⟨[0], otherName⟩⟩

/-- The core namespace imports another one in which `if` is a macro. -/
def importedIf : State :=
  ((coreSession.state.require otherName).bindRoot otherName (Bytes.ofString "if")
    (.closure always42)).addImport coreName otherName

/-- The frame at top level binds the name of a function that the library calls. -/
def definedEmpty : State := coreSession.state.define 0 (Bytes.ofString "empty?") (.int 5)

theorem importedIf_kept : importedIf.CoreKept ∧
    ∀ name, splitQualified name = none →
      importedIf.lookup coreSession.env name = coreSession.state.lookup coreEnv name := by
  have hs := coreSession_hasCore.1
  have huser := coreSession_user
  have hframes : importedIf.frames = coreSession.state.frames := by
    exact State.require_frames coreSession.state otherName
  have hrequire {ns : Bytes} (h : otherName ≠ ns) :
      (coreSession.state.require otherName).namespaces.get? ns =
        coreSession.state.namespaces.get? ns := by
    have hcontains : coreSession.state.namespaces.contains coreName = true := by
      rw [Table.contains, hs.core]
      rfl
    unfold State.require
    rw [hcontains, Bool.or_true, if_pos rfl]
    split
    · rfl
    · exact Table.get?_insert_of_ne _ h _
  have hcore : importedIf.namespaces.get? coreName =
      some ⟨coreName, coreRoot, [], [otherName]⟩ := by
    refine (Table.get?_modify_self _ coreName _).trans ?_
    rw [State.bindRoot, Table.get?_modify_of_ne _ (by decide), hrequire (by decide), hs.core]
    rfl
  have huser' : importedIf.namespaces.get? Session.userName =
      some (Namespace.fresh Session.userName) := by
    refine (Table.get?_modify_of_ne _ (by decide) _).trans ?_
    rw [State.bindRoot, Table.get?_modify_of_ne _ (by decide), hrequire (by decide), huser]
  refine ⟨?_, fun name hname => ?_⟩
  · rw [State.CoreKept, hcore, hs.core]
    rfl
  · have hunbound : importedIf.Unbound [0] name := by
      have htop := hs.unbound_top name
      simp only [State.Unbound, State.frame, hframes] at htop ⊢
      exact htop
    exact (State.lookup_fresh hcore huser' (by decide) hunbound hname).trans
      (hs.lookup_eq (hs.unbound_top name) hname).symm

theorem definedEmpty_kept : definedEmpty.CoreKept ∧
    ∀ name, splitQualified name = none → name ≠ Bytes.ofString "empty?" →
      definedEmpty.lookup coreSession.env name = coreSession.state.lookup coreEnv name := by
  have hs := coreSession_hasCore.1
  have hframe : definedEmpty.frame 0 = [(Bytes.ofString "empty?", .int 5)] := by
    rw [definedEmpty, State.frame_define_self hs.top.1, hs.top.2]
    rfl
  refine ⟨rfl, fun name hname hne => ?_⟩
  have hunbound : definedEmpty.Unbound [0] name := by
    intro i hi
    obtain rfl := List.mem_singleton.mp hi
    rw [hframe]
    simp [Table.get?, Ne.symm hne]
  have hcore : definedEmpty.namespaces.get? coreName = _ := hs.core
  have huser : definedEmpty.namespaces.get? Session.userName = _ := coreSession_user
  exact (State.lookup_fresh hcore huser (by decide) hunbound hname).trans
    (hs.lookup_eq (hs.unbound_top name) hname).symm

end SmallLisp

import SmallLisp.Proofs.Computing
import SmallLisp.Proofs.CoreText
import SmallLisp.Proofs.Frames
import SmallLisp.Proofs.ParameterLists

/-! Loading the core library. A definition changes nothing but the namespace it is in, the number of
functions made and the frames (`Definition.enterIn`): a macro is defined by `def`, a function by what
`defn` expands to. So the definitions of a library are entered in turn (`State.enterAllIn`), and
core loads the same way whatever the host (`coreSession_loaded`). -/
namespace SmallLisp

/-! ## Names in the core namespace -/

theorem Table.get?_eq_none_iff {α : Type} {t : Table α} {name : Bytes} :
    t.get? name = none ↔ name ∉ t.names := by
  induction t with
  | nil => simp [Table.get?, Table.names]
  | cons entry t ih =>
    obtain ⟨k, v⟩ := entry
    by_cases h : k = name
    · simp [Table.get?, Table.names, h]
    · simpa [Table.get?, Table.names, h, Ne.symm h] using ih

/-- The core namespace binds these names to these values and has neither aliases nor imports, and
the first frame binds nothing. -/
structure State.HasCore (s : State) (root : Table Term) : Prop where
  top : s.TopEmpty
  core : s.namespaces.get? coreName = some ⟨coreName, root, [], []⟩

def State.Unbound (s : State) (frames : List Nat) (name : Bytes) : Prop :=
  ∀ i ∈ frames, (s.frame i).get? name = none

theorem State.Unbound.findSome {s : State} {frames : List Nat} {name : Bytes}
    (h : s.Unbound frames name) : (frames.findSome? fun i => (s.frame i).get? name) = none :=
  List.findSome?_eq_none_iff.mpr h

/-- A name that the innermost frame binds has the value that it has there. -/
theorem State.lookup_local {s : State} {i : Nat} {frames : List Nat} {ns name : Bytes} {v : Term}
    (h : (s.frame i).get? name = some v) : s.lookup ⟨i :: frames, ns⟩ name = .ok v := by
  simp only [State.lookup, List.findSome?_cons, h]

/-- A namespace as it is when first mentioned sees what the core namespace itself binds. -/
theorem State.lookup_fresh {s : State} {core : Namespace} {frames : List Nat} {ns name : Bytes}
    (hcore : s.namespaces.get? coreName = some core)
    (hns : s.namespaces.get? ns = some (Namespace.fresh ns)) (hne : ns ≠ coreName)
    (hframes : s.Unbound frames name) (hname : splitQualified name = none) :
    s.lookup ⟨frames, ns⟩ name =
      match core.root.get? name with
      | some v => .ok v
      | none => .error (.unbound name) := by
  have hresolve : s.namespaces.resolve ns name = core.root.get? name := by
    simp only [Registry.resolve, hns, Option.bind_some, Namespace.fresh, beq_iff_eq, hne, if_false,
      Table.get?, List.findSome?_cons, List.findSome?_nil, hcore]
    cases core.root.get? name <;> rfl
  cases hv : core.root.get? name <;>
    simp only [State.lookup, hframes.findSome, hname, hresolve, hv]

namespace State.HasCore

variable {s : State} {root : Table Term} {frames : List Nat} {name : Bytes} {v : Term}

/-- A name that no frame binds is looked up in the core namespace. -/
theorem lookup_eq (h : s.HasCore root) (hframes : s.Unbound frames name)
    (hname : splitQualified name = none) :
    s.lookup ⟨frames, coreName⟩ name =
      match root.get? name with
      | some v => .ok v
      | none => .error (.unbound name) := by
  have hresolve : s.namespaces.resolve coreName name = root.get? name := by
    simp only [Registry.resolve, h.core, Option.bind_some, List.findSome?_nil]
    cases root.get? name <;> rfl
  cases hv : root.get? name <;> simp only [State.lookup, hframes.findSome, hname, hresolve, hv]

theorem lookup (h : s.HasCore root) (hframes : s.Unbound frames name)
    (hname : splitQualified name = none) (hv : root.get? name = some v) :
    s.lookup ⟨frames, coreName⟩ name = .ok v := by
  rw [h.lookup_eq hframes hname, hv]

/-- So is a name with `core/` before it. -/
theorem lookup_qualified {full : Bytes} (h : s.HasCore root) (hframes : s.Unbound frames full)
    (hfull : splitQualified full = some (coreName, name)) (hv : root.get? name = some v) :
    s.lookup ⟨frames, coreName⟩ full = .ok v := by
  have htarget : s.namespaces.target? coreName coreName = some coreName := by
    simp only [Registry.target?, h.core, Option.bind_some, Table.get?, Table.contains,
      Option.isSome_some, if_true]
  have hresolve : s.namespaces.resolve coreName name = some v := by
    simp only [Registry.resolve, h.core, Option.bind_some, hv]
  simp only [State.lookup, hframes.findSome, hfull, htarget, hresolve]

/-- A name that core does not bind is no macro there. -/
theorem macroOf_eq_none (h : s.HasCore root) (hframes : s.Unbound frames name)
    (hname : splitQualified name = none) (hroot : root.get? name = none) :
    macroOf? s ⟨frames, coreName⟩ (.symbol name) = none := by
  simp only [macroOf?, h.lookup_eq hframes hname, hroot]

/-- A namespace as it is when first mentioned sees the core namespace. -/
theorem lookup_fresh {ns : Bytes} (h : s.HasCore root)
    (hns : s.namespaces.get? ns = some (Namespace.fresh ns)) (hne : ns ≠ coreName)
    (hframes : s.Unbound frames name) (hname : splitQualified name = none) :
    s.lookup ⟨frames, ns⟩ name =
      match root.get? name with
      | some v => .ok v
      | none => .error (.unbound name) := State.lookup_fresh h.core hns hne hframes hname

theorem addFrame (h : s.HasCore root) (f : Table Term) : (s.addFrame f).HasCore root := by
  refine ⟨⟨by simp, ?_⟩, h.core⟩
  rw [State.frame_addFrame h.top.1, h.top.2]

theorem count (h : s.HasCore root) (n : Nat) : State.HasCore { s with closures := n } root :=
  ⟨h.top, h.core⟩

theorem unbound_top (h : s.HasCore root) (name : Bytes) : s.Unbound [0] name := by
  intro i hi
  obtain rfl := List.mem_singleton.mp hi
  rw [h.top.2]
  rfl

theorem unbound_new (h : s.HasCore root) {f : Table Term} (hname : name ∉ f.names) :
    (s.addFrame f).Unbound [s.frames.size, 0] name := by
  intro i hi
  rcases List.mem_cons.mp hi with rfl | hi
  · rw [State.frame_addFrame_self]
    exact Table.get?_eq_none_iff.mpr hname
  · exact (h.addFrame f).unbound_top name i hi

end State.HasCore

/-- What the templates of macros ask of the core namespace: the functions that build lists, and no
other meaning for the names of special forms. -/
structure Table.Templating (root : Table Term) : Prop where
  special (f : SpecialForm) : root.get? f.name = none
  cons : root.get? (Bytes.ofString "cons") = some (.native (.primitive .cons))
  concat : root.get? (Bytes.ofString "concat") = some (.native (.primitive .concat))

/-! ## What a definition does -/

namespace Definition

def function (d : Definition) (id : Nat) : Closure Term :=
  ⟨id, d.isMacro, (d.doc.map Bytes.ofString).getD [], coreName, d.params.map Bytes.ofString,
    d.rest.map Bytes.ofString, [d.body], ⟨[0], coreName⟩⟩

/-- The arguments of `defn`. -/
def frame (d : Definition) : Table Term :=
  [(Bytes.ofString "name", .sym d.name), (Bytes.ofString "decl", .list d.parts)]

/-- The state after the definition. A macro is a copy of a function; the expansion of `defn` leaves
a frame behind. -/
def enter (d : Definition) (s : State) : State :=
  let name := Bytes.ofString d.name
  if d.isMacro then
    { s with closures := s.closures + 2 }.bindRoot coreName name
      (.closure (d.function (s.closures + 1)))
  else
    { s.addFrame d.frame with closures := s.closures + 1 }.bindRoot coreName name
      (.closure (d.function s.closures))

def functionIn (d : Definition) (ns : Bytes) (id : Nat) : Closure Term :=
  { d.function id with home := ns, env := ⟨[0], ns⟩ }

def enterIn (d : Definition) (ns : Bytes) (s : State) : State :=
  let name := Bytes.ofString d.name
  if d.isMacro then
    { s with closures := s.closures + 2 }.bindRoot ns name
      (.closure (d.functionIn ns (s.closures + 1)))
  else
    { s.addFrame d.frame with closures := s.closures + 1 }.bindRoot ns name
      (.closure (d.functionIn ns s.closures))

/-- The names that definitions leave alone. -/
def reserved : List Bytes :=
  [Bytes.ofString "cons", Bytes.ofString "concat"] ++ SpecialForm.all.map SpecialForm.name

def Proper (d : Definition) : Prop :=
  [38] ∉ d.params.map Bytes.ofString ∧ (∀ rest ∈ d.rest, Bytes.ofString rest ≠ []) ∧
    Bytes.ofString d.name ∉ reserved

instance : DecidablePred Proper := fun d =>
  inferInstanceAs (Decidable ([38] ∉ d.params.map Bytes.ofString ∧
    (∀ rest ∈ d.rest, Bytes.ofString rest ≠ []) ∧ Bytes.ofString d.name ∉ reserved))

variable {d : Definition} {s : State} {root : Table Term}

theorem Proper.split (h : d.Proper) :
    splitParams d.names = .ok (d.params.map Bytes.ofString, d.rest.map Bytes.ofString) := by
  obtain ⟨hparams, hrest, -⟩ := h
  unfold names
  cases hr : d.rest with
  | none => simpa using splitParams_of_not_mem hparams
  | some rest =>
    have hne : Bytes.ofString rest ≠ [] := hrest rest hr
    rw [splitParams_of_mark hparams]
    simp [hne]

/-- Making the function, as a macro or not. -/
theorem Proper.makeFunction (h : d.Proper) (ev : Evaluate) (ns : Bytes) (s : State) :
    makeFunction ev ⟨[0], ns⟩ d.parts s =
      .value (.closure { d.functionIn ns s.closures with isMacro := false })
        { s with closures := s.closures + 1 } := by
  unfold parts functionIn function
  cases hd : d.doc with
  | none => rw [makeFunction_of_names, makeClosure_of_names h.split]; rfl
  | some doc => exact makeClosure_of_names h.split _

theorem special_reserved (f : SpecialForm) : f.name ∈ reserved :=
  List.mem_append_right _ (List.mem_map_of_mem (by cases f <;> decide))

theorem Proper.ne_reserved (h : d.Proper) {name : Bytes} (hname : name ∈ reserved) :
    Bytes.ofString d.name ≠ name := by
  rintro rfl
  exact h.2.2 hname

theorem Proper.templating (h : d.Proper) (hroot : root.Templating) (v : Term) :
    Table.Templating (root.insert (Bytes.ofString d.name) v) := by
  refine ⟨fun f => ?_, ?_, ?_⟩
  · rw [Table.get?_insert_of_ne _ (h.ne_reserved (special_reserved f))]
    exact hroot.special f
  · rw [Table.get?_insert_of_ne _ (h.ne_reserved (by simp [reserved]))]
    exact hroot.cons
  · rw [Table.get?_insert_of_ne _ (h.ne_reserved (by simp [reserved]))]
    exact hroot.concat

end Definition

/-! ## Evaluating definitions -/

/-- The environment of the library: the first frame, in the core namespace. -/
def coreEnv : Env := ⟨[0], coreName⟩

/-- Special forms have their own meaning where core is all there is. -/
theorem State.HasCore.special_plain {s : State} {root : Table Term} {frames : List Nat}
    (hs : s.HasCore root) (hroot : root.Templating) (f : SpecialForm)
    (hframes : s.Unbound frames f.name) :
    macroOf? s ⟨frames, coreName⟩ (.symbol f.name) = none :=
  hs.macroOf_eq_none hframes (by cases f <;> decide) (hroot.special f)

/-- The namespace binds these names to these values, and its aliases and imports are as they were
when it was first mentioned. -/
def State.Holds (s : State) (ns : Bytes) (root : Table Term) : Prop :=
  s.namespaces.get? ns = some { Namespace.fresh ns with root := root }

/-- What evaluating definitions asks of a namespace and of the core namespace. -/
structure State.DefinesIn (s : State) (ns : Bytes) (core root : Table Term) : Prop where
  hasCore : s.HasCore core
  templating : core.Templating
  here : s.Holds ns root
  special (f : SpecialForm) : root.get? f.name = none

namespace State.DefinesIn

variable {s : State} {ns name : Bytes} {core root : Table Term} {frames : List Nat}

theorem root_eq (h : s.DefinesIn coreName core root) : root = core := by
  have hsame := h.here.symm.trans h.hasCore.core
  exact congrArg Namespace.root (Option.some.inj hsame)

/-- A name that the namespace does not bind is looked up in core. -/
theorem lookup_eq (h : s.DefinesIn ns core root) (hframes : s.Unbound frames name)
    (hname : splitQualified name = none) :
    s.lookup ⟨frames, ns⟩ name =
      ((root.get? name).or (core.get? name)).elim (.error (.unbound name)) .ok := by
  by_cases hns : ns = coreName
  · subst hns
    obtain rfl := h.root_eq
    rw [h.hasCore.lookup_eq hframes hname]
    cases root.get? name <;> rfl
  · have hresolve : s.namespaces.resolve ns name = (root.get? name).or (core.get? name) := by
      have hhere : s.namespaces.get? ns = some ⟨ns, root, [], [coreName]⟩ := by
        rw [h.here, Namespace.fresh, if_neg (by simpa using hns)]
      simp only [Registry.resolve, hhere, Option.bind_some, List.findSome?_cons,
        List.findSome?_nil, h.hasCore.core]
      cases root.get? name <;> cases core.get? name <;> rfl
    cases hv : (root.get? name).or (core.get? name) <;>
      simp only [State.lookup, hframes.findSome, hname, hresolve, hv, Option.elim]

theorem special_plain (h : s.DefinesIn ns core root) (f : SpecialForm)
    (hframes : s.Unbound frames f.name) : macroOf? s ⟨frames, ns⟩ (.symbol f.name) = none := by
  have hlookup := h.lookup_eq hframes (by cases f <;> decide)
  rw [h.special f, h.templating.special f] at hlookup
  simp only [macroOf?, hlookup, Option.or_none, Option.elim]

theorem addFrame (h : s.DefinesIn ns core root) (f : Table Term) :
    (s.addFrame f).DefinesIn ns core root :=
  ⟨h.hasCore.addFrame f, h.templating, h.here, h.special⟩

end State.DefinesIn

theorem State.HasCore.holds {s : State} {root : Table Term} (hs : s.HasCore root) :
    s.Holds coreName root := hs.core

theorem State.HasCore.definesIn {s : State} {root : Table Term} (hs : s.HasCore root)
    (hroot : root.Templating) : s.DefinesIn coreName root root :=
  ⟨hs, hroot, hs.holds, hroot.special⟩

namespace Definition

variable {d : Definition} {s : State} {ns : Bytes} {core root : Table Term}

theorem Proper.evalWith_function (h : d.Proper) (hs : s.DefinesIn ns core root) (host : Host)
    {fuel : Nat} (hfuel : 1 ≤ fuel) :
    evalWith host fuel (formOf "function" d.parts) ⟨[0], ns⟩ s =
      .value (.closure { d.functionIn ns s.closures with isMacro := false }, ⟨[0], ns⟩)
        { s with closures := s.closures + 1 } := by
  obtain ⟨fuel, rfl⟩ : ∃ more, fuel = more + 1 := ⟨fuel - 1, by omega⟩
  have hplain : macroOf? s ⟨[0], ns⟩ (.sym "function") = none :=
    hs.special_plain .function (hs.hasCore.unbound_top _)
  rw [formOf, evalWith_special host fuel hplain (f := .function) (by decide)]
  simp only [Action.inForm, Cursor.special, Action.bind_apply]
  rw [h.makeFunction]
  rfl

theorem Proper.value_function (h : d.Proper) (hs : s.DefinesIn ns core root) (host : Host)
    {fuel : Nat} (hfuel : 1 ≤ fuel) :
    (evalWith host fuel).value (formOf "function" d.parts) ⟨[0], ns⟩ s =
      .value (.closure { d.functionIn ns s.closures with isMacro := false })
        { s with closures := s.closures + 1 } :=
  value_of_evalWith (h.evalWith_function hs host hfuel)

/-- A macro is defined by `defmacro`. -/
theorem Proper.evalWith_macro (h : d.Proper) (hd : d.isMacro = true)
    (hs : s.DefinesIn ns core root) (host : Host) {fuel : Nat} (hfuel : 2 ≤ fuel) :
    evalWith host fuel d.form ⟨[0], ns⟩ s =
      .value (.symbol (qualify ns (Bytes.ofString d.name)), ⟨[0], ns⟩) (d.enterIn ns s) := by
  obtain ⟨fuel, rfl⟩ : ∃ more, fuel = more + 1 := ⟨fuel - 1, by omega⟩
  have hplain : macroOf? s ⟨[0], ns⟩ (.sym "defmacro") = none :=
    hs.special_plain .defineMacro (hs.hasCore.unbound_top _)
  have hone : 1 ≤ fuel := by omega
  have hvalue := h.value_function hs host hone
  simp only [form, hd, if_true]
  rw [formOf, evalWith_special host fuel hplain (f := .defineMacro) (by decide)]
  simp only [Action.inForm, Cursor.special, Cursor.defineMacro, Term.sym, Action.bind_apply, hvalue]
  simp [finishRun, enterIn, hd, functionIn, function, Action.update, Cursor.finish]
  rfl

/-- The expansion of `defn`, where its arguments are bound. -/
theorem computes_defn (hs : s.HasCore root) (hroot : root.Templating) :
    Computes 20 (s.addFrame d.frame) ⟨[s.frames.size, 0], coreName⟩ defnMacro.body
      (formOf "def" [.sym d.name, formOf "function" d.parts]) := by
  let env : Env := ⟨[s.frames.size, 0], coreName⟩
  have hframe {name : Bytes} (h : name ≠ Bytes.ofString "name" ∧ name ≠ Bytes.ofString "decl") :
      (s.addFrame d.frame).Unbound env.frames name := by
    refine hs.unbound_new ?_
    simpa [frame, Table.names] using h
  have hplain (f : SpecialForm) : macroOf? (s.addFrame d.frame) env (.symbol f.name) = none :=
    (hs.addFrame _).special_plain hroot f (hframe (by cases f <;> decide))
  have hbuilds : (s.addFrame d.frame).BuildsLists env := by
    refine ⟨?_, ?_, hplain .quote⟩
    · exact (hs.addFrame _).lookup_qualified (hframe (by decide)) (by decide) hroot.cons
    · exact (hs.addFrame _).lookup_qualified (hframe (by decide)) (by decide) hroot.concat
  have hname : Computes 1 (s.addFrame d.frame) env (.sym "name") (.sym d.name) :=
    .symbol (State.lookup_local (by rw [State.frame_addFrame_self]; rfl)) (by decide)
  have hdecl : Computes 1 (s.addFrame d.frame) env (.sym "decl") (.list d.parts) :=
    .symbol (State.lookup_local (by rw [State.frame_addFrame_self]; rfl)) (by decide)
  have hfunction := (Computes.quote hbuilds.quote (.sym "function")).built_cons hbuilds
    (hdecl.built_concat hbuilds .empty)
  have hdef := (Computes.quote hbuilds.quote (.sym "def")).built_cons hbuilds
    (hname.built_cons hbuilds (hfunction.built_cons hbuilds .empty))
  rw [List.append_nil] at hdef
  exact (hdef.quasiquote (hplain .quasiquote) rfl).mono (by decide)

/-- A function is defined by the expansion of `defn`. -/
theorem Proper.evalWith_function_definition (h : d.Proper) (hd : d.isMacro = false)
    (hs : s.DefinesIn ns core root) {id : Nat}
    (hdefn : (root.get? (Bytes.ofString "defn")).or (core.get? (Bytes.ofString "defn")) =
      some (.closure (defnMacro.function id)))
    (host : Host) {fuel : Nat} (hfuel : 30 ≤ fuel) :
    evalWith host fuel d.form ⟨[0], ns⟩ s =
      .value (.symbol (qualify ns (Bytes.ofString d.name)), ⟨[0], ns⟩) (d.enterIn ns s) := by
  obtain ⟨fuel, rfl⟩ : ∃ more, fuel = more + 2 := ⟨fuel - 2, by omega⟩
  let env : Env := ⟨[0], ns⟩
  let expanded := formOf "def" [.sym d.name, formOf "function" d.parts]
  have hform : d.form = formOf "defn" (.sym d.name :: d.parts) := by
    simp [form, hd]
  have hcall : macroCall? s env d.form = some (defnMacro.function id, .sym d.name :: d.parts) := by
    have hlookup := hs.lookup_eq (hs.hasCore.unbound_top (Bytes.ofString "defn")) (by decide)
    rw [hdefn] at hlookup
    have hm : macroOf? s env (.sym "defn") = some (defnMacro.function id) := by
      simp only [macroOf?, Term.sym, env, hlookup, Option.elim]
      rfl
    rw [hform, formOf, macroCall?, hm]
    rfl
  have hexpand : (defnMacro.function id).expand (evalWith host (fuel + 1))
      (.sym d.name :: d.parts) s = .value expanded (s.addFrame d.frame) :=
    (computes_defn hs.hasCore hs.templating).expand rfl rfl host (by omega)
  have hframe := hs.addFrame d.frame
  have hplain : macroOf? (s.addFrame d.frame) env (.sym "def") = none :=
    hframe.special_plain .define (hframe.hasCore.unbound_top _)
  have hone : 1 ≤ fuel := by omega
  have hvalue : (evalWith host fuel).value (formOf "function" d.parts) env (s.addFrame d.frame) =
      _ := h.value_function hframe host hone
  have hstep := step_of_call host (evalWith host (fuel + 1)) (fuel + 1)
    (c := Cursor.start d.form env) hcall
  rw [hexpand] at hstep
  rw [evalWith, run_eq_finishRun, hstep]
  have hdefine : evalWith host (fuel + 1) expanded env (s.addFrame d.frame) =
      .value (.symbol (qualify ns (Bytes.ofString d.name)), env) (d.enterIn ns s) := by
    simp only [expanded, env]
    rw [formOf, evalWith_special host fuel hplain (f := .define) (by decide)]
    simp only [Action.inForm, Cursor.special, Cursor.define, Term.sym, Action.bind_apply, hvalue]
    simp [finishRun, enterIn, hd, functionIn, function, Action.update, Cursor.finish]
    rfl
  rw [finishRun]
  refine (run_last host (fuel + 1) d.form expanded env _).trans ?_
  rw [Action.inForm, hdefine]

def number (d : Definition) (s : State) : Nat :=
  if d.isMacro then s.closures + 1 else s.closures

theorem enterIn_holds (d : Definition) (h : s.Holds ns root) :
    (d.enterIn ns s).Holds ns
      (root.insert (Bytes.ofString d.name) (.closure (d.functionIn ns (d.number s)))) := by
  have hbind (st : State) (hst : st.Holds ns root) (v : Term) :
      (st.bindRoot ns (Bytes.ofString d.name) v).Holds ns
        (root.insert (Bytes.ofString d.name) v) := by
    rw [State.Holds, State.bindRoot, Table.get?_modify_self, hst]
    rfl
  unfold enterIn number
  cases d.isMacro
  · exact hbind { s.addFrame d.frame with closures := s.closures + 1 } h _
  · exact hbind { s with closures := s.closures + 2 } h _

/-- Other namespaces are left alone. -/
theorem enterIn_other (d : Definition) (s : State) {other : Bytes} (h : ns ≠ other) :
    (d.enterIn ns s).namespaces.get? other = s.namespaces.get? other := by
  unfold enterIn
  cases d.isMacro <;> exact Table.get?_modify_of_ne _ h _

theorem enterIn_topEmpty (d : Definition) (ns : Bytes) (h : s.TopEmpty) :
    (d.enterIn ns s).TopEmpty := by
  unfold enterIn
  cases d.isMacro
  · refine ⟨?_, ?_⟩
    · exact Nat.lt_of_lt_of_eq (Nat.succ_pos _) (s.addFrame_size d.frame).symm
    · exact (State.frame_addFrame h.1 d.frame).trans h.2
  · exact h

/-- After a definition there can be more of them. -/
theorem Proper.enterIn_definesIn (h : d.Proper) (hs : s.DefinesIn ns core root) :
    ∃ core' root', (d.enterIn ns s).DefinesIn ns core' root' ∧
      ∀ name, Bytes.ofString d.name ≠ name →
        (root'.get? name).or (core'.get? name) = (root.get? name).or (core.get? name) := by
  let v : Term := .closure (d.functionIn ns (d.number s))
  have hhere := d.enterIn_holds hs.here
  have htop := d.enterIn_topEmpty ns hs.hasCore.top
  by_cases hns : ns = coreName
  · subst hns
    obtain rfl := hs.root_eq
    refine ⟨_, _, State.HasCore.definesIn ⟨htop, hhere⟩ (h.templating hs.templating v),
      fun name hname => ?_⟩
    rw [Table.get?_insert_of_ne root hname]
  · refine ⟨core, _, ⟨⟨htop, ?_⟩, hs.templating, hhere, fun f => ?_⟩, fun name hname => ?_⟩
    · exact (d.enterIn_other s hns).trans hs.hasCore.core
    · rw [Table.get?_insert_of_ne root (h.ne_reserved (special_reserved f))]
      exact hs.special f
    · rw [Table.get?_insert_of_ne root hname]

end Definition

def State.enterAllIn (s : State) (ns : Bytes) (ds : List Definition) : State :=
  ds.foldl (fun s d => d.enterIn ns s) s

def State.enterAll (s : State) (ds : List Definition) : State := ds.foldl (fun s d => d.enter s) s

theorem State.enterAll_eq (s : State) (ds : List Definition) :
    s.enterAll ds = s.enterAllIn coreName ds := rfl

namespace State

variable {s : State} {ns : Bytes} {core root : Table Term}

/-- Definitions with different names bind these names and no others. -/
theorem Holds.enterAllIn (h : s.Holds ns root) {ds : List Definition}
    (hnames : (ds.map fun d => Bytes.ofString d.name).Nodup) :
    ∃ root', (s.enterAllIn ns ds).Holds ns root' ∧
      (∀ name, name ∉ ds.map (fun d => Bytes.ofString d.name) →
        root'.get? name = root.get? name) ∧
      ∀ d ∈ ds, ∃ id, root'.get? (Bytes.ofString d.name) =
        some (.closure (d.functionIn ns id)) := by
  induction ds generalizing s root with
  | nil => exact ⟨root, h, fun _ _ => rfl, List.forall_mem_nil _⟩
  | cons d ds ih =>
    obtain ⟨hnew, hnames⟩ := List.nodup_cons.mp hnames
    obtain ⟨root', hs', hothers, hbound⟩ := ih (d.enterIn_holds h) hnames
    refine ⟨root', hs', fun name hname => ?_, List.forall_mem_cons.mpr ⟨?_, hbound⟩⟩
    · obtain ⟨hne, hname⟩ := not_or.mp (mt List.mem_cons.mpr hname)
      rw [hothers name hname, Table.get?_insert_of_ne _ (Ne.symm hne)]
    · exact ⟨_, (hothers _ hnew).trans (Table.get?_insert_self _ _ _)⟩

theorem enterAllIn_other (s : State) (ds : List Definition) {other : Bytes} (h : ns ≠ other) :
    (s.enterAllIn ns ds).namespaces.get? other = s.namespaces.get? other := by
  induction ds generalizing s with
  | nil => rfl
  | cons d ds ih => exact (ih (d.enterIn ns s)).trans (d.enterIn_other s h)

theorem TopEmpty.enterAllIn (h : s.TopEmpty) (ns : Bytes) (ds : List Definition) :
    (s.enterAllIn ns ds).TopEmpty := by
  induction ds generalizing s with
  | nil => exact h
  | cons d ds ih => exact ih (d.enterIn_topEmpty ns h)

/-- Definitions are evaluated one after the other, once `defn` is there. -/
theorem DefinesIn.inTurn_definitions (hs : s.DefinesIn ns core root) {id : Nat}
    (hdefn : (root.get? (Bytes.ofString "defn")).or (core.get? (Bytes.ofString "defn")) =
      some (.closure (defnMacro.function id)))
    {ds : List Definition} (hproper : ∀ d ∈ ds, d.Proper)
    (hnames : ∀ d ∈ ds, Bytes.ofString d.name ≠ Bytes.ofString "defn") (host : Host) {fuel : Nat}
    (hfuel : 30 ≤ fuel) (v : Term) :
    ∃ w, (evalWith host fuel).inTurn (ds.map Definition.form) v ⟨[0], ns⟩ s =
      .value (w, ⟨[0], ns⟩) (s.enterAllIn ns ds) := by
  induction ds generalizing s core root v with
  | nil => exact ⟨v, rfl⟩
  | cons d ds ih =>
    obtain ⟨hd, hproper⟩ := List.forall_mem_cons.mp hproper
    obtain ⟨hname, hnames⟩ := List.forall_mem_cons.mp hnames
    have heval : evalWith host fuel d.form ⟨[0], ns⟩ s =
        .value (.symbol (qualify ns (Bytes.ofString d.name)), ⟨[0], ns⟩) (d.enterIn ns s) := by
      cases hkind : d.isMacro with
      | true => exact hd.evalWith_macro hkind hs host (by omega)
      | false => exact hd.evalWith_function_definition hkind hs hdefn host hfuel
    obtain ⟨core', root', hs', hothers⟩ := hd.enterIn_definesIn hs
    rw [List.map_cons, inTurn_cons, heval]
    exact ih hs' ((hothers _ hname).trans hdefn) hproper hnames _

/-- So are definitions of which the first is that of `defn`. -/
theorem DefinesIn.inTurn_from_defn (hs : s.DefinesIn coreName core root) {ds : List Definition}
    (hproper : ∀ d ∈ defnMacro :: ds, d.Proper)
    (hnames : ∀ d ∈ ds, Bytes.ofString d.name ≠ Bytes.ofString "defn") (host : Host) {fuel : Nat}
    (hfuel : 30 ≤ fuel) (v : Term) :
    ∃ w, (evalWith host fuel).inTurn ((defnMacro :: ds).map Definition.form) v coreEnv s =
      .value (w, coreEnv) (s.enterAllIn coreName (defnMacro :: ds)) := by
  obtain ⟨hdefn, hproper⟩ := List.forall_mem_cons.mp hproper
  obtain ⟨core', root', hs', -⟩ := hdefn.enterIn_definesIn hs
  have hbound : (root'.get? (Bytes.ofString "defn")).or (core'.get? (Bytes.ofString "defn")) =
      some (.closure (defnMacro.function (defnMacro.number s))) := by
    have hsame := (defnMacro.enterIn_holds hs.here).symm.trans hs'.here
    have hroot : root.insert (Bytes.ofString "defn")
        (.closure (defnMacro.function (defnMacro.number s))) = root' :=
      congrArg Namespace.root (Option.some.inj hsame)
    rw [← hroot, Table.get?_insert_self, Option.some_or]
  have htwo : 2 ≤ fuel := by omega
  rw [List.map_cons, inTurn_cons, coreEnv, hdefn.evalWith_macro rfl hs host htwo]
  exact hs'.inTurn_definitions hbound hproper hnames host hfuel _

end State

/-! ## The library -/

def coreNatives : Table Term := Builtin.core.map fun e => (e.name, .native e.function)

-- the table of the namespace is built up by binding one function after the other
set_option maxRecDepth 10000 in
theorem fresh_hasCore : Session.fresh.state.HasCore coreNatives :=
  ⟨Session.fresh_topEmpty, rfl⟩

set_option maxRecDepth 10000 in
theorem fresh_user : Session.fresh.state.namespaces.get? Session.userName =
    some (Namespace.fresh Session.userName) := rfl

def coreNative? (name : Bytes) : Option Builtin :=
  (Builtin.core.find? fun e => e.name == name).map Builtin.Entry.function

theorem coreNatives_get? (name : Bytes) :
    coreNatives.get? name = (coreNative? name).map .native := by
  unfold coreNatives coreNative?
  induction Builtin.core with
  | nil => rfl
  | cons e es ih =>
    simp only [List.map_cons, Table.get?, List.find?_cons]
    cases e.name == name with
    | true => rfl
    | false => exact ih

theorem coreNatives_templating : coreNatives.Templating := by
  have hspecial : SpecialForm.all.all fun f => (coreNative? f.name).isNone := by decide +kernel
  have hcons : coreNative? (Bytes.ofString "cons") = some (.primitive .cons) := by decide +kernel
  have hconcat : coreNative? (Bytes.ofString "concat") = some (.primitive .concat) := by
    decide +kernel
  refine ⟨fun f => ?_, ?_, ?_⟩
  · have hf : f ∈ SpecialForm.all := by cases f <;> decide
    rw [coreNatives_get?, Option.isNone_iff_eq_none.mp (List.all_eq_true.mp hspecial f hf)]
    rfl
  · rw [coreNatives_get?, hcons]
    rfl
  · rw [coreNatives_get?, hconcat]
    rfl

theorem coreDefinitions_proper : ∀ d ∈ coreDefinitions, d.Proper := by
  decide +kernel

theorem coreDefinitions_nodup : (coreDefinitions.map fun d => Bytes.ofString d.name).Nodup := by
  decide +kernel

theorem loadText_of_parse {src : Bytes} {forms : List Term} (h : parse src = .ok forms)
    (ev : Evaluate) (env : Env) : loadText ev src env = ev.value (sequenceOf forms) env := by
  simp only [loadText, h]

/-- Evaluating the definitions in a namespace, from the namespace `user`. -/
theorem State.DefinesIn.loadText {s : State} {ns src : Bytes} {core root : Table Term} {host : Host}
    {fuel : Nat} (huser : s.DefinesIn Session.userName core []) (hs : s.DefinesIn ns core root)
    {ds : List Definition}
    (hparse : parse src = .ok (formOf "in-ns" [.symbol ns] :: ds.map Definition.form))
    (hturn : ∀ v, ∃ w, (evalWith host (fuel + 1)).inTurn (ds.map Definition.form) v ⟨[0], ns⟩ s =
      .value (w, ⟨[0], ns⟩) (s.enterAllIn ns ds)) :
    ∃ w, SmallLisp.loadText (evalWith host (fuel + 2)) src ⟨[0], Session.userName⟩ s =
      .value w (s.enterAllIn ns ds) := by
  have hplain (f : SpecialForm) : macroOf? s ⟨[0], Session.userName⟩ (.symbol f.name) = none :=
    huser.special_plain f (hs.hasCore.unbound_top _)
  have hrequire : s.require ns = s := by
    have hcontains : s.namespaces.contains ns = true := Option.isSome_iff_exists.mpr ⟨_, hs.here⟩
    rw [State.require, if_pos hcontains]
  have hin : macroOf? s ⟨[0], Session.userName⟩ (.sym "in-ns") = none := hplain .inNs
  have hswitch : evalWith host (fuel + 1) (formOf "in-ns" [.symbol ns])
      ⟨[0], Session.userName⟩ s = .value (.symbol ns, ⟨[0], ns⟩) s := by
    rw [formOf, evalWith_special host fuel hin (f := .inNs) (by decide)]
    exact congrArg (Outcome.value (Term.symbol ns, (⟨[0], ns⟩ : Env))) hrequire
  obtain ⟨w, hrest⟩ := hturn (.symbol ns)
  refine ⟨w, ?_⟩
  have hdo : macroOf? s ⟨[0], Session.userName⟩ (.sym "do") = none := hplain .sequence
  have hvalue : evalWith host (fuel + 2)
      (sequenceOf (formOf "in-ns" [.symbol ns] :: ds.map Definition.form))
      ⟨[0], Session.userName⟩ s = .value (w, ⟨[0], ns⟩) (s.enterAllIn ns ds) := by
    rw [sequenceOf, evalWith_do host (fuel + 1) hdo specialForm_do, Action.inForm, inTurn_cons,
      hswitch]
    simp only [hrest]
  rw [loadText_of_parse hparse]
  exact value_of_evalWith hvalue

/-- Loading the core library evaluates its definitions and nothing else, also when it has been
loaded before. -/
theorem State.DefinesIn.loadText_core {s : State} {core : Table Term}
    (huser : s.DefinesIn Session.userName core []) (host : Host) {fuel : Nat} (hfuel : 40 ≤ fuel) :
    ∃ w, SmallLisp.loadText (evalWith host fuel) (Bytes.ofString Library.core)
      ⟨[0], Session.userName⟩ s = .value w (s.enterAllIn coreName coreDefinitions) := by
  obtain ⟨fuel, rfl⟩ : ∃ more, fuel = more + 2 := ⟨fuel - 2, by omega⟩
  have hs := huser.hasCore.definesIn huser.templating
  have hcore : 30 ≤ fuel + 1 := by omega
  exact huser.loadText hs parse_core
    (hs.inTurn_from_defn coreDefinitions_proper (by decide +kernel) host hcore)

theorem fresh_definesIn : Session.fresh.state.DefinesIn Session.userName coreNatives [] :=
  ⟨fresh_hasCore, coreNatives_templating, fresh_user, fun _ => rfl⟩

/-- Loading the library into a fresh session. -/
theorem loadText_core (host : Host) {fuel : Nat} (hfuel : 40 ≤ fuel) :
    ∃ w, loadText (evalWith host fuel) (Bytes.ofString Library.core) Session.fresh.env
      Session.fresh.state = .value w (Session.fresh.state.enterAll coreDefinitions) :=
  fresh_definesIn.loadText_core host hfuel

/-- A fresh session into which the core library has been loaded (`coreSession_loaded`). -/
def coreSession : Session :=
  ⟨Session.fresh.state.enterAll coreDefinitions, Session.fresh.env⟩

theorem coreSession_state :
    coreSession.state = Session.fresh.state.enterAllIn coreName coreDefinitions := by
  rw [← State.enterAll_eq, coreSession]

theorem Session.load_of_value {host : Host} {src : Bytes} {s : Session} {w : Term} {st : State}
    (h : loadText (eval host) src s.env s.state = .value w st) :
    s.load host src = (.value (), ⟨st, s.env⟩) := by
  simp only [Session.load, Session.loadWith, Session.query, Session.perform, Action.bind_apply, h]
  rfl

theorem Session.loadLibraries_single {host : Host} {name src : Bytes} {s s' : Session}
    (hsource : Library.source? name = some src) (h : s.load host src = (.value (), s')) :
    s.loadLibraries host [name] = (.value (), s') := by
  simp only [Session.loadLibraries, hsource, h]

/-- The core library loads, with the same result whatever the host. -/
theorem coreSession_loaded (host : Host) :
    Session.fresh.loadLibraries host [coreName] = (.value (), coreSession) := by
  have hsource : Library.source? coreName = some (Bytes.ofString Library.core) := by
    simp [Library.source?, coreName]
  have hample : 40 ≤ ampleFuel := by decide
  obtain ⟨w, hload⟩ := loadText_core host hample
  exact Session.loadLibraries_single hsource (Session.load_of_value hload)

/-- What the core namespace binds when the library has been loaded. -/
def coreRoot : Table Term :=
  ((coreSession.state.namespaces.get? coreName).map Namespace.root).getD []

/-- The core namespace, with its aliases and imports, and the frame at top level are as they were
when the library had been loaded. -/
structure State.CoreIntact (s : State) : Prop where
  core : s.namespaces.get? coreName = coreSession.state.namespaces.get? coreName
  top : s.frames[0]? = coreSession.state.frames[0]?

theorem coreSession_intact : coreSession.state.CoreIntact := ⟨rfl, rfl⟩

/-- The library binds the functions that it defines and leaves the native ones as they were. -/
theorem coreSession_hasCore : coreSession.state.HasCore coreRoot ∧
    (∀ name, name ∉ coreDefinitions.map (fun d => Bytes.ofString d.name) →
      coreRoot.get? name = coreNatives.get? name) ∧
    ∀ d ∈ coreDefinitions, ∃ id,
      coreRoot.get? (Bytes.ofString d.name) = some (.closure (d.function id)) := by
  obtain ⟨root, hheld, hothers, hbound⟩ := fresh_hasCore.holds.enterAllIn coreDefinitions_nodup
  have hcore : coreSession.state.HasCore root := by
    rw [coreSession_state]
    exact ⟨fresh_hasCore.top.enterAllIn coreName coreDefinitions, hheld⟩
  have hroot : coreRoot = root := by
    have hget : coreSession.state.namespaces.get? coreName = some ⟨coreName, root, [], []⟩ :=
      hcore.core
    rw [coreRoot, hget]
    rfl
  subst hroot
  exact ⟨hcore, hothers, hbound⟩

theorem coreRoot_native {name : Bytes} {b : Builtin} (h : coreNative? name = some b)
    (hname : name ∉ coreDefinitions.map fun d => Bytes.ofString d.name) :
    coreRoot.get? name = some (.native b) := by
  rw [coreSession_hasCore.2.1 name hname, coreNatives_get?, h]
  rfl

theorem coreRoot_templating : coreRoot.Templating := by
  have hreserved {name : Bytes} (h : name ∈ Definition.reserved) :
      coreRoot.get? name = coreNatives.get? name := by
    refine coreSession_hasCore.2.1 name fun hmem => ?_
    obtain ⟨d, hd, rfl⟩ := List.mem_map.mp hmem
    exact (coreDefinitions_proper d hd).2.2 h
  refine ⟨fun f => ?_, ?_, ?_⟩
  · rw [hreserved (Definition.special_reserved f), coreNatives_templating.special f]
  · rw [hreserved (by simp [Definition.reserved]), coreNatives_templating.cons]
  · rw [hreserved (by simp [Definition.reserved]), coreNatives_templating.concat]

theorem State.topEmpty_iff {s : State} : s.TopEmpty ↔ s.frames[0]? = some [] := by
  unfold TopEmpty frame
  rw [Array.getElem?_eq_some_iff]
  constructor
  · rintro ⟨hsize, hempty⟩
    exact ⟨hsize, by simpa [hsize] using hempty⟩
  · rintro ⟨hsize, hempty⟩
    exact ⟨hsize, by simpa [hsize] using hempty⟩

theorem State.coreIntact_iff {s : State} : s.CoreIntact ↔ s.HasCore coreRoot := by
  have hloaded := coreSession_hasCore.1
  have htop := State.topEmpty_iff.mp hloaded.top
  constructor
  · rintro ⟨hcore, hframe⟩
    exact ⟨State.topEmpty_iff.mpr (hframe.trans htop), hcore.trans hloaded.core⟩
  · rintro ⟨hframe, hcore⟩
    exact ⟨hcore.trans hloaded.core.symm, (State.topEmpty_iff.mp hframe).trans htop.symm⟩

theorem coreSession_user : coreSession.state.namespaces.get? Session.userName =
    some (Namespace.fresh Session.userName) := by
  rw [coreSession_state, State.enterAllIn_other _ _ (by decide), fresh_user]

end SmallLisp

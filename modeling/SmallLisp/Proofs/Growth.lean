import SmallLisp.Proofs.Directories
import SmallLisp.Proofs.Frames
import SmallLisp.Proofs.Loading

/-! Global state that only grows. Whatever an evaluation or a load does and however it ends, the
namespaces that were there stay, with the names that they bind, their aliases, and their imports at
the front of the later ones; symbols are numbered upwards, and the log tells of each namespace once.
So a name without a namespace before it that was bound for an environment stays bound for it. -/
namespace SmallLisp

def creationLine (name : Bytes) : Event := .log (Bytes.ofString "created namespace " ++ name)

/-- What the namespace binds, aliases and imports is still there in the later one, imports in their
places. -/
structure Namespace.Extends (later ns : Namespace) : Prop where
  root {name : Bytes} (h : ns.root.contains name = true) : later.root.contains name = true
  aliases {short : Bytes} (h : ns.aliases.contains short = true) :
    later.aliases.contains short = true
  imports : ns.imports <+: later.imports

/-- Nothing global is lost from `s` to `s'`. The log gets a line for each namespace that is new, and
none for another one. -/
structure Grows (s s' : State) : Prop where
  namespaces {name : Bytes} {ns : Namespace} (h : s.namespaces.get? name = some ns) :
    ∃ later, s'.namespaces.get? name = some later ∧ later.Extends ns
  gensyms : s.gensyms ≤ s'.gensyms
  log : ∃ es, s'.trace = es ++ s.trace ∧ ∀ name,
    es.count (creationLine name) + (s.namespaces.contains name).toNat =
      (s'.namespaces.contains name).toNat

/-- The log tells of each namespace that there is exactly once, and of no other. -/
def State.CreationsLogged (s : State) : Prop :=
  ∀ name, s.trace.count (creationLine name) = (s.namespaces.contains name).toNat

def State.Resolves (s : State) (env : Env) (name : Bytes) : Prop := ∃ v, s.lookup env name = .ok v

/-! ## One namespace -/

namespace Namespace.Extends

theorem refl (ns : Namespace) : ns.Extends ns := ⟨id, id, List.prefix_refl _⟩

theorem trans {ns₁ ns₂ ns₃ : Namespace} (h : ns₂.Extends ns₁) (h' : ns₃.Extends ns₂) :
    ns₃.Extends ns₁ :=
  ⟨fun hr => h'.root (h.root hr), fun ha => h'.aliases (h.aliases ha), h.imports.trans h'.imports⟩

theorem bind (ns : Namespace) (name : Bytes) (v : Term) : (ns.bind name v).Extends ns := by
  refine ⟨fun {other} h => ?_, id, List.prefix_refl _⟩
  simp [Namespace.bind, h]

theorem addImport (ns : Namespace) (other : Bytes) : (ns.addImport other).Extends ns := by
  unfold Namespace.addImport
  split
  · exact .refl ns
  · exact ⟨id, id, List.prefix_append _ _⟩

theorem addAlias (ns : Namespace) (short target : Bytes) :
    (ns.addAlias short target).Extends ns := by
  refine ⟨id, fun {other} h => ?_, List.prefix_refl _⟩
  simp [Namespace.addAlias, h]

end Namespace.Extends

/-! ## Changes of state -/

theorem count_creationLine {e : Event} (h : e.isCreationLine = false) (name : Bytes) :
    [e].count (creationLine name) = 0 := by
  refine List.count_eq_zero.mpr fun hmem => ?_
  have hline : (creationLine name).isCreationLine = true :=
    List.isPrefixOf_iff_prefix.mpr (List.prefix_append _ name)
  rw [List.mem_singleton.mp hmem, h] at hline
  cases hline

namespace Grows

/-- What leaves namespaces alone, and logs no creation. -/
theorem of_namespaces_eq {s s' : State} (es : List Event) (hns : s'.namespaces = s.namespaces)
    (hgensyms : s.gensyms ≤ s'.gensyms) (htrace : s'.trace = es ++ s.trace)
    (hes : ∀ name, es.count (creationLine name) = 0) : Grows s s' := by
  refine ⟨fun {name ns} h => ⟨ns, by rw [hns, h], .refl ns⟩, hgensyms, es, htrace, fun name => ?_⟩
  rw [hes, hns, Nat.zero_add]

theorem refl (s : State) : Grows s s :=
  of_namespaces_eq [] rfl (Nat.le_refl _) rfl fun _ => rfl

theorem trans {s₁ s₂ s₃ : State} (h : Grows s₁ s₂) (h' : Grows s₂ s₃) : Grows s₁ s₃ := by
  obtain ⟨es, htrace, hes⟩ := h.log
  obtain ⟨es', htrace', hes'⟩ := h'.log
  refine ⟨fun hns => ?_, Nat.le_trans h.gensyms h'.gensyms, es' ++ es, ?_, fun name => ?_⟩
  · obtain ⟨ns₂, hns₂, hext⟩ := h.namespaces hns
    obtain ⟨ns₃, hns₃, hext'⟩ := h'.namespaces hns₂
    exact ⟨ns₃, hns₃, hext.trans hext'⟩
  · rw [htrace', htrace, List.append_assoc]
  · rw [List.count_append, Nat.add_assoc, hes, hes']

theorem emit (s : State) {e : Event} (h : e.isCreationLine = false) : Grows s (s.emit e) :=
  of_namespaces_eq [e] rfl (Nat.le_refl _) rfl (count_creationLine h)

/-- A namespace that was not there is logged. -/
theorem create {s : State} {name : Bytes} (h : s.namespaces.contains name = false) :
    Grows s (s.create name) := by
  refine ⟨fun {other ns} hns => ?_, Nat.le_refl _, [creationLine name], rfl, fun other => ?_⟩
  · have hne : name ≠ other := by
      rintro rfl
      simp [Table.contains, hns] at h
    refine ⟨ns, ?_, .refl ns⟩
    exact (Table.get?_insert_of_ne s.namespaces hne _).trans hns
  · have hcontains : (s.create name).namespaces.contains other =
        (name == other || s.namespaces.contains other) := Table.contains_insert ..
    rw [hcontains]
    by_cases hne : name = other
    · subst hne
      simp [h]
    · have hline : creationLine name ≠ creationLine other := by simpa [creationLine] using hne
      rw [beq_eq_false_iff_ne.mpr hne, Bool.false_or, List.count_singleton,
        if_neg (by simpa using hline), Nat.zero_add]

theorem require (s : State) (name : Bytes) : Grows s (s.require name) := by
  unfold State.require
  split
  case isTrue => exact .refl s
  case isFalse hname =>
    rw [Bool.not_eq_true] at hname
    split
    case isTrue => exact .create hname
    case isFalse hcore =>
      rw [Bool.not_eq_true, Bool.or_eq_false_iff, beq_eq_false_iff_ne] at hcore
      obtain ⟨hne, hcore⟩ := hcore
      have hthen : (s.create coreName).namespaces.contains name = false := by
        refine (Table.contains_insert ..).trans ?_
        simp [hname, Ne.symm hne]
      exact (Grows.create hcore).trans (.create hthen)

theorem modify (s : State) (name : Bytes) {f : Namespace → Namespace}
    (hf : ∀ ns, (f ns).Extends ns) :
    Grows s { s with namespaces := s.namespaces.modify name f } := by
  refine ⟨fun {other ns} hns => ?_, Nat.le_refl _, [], rfl, fun other => ?_⟩
  · by_cases hne : name = other
    · subst hne
      exact ⟨f ns, by simp [Table.get?_modify_self, hns], hf ns⟩
    · exact ⟨ns, (Table.get?_modify_of_ne _ hne f).trans hns, .refl ns⟩
  · simp

theorem change {s s' : State} (h : Change s s') : Grows s s' := by
  induction h with
  | require s name => exact .require s name
  | bindRoot s ns name v => exact .modify s ns fun n => .bind n name v
  | addImport s ns other => exact .modify s ns fun n => .addImport n other
  | addAlias s ns short target => exact .modify s ns fun n => .addAlias n short target
  | gensym s => exact of_namespaces_eq [] rfl (Nat.le_succ _) rfl fun _ => rfl
  | closures s n => exact of_namespaces_eq [] rfl (Nat.le_refl _) rfl fun _ => rfl
  | emit s e _ hc => exact .emit s hc
  | trans _ _ ih ih' => exact ih.trans ih'

/-- Directories and frames are not global. -/
theorem of_globals_eq {s s' : State} (hns : s'.namespaces = s.namespaces)
    (hgensyms : s'.gensyms = s.gensyms) (htrace : s'.trace = s.trace) : Grows s s' :=
  of_namespaces_eq [] hns (Nat.le_of_eq hgensyms.symm) htrace fun _ => rfl

theorem enterDirectory (dir : Bytes) (s : State) : Grows s (Action.enterDirectory dir s) :=
  of_namespaces_eq [directoryLine "push" dir (s.dirs.length + 1)] rfl (Nat.le_refl _) rfl
    (count_creationLine rfl)

theorem leaveDirectory (s : State) : Grows s (Action.leaveDirectory s) :=
  of_namespaces_eq [directoryLine "pop" (s.dirs.headD []) s.dirs.length] rfl (Nat.le_refl _) rfl
    (count_creationLine rfl)

/-- Along every evaluation the global state grows and frames keep their names. -/
theorem law : Law fun s s' => NamesKept s s' ∧ Grows s s' where
  refl s := ⟨.of_frames_eq rfl, .refl s⟩
  trans h h' := ⟨h.1.trans h'.1, h.2.trans h'.2⟩
  grows h := h.1.size_le
  change h := ⟨.of_frames_eq h.frames, .change h⟩
  addFrame s frame := ⟨.addFrame s frame, .of_globals_eq rfl rfl rfl⟩
  fill name v hi h := ⟨h.1.fill name v hi, h.2.trans (.of_globals_eq rfl rfl rfl)⟩
  directory dir h := ⟨⟨h.1.size_le, h.1.frame⟩,
    ((enterDirectory dir _).trans h.2).trans (leaveDirectory _)⟩

theorem assignment {host : Host} (c : Cursor) (s : State) (i : Nat) (name : Bytes) (v : Term)
    (s' : State) (h : Assigns host c s i name v s') :
    NamesKept s' (s'.define i name v) ∧ Grows s' (s'.define i name v) :=
  ⟨.assign h.found trivial, .of_globals_eq rfl rfl rfl⟩

/-! ## The log -/

theorem creationsLogged {s s' : State} (h : Grows s s') (hs : s.CreationsLogged) :
    s'.CreationsLogged := by
  intro name
  obtain ⟨es, htrace, hes⟩ := h.log
  rw [htrace, List.count_append, hs name, hes name]

end Grows

theorem empty_creationsLogged : State.empty.CreationsLogged := fun _ => rfl

theorem fresh_creationsLogged : Session.fresh.state.CreationsLogged := by
  have hinitial : State.initial.CreationsLogged := by
    refine State.initial_induction ?_ ?_ ?_
    · exact (Grows.require _ coreName).creationsLogged empty_creationsLogged
    · intro s name hs
      exact (Grows.require s name).creationsLogged hs
    · intro s ns name v _ hs
      exact (Grows.change (.bindRoot s ns name v)).creationsLogged hs
  exact (Grows.require _ Session.userName).creationsLogged hinitial

/-! ## Names that stay bound -/

/-- A namespace gives a name a value if it binds it or imports a namespace that does. -/
theorem resolve_isSome_iff {r : Registry} {ns name : Bytes} :
    (r.resolve ns name).isSome = true ↔ ∃ n, r.get? ns = some n ∧
      (n.root.contains name = true ∨
        ∃ i ∈ n.imports, ∃ m, r.get? i = some m ∧ m.root.contains name = true) := by
  unfold Registry.resolve
  cases r.get? ns with
  | none => simp
  | some n =>
    cases hroot : n.root.get? name with
    | some v => simp [hroot, Table.contains]
    | none =>
      simp [hroot, Table.contains, List.findSome?_isSome_iff, Option.isSome_bind,
        Option.any_eq_true]

/-- Without a namespace before it, a name is bound in a frame, or else for the namespace. -/
theorem resolves_iff {s : State} {env : Env} {name : Bytes} (h : splitQualified name = none) :
    s.Resolves env name ↔ (∃ i ∈ env.frames, (s.frame i).contains name = true) ∨
      (s.namespaces.resolve env.ns name).isSome = true := by
  have hframes : (env.frames.findSome? fun i => (s.frame i).get? name).isSome = true ↔
      ∃ i ∈ env.frames, (s.frame i).contains name = true := by
    simp [List.findSome?_isSome_iff, Table.contains]
  rw [← hframes]
  unfold State.Resolves State.lookup
  simp only [h]
  cases env.frames.findSome? fun i => (s.frame i).get? name with
  | some v => simp
  | none => cases s.namespaces.resolve env.ns name <;> simp

theorem contains_of_namesKept {s s' : State} (h : NamesKept s s') {i : Nat} {name : Bytes}
    (hi : (s.frame i).contains name = true) : (s'.frame i).contains name = true := by
  have hsize : i < s.frames.size := by
    rw [← Nat.not_le]
    intro hle
    simp [State.frame, Array.getD_eq_getD_getElem?, hle, Table.contains, Table.get?] at hi
  rcases (h.frame hsize).get_eq_or name with heq | ⟨v, -, hv⟩
  · rwa [Table.contains, heq]
  · rw [Table.contains, hv]
    rfl

theorem Grows.resolves {s s' : State} (hkept : NamesKept s s') (h : Grows s s') {env : Env}
    {name : Bytes} (hname : splitQualified name = none) (hs : s.Resolves env name) :
    s'.Resolves env name := by
  rw [resolves_iff hname] at hs ⊢
  rcases hs with ⟨i, hi, hbound⟩ | hresolve
  · exact .inl ⟨i, hi, contains_of_namesKept hkept hbound⟩
  · right
    rw [resolve_isSome_iff] at hresolve ⊢
    obtain ⟨n, hn, hbound⟩ := hresolve
    obtain ⟨later, hlater, hext⟩ := h.namespaces hn
    refine ⟨later, hlater, ?_⟩
    rcases hbound with hroot | ⟨i, hi, m, hm, hroot⟩
    · exact .inl (hext.root hroot)
    · obtain ⟨m', hm', hext'⟩ := h.namespaces hm
      exact .inr ⟨i, hext.imports.subset hi, m', hm', hext'.root hroot⟩

/-- What holds after every evaluation and every load. -/
structure GlobalsKept (s s' : State) : Prop where
  grows : Grows s s'
  logged (h : s.CreationsLogged) : s'.CreationsLogged
  resolves {env : Env} {name : Bytes} (hname : splitQualified name = none)
    (h : s.Resolves env name) : s'.Resolves env name

theorem GlobalsKept.of_law {s s' : State} (h : NamesKept s s' ∧ Grows s s') : GlobalsKept s s' :=
  ⟨h.2, h.2.creationsLogged, fun hname => h.2.resolves h.1 hname⟩

theorem GlobalsKept.of_composed {host : Host} {s s' : State} {α : Type} {m : Evaluate → Action α}
    {fuel : Nat} (hm : Composed false [] m) (h : (m (evalWith host fuel) s).state? = some s') :
    GlobalsKept s s' :=
  .of_law (Grows.law.composed Grows.assignment hm h)

/-- Evaluations and loads, however they end, lose nothing global and log the namespaces they create;
names that were bound for an environment without a namespace before them stay bound for it. So in
every session the log tells of each namespace exactly once, and of no other. -/
theorem global_state_grows (host : Host) (s : State) :
    (∀ form env r, Evaluates host form env s r →
      ∃ s', r.state? = some s' ∧ GlobalsKept s s') ∧
    (∀ src env r, Loads host src env s r → ∃ s', r.state? = some s' ∧ GlobalsKept s s') ∧
    (∀ path env r, LoadsFile host path env s r → ∃ s', r.state? = some s' ∧ GlobalsKept s s') ∧
    (∀ (session : Session) fuel src, session.state = s →
      GlobalsKept s (session.evalTextWith (evalWith host fuel) src).2.state) ∧
    ∀ session, Session.Reached session → session.state.CreationsLogged := by
  refine ⟨?_, ?_, ?_, ?_, ?_⟩
  · rintro form env r ⟨hr, fuel, rfl⟩
    obtain ⟨s', hs'⟩ := state_of_ne_timeout hr
    exact ⟨s', hs', .of_composed (.eval form env) hs'⟩
  · rintro src env r ⟨hr, fuel, rfl⟩
    obtain ⟨s', hs'⟩ := state_of_ne_timeout hr
    exact ⟨s', hs', .of_composed (loadText_composed src env) hs'⟩
  · rintro path env r ⟨hr, fuel, rfl⟩
    obtain ⟨s', hs'⟩ := state_of_ne_timeout hr
    exact ⟨s', hs', .of_composed (loadFile_composed host path env) hs'⟩
  · rintro session fuel src rfl
    exact .of_law (session.evalText_law Grows.law Grows.assignment fuel src)
  · intro session h
    exact h.of_law Grows.law fresh_creationsLogged (fun h => h.2.creationsLogged)
      fun host => Grows.assignment

/-- `(do (in-ns b) (y))` -/
def switchThenFail : Term := .list [.sym "do", .list [.sym "in-ns", .sym "b"], .list [.sym "y"]]

/-- The evaluation fails after it has created `b`, which is logged once, and `x` is still bound. -/
theorem switchThenFail_grows :
    let a := Bytes.ofString "a"
    let b := Bytes.ofString "b"
    let x := Bytes.ofString "x"
    let s := (State.empty.require a).bindRoot a x (.int 1)
    let e := Error.inForm (.list [.sym "y"]) (.runtime (.unbound (Bytes.ofString "y")))
    Evaluates Host.bare switchThenFail ⟨[], a⟩ s (.failure e (s.require b)) ∧
      (s.require b).trace.count (creationLine b) = 1 ∧ (s.require b).Resolves ⟨[], a⟩ x := by
  intro a b x s e
  have heval : Evaluates Host.bare switchThenFail ⟨[], a⟩ s (.failure e (s.require b)) :=
    ⟨nofun, 4, rfl⟩
  obtain ⟨s', hs', hkept⟩ := (global_state_grows Host.bare s).1 _ _ _ heval
  cases hs'
  have hlogged : s.CreationsLogged :=
    ((Grows.require State.empty a).trans (.change (.bindRoot _ a x _))).creationsLogged
      empty_creationsLogged
  exact ⟨heval, hkept.logged hlogged b, hkept.resolves rfl ⟨.int 1, rfl⟩⟩

end SmallLisp

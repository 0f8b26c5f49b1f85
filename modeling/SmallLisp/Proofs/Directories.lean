import SmallLisp.Proofs.Nesting

/-! The stack of directories. Loading a file puts its directory on the stack and takes it off again
however the load ends, so that evaluations and loads leave the stack as it was, and the lines logged
about it are nested like brackets. A file that is not found or cannot be read leaves no trace. -/
namespace SmallLisp

/-- The line logged when a directory is put on the stack or taken off; `depth` counts it. -/
def directoryLine (verb : String) (dir : Bytes) (depth : Nat) : Event :=
  .log (Bytes.ofString verb ++ Bytes.ofString " dir " ++ dir ++ Bytes.ofString " (depth " ++
    Bytes.ofNat depth ++ Bytes.ofString ")")

/-- In these events, from a stack of `n` directories on, each line about a directory put on has its
line about the same directory taken off at the same depth, and what is in between is nested too. -/
inductive WellNested : Nat → List Event → Prop
  | nil {n : Nat} : WellNested n []
  | other {n : Nat} {e : Event} {es : List Event} (he : e.isDirectoryLine = false)
      (h : WellNested n es) : WellNested n (e :: es)
  | load {n : Nat} (dir : Bytes) {inside es : List Event} (hinside : WellNested (n + 1) inside)
      (h : WellNested n es) : WellNested n
        (directoryLine "push" dir (n + 1) :: inside ++ directoryLine "pop" dir (n + 1) :: es)

theorem WellNested.append {n : Nat} {es es' : List Event} (h : WellNested n es)
    (h' : WellNested n es') : WellNested n (es ++ es') := by
  induction h with
  | nil => exact h'
  | other he _ ih => exact .other he (ih h')
  | load dir hinside _ _ ih =>
    have hload := WellNested.load dir hinside (ih h')
    simpa using hload

/-- The stack is as before, and the events since are nested. -/
structure Balanced (s s' : State) : Prop where
  dirs_eq : s'.dirs = s.dirs
  events : ∃ es, s'.trace = es.reverse ++ s.trace ∧ WellNested s.dirs.length es

namespace Balanced

theorem of_eq {s s' : State} (hdirs : s'.dirs = s.dirs) (htrace : s'.trace = s.trace) :
    Balanced s s' := ⟨hdirs, [], htrace, .nil⟩

theorem of_event {s s' : State} {e : Event} (he : e.isDirectoryLine = false)
    (hdirs : s'.dirs = s.dirs) (htrace : s'.trace = e :: s.trace) : Balanced s s' :=
  ⟨hdirs, [e], htrace, .other he .nil⟩

theorem trans {s₁ s₂ s₃ : State} (h : Balanced s₁ s₂) (h' : Balanced s₂ s₃) : Balanced s₁ s₃ := by
  obtain ⟨hdirs, es, htrace, hes⟩ := h
  obtain ⟨hdirs', es', htrace', hes'⟩ := h'
  rw [hdirs] at hes'
  refine ⟨hdirs'.trans hdirs, es ++ es', ?_, hes.append hes'⟩
  rw [htrace', htrace, List.reverse_append, List.append_assoc]

theorem require (s : State) (name : Bytes) : Balanced s (s.require name) := by
  unfold State.require
  split
  · exact .of_eq rfl rfl
  · split
    · exact .of_event rfl rfl rfl
    · let created (ns : Bytes) : Event := .log (Bytes.ofString "created namespace " ++ ns)
      exact ⟨rfl, [created coreName, created name], rfl, .other rfl (.other rfl .nil)⟩

theorem change {s s' : State} (h : Change s s') : Balanced s s' := by
  induction h with
  | require s name => exact .require s name
  | emit s e he _ => exact .of_event he rfl rfl
  | trans _ _ ih ih' => exact ih.trans ih'
  | _ => exact .of_eq rfl rfl

theorem directory {s s' : State} (dir : Bytes) (h : Balanced (Action.enterDirectory dir s) s') :
    Balanced s (Action.leaveDirectory s') := by
  obtain ⟨hdirs, es, htrace, hes⟩ := h
  have hpop : (Action.leaveDirectory s').trace =
      directoryLine "pop" (s'.dirs.headD []) s'.dirs.length :: s'.trace := rfl
  have hpush : (Action.enterDirectory dir s).trace =
      directoryLine "push" dir (s.dirs.length + 1) :: s.trace := rfl
  -- the two lines enclose what was logged in between
  refine ⟨congrArg List.tail hdirs, _, ?_, .load dir hes .nil⟩
  rw [hpop, hdirs, htrace, hpush]
  simp [Action.enterDirectory, State.log, State.emit, State.pushDir]

/-- States are balanced along every evaluation. -/
theorem law : Law fun s s' => s.frames.size ≤ s'.frames.size ∧ Balanced s s' where
  refl s := ⟨Nat.le_refl _, .of_eq rfl rfl⟩
  trans h h' := ⟨Nat.le_trans h.1 h'.1, h.2.trans h'.2⟩
  grows h := h.1
  change h := ⟨Nat.le_of_eq (by rw [h.frames]), .change h⟩
  addFrame s frame := ⟨by simp, .of_eq rfl rfl⟩
  fill name v _ h := ⟨by simpa using h.1, h.2.trans (.of_eq rfl rfl)⟩
  directory dir h := ⟨h.1, h.2.directory dir⟩

section

variable {host : Host} {s : State}

theorem assign (s : State) (i : Nat) (name : Bytes) (v : Term) :
    s.frames.size ≤ (s.define i name v).frames.size ∧ Balanced s (s.define i name v) :=
  ⟨by simp, .of_eq rfl rfl⟩

theorem of_evaluates {form : Term} {env : Env} {r : Outcome (Term × Env)}
    (h : Evaluates host form env s r) : ∃ s', r.state? = some s' ∧ Balanced s s' := by
  obtain ⟨s', hs', -, hbalanced⟩ := law.evaluates (fun _ _ i name v s₂ _ _ => assign s₂ i name v) h
  exact ⟨s', hs', hbalanced⟩

theorem of_composed {α : Type} {m : Evaluate → Action α} {fuel : Nat} {s' : State}
    (hm : Composed false [] m) (h : (m (evalWith host fuel) s).state? = some s') : Balanced s s' :=
  (law.composed (fun _ _ i name v s₂ _ => assign s₂ i name v) hm h).2

theorem of_tailSteps {form : Term} {env : Env} {c : Cursor} {s' : State} {last : Option Term}
    {held : Option Env} (h : TailSteps host form env s c s' last held) :
    Balanced s s' ∧ c.Sound := by
  have htail {c d : Cursor} {s₁ s₂ : State} (h : Balanced s s₁ ∧ c.Sound)
      (hstep : TailStep host c s₁ d s₂) : Balanced s s₂ ∧ d.Sound := by
    have hkept := law.tailStep (fun _ _ i name v s₂ _ => assign s₂ i name v) h.2.2 hstep
    exact ⟨h.1.trans hkept.2, hstep.sound h.2⟩
  induction h with
  | start => exact ⟨.of_eq rfl rfl, start_sound form env⟩
  | stay _ hstep _ ih => exact htail ih hstep
  | enter _ hstep _ ih => exact htail ih hstep

theorem of_inTurn {fuel : Nat} {ts : List Term} {v w : Term} {env env' : Env} {s' : State}
    (h : (evalWith host fuel).inTurn ts v env s = .value (w, env') s') : Balanced s s' := by
  induction ts generalizing v env s with
  | nil =>
    cases h
    exact .of_eq rfl rfl
  | cons t ts ih =>
    rw [inTurn_cons] at h
    split at h
    case h_1 v₁ env₁ s₁ ht =>
      exact (of_composed (.eval t env) (by rw [ht]; rfl)).trans (ih h)
    case h_2 => cases h
    case h_3 => cases h

end

end Balanced

/-! ## Loading a file -/

def LoadsFile (host : Host) (path : Bytes) (env : Env) (s : State) (r : Outcome Term) : Prop :=
  r ≠ .timeout ∧ ∃ fuel, loadFile host (evalWith host fuel) path env s = r

/-- The paths at which a file is searched for, in order. -/
def Host.candidates (host : Host) (s : State) (path : Bytes) : List Bytes :=
  s.resolvePath path ::
    if Path.isAbsolute path then [] else host.libPaths.map (Path.join · path)

/-- There is no file at the path: something else, or nothing. -/
def Host.NoFile (host : Host) (path : Bytes) : Prop :=
  ∃ e, host.disk.look path = some e ∧ e.isFile = false

/-- The first of the paths with a file is this one, and this is what comes of reading it. -/
def Host.Finds (host : Host) (paths : List Bytes) (file : Bytes)
    (contents : Except FileError Bytes) : Prop :=
  ∃ before after e, paths = before ++ file :: after ∧ (∀ p ∈ before, host.NoFile p) ∧
    host.disk.look file = some e ∧ e.isFile = true ∧ e.read = contents

section

variable {host : Host} {s : State} {path file : Bytes} {contents : Except FileError Bytes}

theorem firstFile_cons_noFile {paths : List Bytes} (h : host.NoFile path) :
    firstFile host (path :: paths) = firstFile host paths := by
  obtain ⟨e, hlook, hfile⟩ := h
  funext s
  simp only [firstFile, Host.look, hlook, pure_bind, hfile, Bool.false_eq_true, if_false]

theorem firstFile_missing {paths : List Bytes} (h : ∀ p ∈ paths, host.NoFile p) :
    firstFile host paths s = .value none s := by
  induction paths with
  | nil => rfl
  | cons p paths ih =>
    rw [firstFile_cons_noFile (h p List.mem_cons_self)]
    exact ih fun p' hp' => h p' (List.mem_cons_of_mem p hp')

theorem firstFile_finds {paths : List Bytes} (h : host.Finds paths file contents) :
    firstFile host paths s = .value (some (file, contents)) s := by
  obtain ⟨before, after, e, rfl, hbefore, hlook, hfile, rfl⟩ := h
  induction before with
  | nil =>
    simp only [List.nil_append, firstFile, Host.look, hlook, pure_bind, hfile, if_true]
    rfl
  | cons p before ih =>
    rw [List.cons_append, firstFile_cons_noFile (hbefore p List.mem_cons_self)]
    exact ih fun p' hp' => hbefore p' (List.mem_cons_of_mem p hp')

/-- Loading goes by what is found first, and finding it changes nothing. -/
theorem loadFile_of_firstFile {found : Option (Bytes × Except FileError Bytes)}
    (h : firstFile host (host.candidates s path) s = .value found s) (ev : Evaluate) (env : Env) :
    loadFile host ev path env s = loadFound ev path env found s := by
  simp only [Host.candidates] at h
  simp only [loadFile, Action.bind_apply, Action.read, h]

/-- A file that is not found is not loaded, and nothing changes. -/
theorem loadFile_missing (h : ∀ p ∈ host.candidates s path, host.NoFile p) (ev : Evaluate)
    (env : Env) : loadFile host ev path env s =
      .failure (.during (Bytes.ofString "load " ++ path) .fileMissing) s :=
  loadFile_of_firstFile (firstFile_missing h) ev env

/-- Nor is one of which there are no forms to be had. -/
theorem loadFile_refused (h : host.Finds (host.candidates s path) file contents) {e : Error}
    (hforms : fileForms file contents = .error e) (ev : Evaluate) (env : Env) :
    loadFile host ev path env s = .failure (.during (Bytes.ofString "load " ++ path) e) s := by
  rw [loadFile_of_firstFile (firstFile_finds h)]
  simp only [loadFound, hforms]
  rfl

theorem loadFile_found {src : Bytes} (h : host.Finds (host.candidates s path) file (.ok src))
    {forms : List Term} (hparse : parse src = .ok forms) (ev : Evaluate) (env : Env) :
    loadFile host ev path env s = Action.inDirectory (Path.parent file)
      (ev.value (sequenceOf forms) env) (s.log (Bytes.ofString "load " ++ file)) := by
  rw [loadFile_of_firstFile (firstFile_finds h)]
  simp only [loadFound, fileForms, hparse]
  rfl

end

/-- Evaluations and loads, however they end, leave the stack of directories as it was, and the lines
logged about it are nested. A file that is found and can be read is loaded by evaluating its forms
with its directory on top of the stack: it is on top wherever the loop of this evaluation comes,
and, the forms being evaluated in turn unless a macro stands in place of the `do` around them, when
those before any of them have been evaluated. If no file is found, or it cannot be read, no form is
evaluated and nothing changes. -/
theorem directories_balanced (host : Host) (s : State) :
    (∀ form env r, Evaluates host form env s r → ∃ s', r.state? = some s' ∧ Balanced s s') ∧
    (∀ path env r, LoadsFile host path env s r → ∃ s', r.state? = some s' ∧ Balanced s s') ∧
    (∀ path file contents forms, host.Finds (host.candidates s path) file (.ok contents) →
      parse contents = .ok forms →
      let logged := s.log (Bytes.ofString "load " ++ file)
      let entered := Action.enterDirectory (Path.parent file) logged
      (∀ ev env, loadFile host ev path env s =
        Action.inDirectory (Path.parent file) (ev.value (sequenceOf forms) env) logged) ∧
      (∀ env c st last held, TailSteps host (sequenceOf forms) env entered c st last held →
        st.dirs = Path.parent file :: s.dirs) ∧
      (∀ fuel env, macroOf? entered env (.sym "do") = none →
        evalWith host (fuel + 1) (sequenceOf forms) env entered = Action.inForm (sequenceOf forms)
          ((evalWith host fuel).inTurn forms .nil env) entered) ∧
      ∀ fuel env before t after v env' st, forms = before ++ t :: after →
        (evalWith host fuel).inTurn before .nil env entered = .value (v, env') st →
        st.dirs = Path.parent file :: s.dirs) ∧
    (∀ path, (∀ p ∈ host.candidates s path, host.NoFile p) → ∀ ev env,
      loadFile host ev path env s =
        .failure (.during (Bytes.ofString "load " ++ path) .fileMissing) s) ∧
    (∀ path file reason, host.Finds (host.candidates s path) file (.error reason) → ∀ ev env,
      loadFile host ev path env s = .failure (.during (Bytes.ofString "load " ++ path)
        (.during (Bytes.ofString "read " ++ file) (.unreadable file reason))) s) ∧
    ∀ path file contents e, host.Finds (host.candidates s path) file (.ok contents) →
      parse contents = .error e → ∀ ev env, loadFile host ev path env s =
        .failure (.during (Bytes.ofString "load " ++ path) (.ofParse e)) s := by
  refine ⟨fun form env r h => Balanced.of_evaluates h, ?_, ?_, fun path => loadFile_missing,
    fun path file reason hfile => loadFile_refused hfile rfl,
    fun path file contents e hfile hparse => loadFile_refused hfile (by rw [fileForms, hparse]; rfl)⟩
  · rintro path env r ⟨hr, fuel, rfl⟩
    obtain ⟨s', hs'⟩ := state_of_ne_timeout hr
    exact ⟨s', hs', .of_composed (loadFile_composed host path env) hs'⟩
  · intro path file contents forms hfile hparse logged entered
    refine ⟨loadFile_found hfile hparse, ?_, ?_, ?_⟩
    · intro env c st last held h
      exact (Balanced.of_tailSteps h).1.dirs_eq
    · intro fuel env hdo
      exact evalWith_do host fuel hdo specialForm_do forms
    · intro fuel env before t after v env' st _ h
      exact (Balanced.of_inTurn h).dirs_eq

/-- Two files in a directory, the first of which loads the second and fails after that, and one that
may not be read. -/
def twoFiles : Host where
  disk.look path :=
    if path == Bytes.ofString "lib/main" then some (.file (Bytes.ofString "(load \"part\") x"))
    else if path == Bytes.ofString "lib/part" then some (.file (Bytes.ofString "1"))
    else if path == Bytes.ofString "lib/locked" then some (.unreadable .denied)
    else some (.absent .missing)
  libPaths := []
  outputFails := false

def onlyLoad : State :=
  (State.empty.require coreName).bindRoot coreName (Bytes.ofString "load") (.native (.effect .load))

/-- `(load "part")` -/
def loadPart : Term := .list [.sym "load", .string (Bytes.ofString "part")]

/-- When the form after the nested load starts, the directory of the first file is on top again, and
after its failure the stack is empty. -/
theorem twoFiles_balanced :
    let main := Bytes.ofString "lib/main"
    let other := Bytes.ofString "lib/other"
    let locked := Bytes.ofString "lib/locked"
    let lib := Bytes.ofString "lib"
    let first := Action.enterDirectory lib (onlyLoad.log (Bytes.ofString "load " ++ main))
    let second := Action.enterDirectory lib (first.log (Bytes.ofString "load lib/part"))
    let between := Action.leaveDirectory second
    let e := (Error.runtime (.unbound (Bytes.ofString "x"))).withForm
      (sequenceOf [loadPart, .sym "x"])
    LoadsFile twoFiles main ⟨[], coreName⟩ onlyLoad (.failure e (Action.leaveDirectory between)) ∧
      Balanced onlyLoad (Action.leaveDirectory between) ∧ between.dirs = [lib] ∧
      ∀ ev env, loadFile twoFiles ev other env onlyLoad =
          .failure (.during (Bytes.ofString "load " ++ other) .fileMissing) onlyLoad ∧
        loadFile twoFiles ev locked env onlyLoad =
          .failure (.during (Bytes.ofString "load " ++ locked)
            (.during (Bytes.ofString "read " ++ locked) (.unreadable locked .denied))) onlyLoad := by
  intro main other locked lib first second between e
  have hfile : twoFiles.Finds (twoFiles.candidates onlyLoad main) main
      (.ok (Bytes.ofString "(load \"part\") x")) :=
    ⟨[], [], _, rfl, List.forall_mem_nil _, rfl, rfl, rfl⟩
  have hlocked : twoFiles.Finds (twoFiles.candidates onlyLoad locked) locked (.error .denied) :=
    ⟨[], [], _, rfl, List.forall_mem_nil _, rfl, rfl, rfl⟩
  have hparse : parse (Bytes.ofString "(load \"part\") x") = .ok [loadPart, .sym "x"] := rfl
  have hparent : Path.parent main = lib := rfl
  obtain ⟨-, hloads, hfound, hmissing, hunreadable, -⟩ := directories_balanced twoFiles onlyLoad
  obtain ⟨heq, -, hturn, hforms⟩ := hfound main main _ _ hfile hparse
  rw [hparent] at hturn hforms
  have hpart : evalWith twoFiles 3 loadPart ⟨[], coreName⟩ first =
      .value (.int 1, ⟨[], coreName⟩) between := rfl
  have hfirst : (evalWith twoFiles 3).inTurn [loadPart] .nil ⟨[], coreName⟩ first =
      .value (.int 1, ⟨[], coreName⟩) between := by
    rw [inTurn_cons, hpart]
    rfl
  have hmain : LoadsFile twoFiles main ⟨[], coreName⟩ onlyLoad
      (.failure e (Action.leaveDirectory between)) := by
    have heval : evalWith twoFiles 4 (sequenceOf [loadPart, .sym "x"]) ⟨[], coreName⟩ first =
        .failure e between := by
      rw [hturn 3 ⟨[], coreName⟩ rfl, Action.inForm, inTurn_cons, hpart]
      rfl
    refine ⟨ne_timeout_of_state rfl, 4, ?_⟩
    rw [heq, hparent]
    simp only [Action.inDirectory, Evaluate.value, Action.bind_apply]
    rw [heval]
  obtain ⟨s', hs', hbalanced⟩ := hloads _ _ _ hmain
  cases hs'
  have hother : ∀ p ∈ twoFiles.candidates onlyLoad other, twoFiles.NoFile p := by
    intro p hp
    rw [List.mem_singleton.mp hp]
    exact ⟨.absent .missing, rfl, rfl⟩
  exact ⟨hmain, hbalanced, hforms 3 _ [loadPart] (.sym "x") [] _ _ _ rfl hfirst, fun ev env =>
    ⟨hmissing other hother ev env, hunreadable locked locked .denied hlocked ev env⟩⟩

end SmallLisp

import SmallLisp.Proofs.Growth
import SmallLisp.Proofs.NamespaceStore

/-! What a native function leaves behind when it fails. All but one that change the state check their
arguments before that (`Action.Careful`), and a failed call has changed nothing. But `import` takes its
arguments one after the other: those before the first that is no name have been imported by then
(`failed_call_state`). -/
namespace SmallLisp

/-- It ends in the state in which it started. -/
def Action.Looks {α : Type} (m : Action α) : Prop := ∀ s s', (m s).state? = some s' → s' = s

/-- It does not fail. -/
def Action.Sure {α : Type} (m : Action α) : Prop := ∀ s e s', m s ≠ .failure e s'

/-- If it fails, then in the state in which it started. -/
def Action.Careful {α : Type} (m : Action α) : Prop := ∀ s e s', m s = .failure e s' → s' = s

namespace Action

variable {α β : Type}

namespace Looks

theorem pure (a : α) : (Pure.pure a : Action α).Looks := fun _ _ h => (Option.some.inj h).symm

theorem fail (e : Error) : (Action.fail e : Action α).Looks := fun _ _ h => (Option.some.inj h).symm

theorem read (f : State → α) : (Action.read f).Looks := fun _ _ h => (Option.some.inj h).symm

theorem ofExcept (r : Except Error α) : (Action.ofExcept r).Looks := by
  cases r with
  | ok a => exact .pure a
  | error e => exact .fail e

theorem careful {m : Action α} (h : m.Looks) : m.Careful := fun s _ s' hm => h s s' (by rw [hm]; rfl)

/-- Checks may come before what is careful. -/
theorem bind {m : Action α} {f : α → Action β} (hm : m.Looks) (hf : ∀ a, (f a).Careful) :
    (m >>= f).Careful := by
  intro s e s' h
  rcases bind_eq_failure.mp h with h | ⟨a, s₁, hvalue, h⟩
  · exact hm.careful s e s' h
  · have hstart : s₁ = s := hm s s₁ (by rw [hvalue]; rfl)
    exact (hf a s₁ e s' h).trans hstart

end Looks

namespace Sure

theorem pure (a : α) : (Pure.pure a : Action α).Sure := nofun

theorem read (f : State → α) : (Action.read f).Sure := nofun

theorem update (f : State → State) : (Action.update f).Sure := nofun

theorem bind {m : Action α} {f : α → Action β} (hm : m.Sure) (hf : ∀ a, (f a).Sure) :
    (m >>= f).Sure := by
  intro s e s' h
  rcases bind_eq_failure.mp h with h | ⟨a, s₁, -, h⟩
  · exact hm s e s' h
  · exact hf a s₁ e s' h

theorem careful {m : Action α} (h : m.Sure) : m.Careful := fun s e s' hm => (h s e s' hm).elim

end Sure
end Action

open SmallLisp.Action

/-! ## Functions that check first -/

theorem look_looks (host : Host) (path : Bytes) : (host.look path).Looks := by
  unfold Host.look
  split
  · exact .pure _
  · exact .fail _

theorem readFile_careful (host : Host) (path : Bytes) : (readFile host path).Careful := by
  refine Looks.bind (.read _) fun file => Looks.bind (look_looks host file) fun e => ?_
  cases e.read with
  | ok contents => exact (Sure.pure _).careful
  | error reason => exact (Sure.bind (.update _) fun _ => .pure _).careful

namespace Effect

theorem write_careful (host : Host) (render : Term → Bytes) (ending : Bytes) (args : List Term) :
    (write host render ending args).Careful := by
  unfold write
  split
  · exact (Looks.fail _).careful
  · exact (Sure.bind (.update _) fun _ => .pure _).careful

theorem freshSymbol_careful (args : List Term) : (freshSymbol args).Careful := by
  have hnumber (base : Bytes) :
      (do
        Action.update fun s => { s with gensyms := s.gensyms + 1 }
        let n ← Action.read State.gensyms
        return .symbol (base ++ Bytes.ofNat n) : Action Term).Careful :=
    (Sure.bind (.update _) fun _ => .bind (.read _) fun n => .pure _).careful
  unfold freshSymbol
  dsimp only
  split
  · exact Looks.bind (.pure _) hnumber
  · exact Looks.bind (.ofExcept _) hnumber
  · exact Looks.bind (.ofExcept _) hnumber

theorem addAlias_careful (env : Env) (args : List Term) : (addAlias env args).Careful :=
  Looks.bind (.ofExcept _) fun ⟨_, _⟩ => Looks.bind (.ofExcept _) fun _ =>
    Looks.bind (.ofExcept _) fun _ => (Sure.bind (.update _) fun _ => .pure _).careful

theorem namesIn_careful (name : Bytes) : (namesIn name).Careful := by
  refine Looks.bind (.read _) fun found => ?_
  cases found with
  | some ns => exact (Looks.pure _).careful
  | none => exact (Looks.fail _).careful

theorem publicNames_careful (env : Env) (args : List Term) : (publicNames env args).Careful := by
  unfold publicNames
  split
  · exact namesIn_careful _
  · exact Looks.bind (.ofExcept _) namesIn_careful
  · exact (Looks.ofExcept _).careful

theorem call_careful (host : Host) (ev : Evaluate) (env : Env) {e : Effect} (args : List Term)
    (heval : e ≠ .eval) (hload : e ≠ .load) (himport : e ≠ .importNs) :
    (e.call host ev env args).Careful := by
  cases e with
  | print => exact write_careful host _ _ args
  | println => exact write_careful host _ _ args
  | prn => exact write_careful host _ _ args
  | gensym => exact freshSymbol_careful args
  | eval => exact absurd rfl heval
  | slurp =>
    exact Looks.bind (.ofExcept _) fun _ => Looks.bind (.ofExcept _) fun path =>
      readFile_careful host path
  | load => exact absurd rfl hload
  | importNs => exact absurd rfl himport
  | aliasTo => exact addAlias_careful env args
  | nsName => exact Looks.bind (.ofExcept _) fun _ => (Looks.pure _).careful
  | nsPublics => exact publicNames_careful env args

end Effect

theorem Builtin.call_careful (host : Host) (ev : Evaluate) (env : Env) {b : Builtin}
    (args : List Term) (heval : b ≠ .effect .eval) (hload : b ≠ .effect .load)
    (himport : b ≠ .effect .importNs) : (b.call host ev env args).Careful := by
  cases b with
  | primitive p => exact (Looks.ofExcept _).careful
  | effect e =>
    exact e.call_careful host ev env args (fun h => heval (congrArg _ h))
      (fun h => hload (congrArg _ h)) (fun h => himport (congrArg _ h))

/-! ## Imports -/

/-- The names at the front of the arguments, up to the first that is none. -/
def leadingNames : List Term → List Bytes
  | .symbol name :: ts => name :: leadingNames ts
  | .string name :: ts => name :: leadingNames ts
  | _ => []

namespace State

def importName (ns : Bytes) (s : State) (name : Bytes) : State := (s.require name).addImport ns name

def importNames (s : State) (ns : Bytes) (names : List Bytes) : State := names.foldl (importName ns) s

/-- The namespace is there, and is already imported or is the importing one: there is nothing left to
do. -/
def Imports (s : State) (ns name : Bytes) : Prop :=
  s.namespaces.Registered name ∧
    ∀ n, s.namespaces.get? ns = some n → name = n.name ∨ name ∈ n.imports

end State

/-- However it ends, an import has imported the names at the front. -/
theorem importAll_state (ns : Bytes) (args : List Term) (s : State) :
    (Effect.importAll ns args s).state? = some (s.importNames ns (leadingNames args)) := by
  induction args generalizing s with
  | nil => rfl
  | cons t ts ih =>
    cases t with
    | atom a =>
      cases a with
      | symbol name => exact ih (s.importName ns name)
      | string name => exact ih (s.importName ns name)
      | _ => rfl
    | _ => rfl

theorem importNamespaces_failure {env : Env} {args : List Term} {s s' : State} {e : Error}
    (h : Effect.importNamespaces env args s = .failure e s') :
    s' = s.importNames env.ns (leadingNames args) := by
  unfold Effect.importNamespaces at h
  split at h
  case isTrue hempty =>
    cases h
    rw [List.isEmpty_iff.mp hempty]
    rfl
  case isFalse =>
    rcases bind_eq_failure.mp h with h | ⟨_, _, -, h⟩
    · have hstate := importAll_state env.ns args s
      rw [h] at hstate
      exact Option.some.inj hstate
    · cases h

theorem Table.modify_eq_self {α : Type} {t : Table α} {name : Bytes} {f : α → α}
    (h : ∀ v, t.get? name = some v → f v = v) : t.modify name f = t := by
  induction t with
  | nil => rfl
  | cons entry t ih =>
    obtain ⟨k, v⟩ := entry
    unfold modify
    by_cases hk : (k == name) = true
    · rw [if_pos hk, h v (if_pos hk)]
    · rw [if_neg hk, ih fun w hw => h w ((if_neg hk).trans hw)]

namespace State

variable {s s' : State} {ns name : Bytes}

theorem importName_eq_self (h : s.Imports ns name) : s.importName ns name = s := by
  obtain ⟨hregistered, himported⟩ := h
  have hrequire : s.require name = s := if_pos hregistered
  have hmodify : s.namespaces.modify ns (·.addImport name) = s.namespaces := by
    refine Table.modify_eq_self fun n hn => if_pos ?_
    simpa using himported n hn
  rw [importName, hrequire, addImport, hmodify]

theorem importName_grows (s : State) (ns name : Bytes) : Grows s (s.importName ns name) :=
  .change (.trans (.require s name) (.addImport _ ns name))

theorem importNames_grows (s : State) (ns : Bytes) (names : List Bytes) :
    Grows s (s.importNames ns names) := by
  induction names generalizing s with
  | nil => exact .refl s
  | cons name names ih => exact (s.importName_grows ns name).trans (ih _)

/-- If an import has changed no namespace by the end, it had nothing to do. -/
theorem imports_of_namespaces_eq (hgrows : Grows (s.importName ns name) s')
    (heq : s'.namespaces = s.namespaces) : s.Imports ns name := by
  have hregistered : s.namespaces.Registered name := by
    have hthen : (s.importName ns name).namespaces.Registered name :=
      (Table.contains_modify ..).trans (s.require_registered name)
    obtain ⟨n, hn⟩ := Option.isSome_iff_exists.mp hthen
    obtain ⟨later, hlater, -⟩ := hgrows.namespaces hn
    rw [heq] at hlater
    exact Option.isSome_of_eq_some hlater
  refine ⟨hregistered, fun n hn => ?_⟩
  -- an import that is added now is still there at the end
  refine Classical.byContradiction fun hnew => ?_
  have hrequire : s.require name = s := if_pos hregistered
  have hadded : (s.importName ns name).namespaces.get? ns =
      some { n with imports := n.imports ++ [name] } := by
    rw [importName, hrequire]
    refine (Table.get?_modify_self ..).trans ?_
    rw [hn, Option.map_some, Namespace.addImport, if_neg (by simpa using hnew)]
  obtain ⟨later, hlater, hextends⟩ := hgrows.namespaces hadded
  rw [heq, hn] at hlater
  cases hlater
  have hlength := hextends.imports.length_le
  rw [List.length_append, List.length_singleton] at hlength
  omega

theorem importNames_eq_self {names : List Bytes} (h : ∀ name ∈ names, s.Imports ns name) :
    s.importNames ns names = s := by
  induction names with
  | nil => rfl
  | cons name names ih =>
    obtain ⟨hname, hnames⟩ := List.forall_mem_cons.mp h
    rw [importNames, List.foldl_cons, importName_eq_self hname]
    exact ih hnames

theorem importNames_namespaces_eq_iff {names : List Bytes} :
    (s.importNames ns names).namespaces = s.namespaces ↔ ∀ name ∈ names, s.Imports ns name := by
  refine ⟨fun h => ?_, fun h => congrArg namespaces (importNames_eq_self h)⟩
  induction names with
  | nil => exact List.forall_mem_nil _
  | cons name names ih =>
    rw [importNames, List.foldl_cons] at h
    have hname := imports_of_namespaces_eq (importNames_grows _ ns names) h
    rw [importName_eq_self hname] at h
    exact List.forall_mem_cons.mpr ⟨hname, ih h⟩

/-- Imports touch nothing but namespaces and the log. -/
theorem importNames_others (s : State) (ns : Bytes) (names : List Bytes) :
    (s.importNames ns names).frames = s.frames ∧ (s.importNames ns names).gensyms = s.gensyms ∧
      (s.importNames ns names).dirs = s.dirs := by
  have hrequire (s : State) (name : Bytes) : (s.require name).frames = s.frames ∧
      (s.require name).gensyms = s.gensyms ∧ (s.require name).dirs = s.dirs := by
    unfold require
    split
    · exact ⟨rfl, rfl, rfl⟩
    · split <;> exact ⟨rfl, rfl, rfl⟩
  induction names generalizing s with
  | nil => exact ⟨rfl, rfl, rfl⟩
  | cons name names ih =>
    obtain ⟨hframes, hgensyms, hdirs⟩ := ih (s.importName ns name)
    obtain ⟨hframes', hgensyms', hdirs'⟩ := hrequire s name
    exact ⟨hframes.trans hframes', hgensyms.trans hgensyms', hdirs.trans hdirs'⟩

end State

/-- A native function other than `eval` and `load` that fails has changed neither frames nor the
number of the last symbol nor the stack of directories, and nothing at all unless it is `import`.
That has imported the names before the first argument that is none: namespaces are as before exactly
if those were imported already. -/
theorem failed_call_state {host : Host} {ev : Evaluate} {env : Env} {b : Builtin} {args : List Term}
    {s s' : State} {e : Error} (heval : b ≠ .effect .eval) (hload : b ≠ .effect .load)
    (h : b.call host ev env args s = .failure e s') :
    (s'.frames = s.frames ∧ s'.gensyms = s.gensyms ∧ s'.dirs = s.dirs) ∧
    (b ≠ .effect .importNs → s' = s) ∧
    (b = .effect .importNs → s' = s.importNames env.ns (leadingNames args)) ∧
    (s'.namespaces = s.namespaces ↔
      (b = .effect .importNs → ∀ name ∈ leadingNames args, s.Imports env.ns name)) := by
  by_cases himport : b = .effect .importNs
  case pos =>
    subst himport
    obtain rfl := importNamespaces_failure h
    refine ⟨s.importNames_others env.ns _, fun hne => absurd rfl hne, fun _ => rfl, ?_⟩
    rw [State.importNames_namespaces_eq_iff]
    exact ⟨fun himports _ => himports, fun himports => himports rfl⟩
  case neg =>
    obtain rfl := Builtin.call_careful host ev env args heval hload himport s e s' h
    exact ⟨⟨rfl, rfl, rfl⟩, fun _ => rfl, fun heq => absurd heq himport,
      iff_of_true rfl fun heq => absurd heq himport⟩

def userState : State := State.empty.require Session.userName

def importThenFail (name : Bytes) : Action Term :=
  Builtin.call Host.bare (evalWith Host.bare 0) ⟨[], Session.userName⟩ (.effect .importNs)
    [.symbol name, .int 5]

/-- The call fails after it has imported a namespace that was imported already. -/
theorem coreImport_leaves_state :
    ∃ e, importThenFail coreName userState = .failure e userState ∧
      userState.Imports Session.userName coreName := by
  obtain ⟨e, he⟩ : ∃ e, importThenFail coreName userState = .failure e userState := ⟨_, rfl⟩
  obtain ⟨-, -, -, hiff⟩ := failed_call_state (by decide) (by decide) he
  exact ⟨e, he, hiff.mp rfl rfl coreName List.mem_cons_self⟩

/-- The call fails after it has created the namespace `fresh`, which stays. -/
theorem freshImport_stays :
    let fresh := Bytes.ofString "fresh"
    ∃ e s', importThenFail fresh userState = .failure e s' ∧
      userState.namespaces.contains fresh = false ∧ s'.namespaces.contains fresh = true :=
  ⟨_, _, rfl, rfl, rfl⟩

end SmallLisp

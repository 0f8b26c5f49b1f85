import SmallLisp.Proofs.CoreLibrary
import SmallLisp.Proofs.Growth
import SmallLisp.Proofs.NamespaceStore

/-! The name that a definition returns. It is the defined name with its namespace before it, and the
first slash splits it there again, whatever slashes the defined name has itself
(`splitQualified_qualify`). So it denotes the binding wherever the name of the namespace means that
namespace (`State.Denotes`). -/
namespace SmallLisp

/-! ## Qualified names -/

theorem splitQualified_qualify {ns name : Bytes} (hns : ns ≠ []) (hslash : 47 ∉ ns)
    (hname : name ≠ []) : splitQualified (qualify ns name) = some (ns, name) := by
  have htake : (qualify ns name).takeWhile (· != 47) = ns := by
    rw [qualify, List.takeWhile_append_of_pos, List.takeWhile_cons_of_neg, List.append_nil]
    · simp
    · intro b hb
      have hne : b ≠ 47 := by
        rintro rfl
        exact hslash hb
      simpa using hne
  have hdrop : (qualify ns name).drop (ns.length + 1) = name := by
    rw [qualify, ← List.drop_drop, List.drop_left]
    rfl
  simp [splitQualified, htake, hdrop, hns, hname]

/-- A name with a slash in it is no constant. -/
theorem constant?_qualify (ns name : Bytes) : constant? (qualify ns name) = none := by
  have hne {word : String} (h : 47 ∉ Bytes.ofString word) :
      (qualify ns name == Bytes.ofString word) = false := by
    rw [beq_eq_false_iff_ne]
    intro heq
    exact h (heq ▸ List.mem_append_right ns List.mem_cons_self)
  rw [constant?, hne (by decide), hne (by decide), hne (by decide)]
  rfl

/-! ## What a qualified name denotes -/

/-- The qualified name evaluates to the value in every environment, of any namespace, in which the
name of the namespace is not an alias for another one and no frame binds the qualified name. -/
def State.Denotes (s : State) (host : Host) (ns name : Bytes) (v : Term) : Prop :=
  ∀ env : Env, s.Unbound env.frames (qualify ns name) →
    (∀ n target, s.namespaces.get? env.ns = some n → n.aliases.get? ns = some target →
      target = ns) →
    Evaluates host (.symbol (qualify ns name)) env s (.value (v, env) s)

/-- Where the name of a namespace is not an alias for another one, it means that namespace. -/
theorem Registry.target?_self {r : Registry} {here ns : Bytes} (hns : r.Registered ns)
    (halias : ∀ n target, r.get? here = some n → n.aliases.get? ns = some target → target = ns) :
    r.target? here ns = some ns := by
  unfold target?
  split
  case h_1 target h =>
    obtain ⟨n, hn, htarget⟩ := Option.bind_eq_some_iff.mp h
    rw [halias n target hn htarget]
  case h_2 => rw [if_pos hns]

/-- A binding is denoted by its qualified name. -/
theorem State.bindRoot_denotes {s : State} {ns name : Bytes} (hreg : s.namespaces.Registered ns)
    (hns : ns ≠ []) (hslash : 47 ∉ ns) (hname : name ≠ []) (host : Host) (v : Term) :
    (s.bindRoot ns name v).Denotes host ns name v := by
  intro env hframes halias
  obtain ⟨n, hn⟩ := Option.isSome_iff_exists.mp hreg
  have hget : (s.bindRoot ns name v).namespaces.get? ns = some (n.bind name v) := by
    rw [bindRoot, Table.get?_modify_self, hn]
    rfl
  have htarget : (s.bindRoot ns name v).namespaces.target? env.ns ns = some ns :=
    Registry.target?_self (Option.isSome_iff_exists.mpr ⟨_, hget⟩) halias
  have hresolve : (s.bindRoot ns name v).namespaces.resolve ns name = some v := by
    simp only [Registry.resolve, hget, Option.bind_some, Namespace.bind, Table.get?_insert_self]
  have hlookup : (s.bindRoot ns name v).lookup env (qualify ns name) = .ok v := by
    simp only [lookup, hframes.findSome, splitQualified_qualify hns hslash hname, htarget, hresolve]
  exact (Computes.symbol hlookup (constant?_qualify ns name)).evaluates host

/-! ## Definitions -/

section

variable {host : Host} {s s' : State} {env out : Env} {name : Bytes} {form : Term}

theorem evaluates_define {v : Term} (hplain : macroOf? s env (.sym "def") = none)
    (h : Evaluates host form env s (.value (v, out) s')) :
    Evaluates host (formOf "def" [.symbol name, form]) env s
      (.value (.symbol (qualify env.ns name), env) (s'.bindRoot env.ns name v)) := by
  obtain ⟨-, fuel, hfuel⟩ := h
  have hrun : evalWith host (fuel + 1) (formOf "def" [.symbol name, form]) env s =
      .value (.symbol (qualify env.ns name), env) (s'.bindRoot env.ns name v) := by
    rw [formOf, evalWith_special host fuel hplain (f := .define) (by decide)]
    simp only [Action.inForm, Cursor.special, Cursor.define, Action.bind_apply,
      value_of_evalWith hfuel]
    rfl
  exact ⟨by simp, fuel + 1, hrun⟩

/-- The copy of a function that is a macro, with a number of its own. -/
def Closure.asMacro (f : Closure Term) (id : Nat) : Closure Term :=
  { f with id := id, isMacro := true }

def State.bindMacro (s : State) (ns name : Bytes) (f : Closure Term) : State :=
  { s with closures := s.closures + 1 }.bindRoot ns name (.closure (f.asMacro s.closures))

theorem evaluates_defineMacro {f : Closure Term} (hplain : macroOf? s env (.sym "defmacro") = none)
    (h : Evaluates host form env s (.value (.closure f, out) s')) :
    Evaluates host (formOf "defmacro" [.symbol name, form]) env s
      (.value (.symbol (qualify env.ns name), env) (s'.bindMacro env.ns name f)) := by
  obtain ⟨-, fuel, hfuel⟩ := h
  have hrun : evalWith host (fuel + 1) (formOf "defmacro" [.symbol name, form]) env s =
      .value (.symbol (qualify env.ns name), env) (s'.bindMacro env.ns name f) := by
    rw [formOf, evalWith_special host fuel hplain (f := .defineMacro) (by decide)]
    simp only [Action.inForm, Cursor.special, Cursor.defineMacro, Action.bind_apply,
      value_of_evalWith hfuel]
    rfl
  exact ⟨by simp, fuel + 1, hrun⟩

/-- Evaluations remove no namespace. -/
theorem Evaluates.registered {ns : Bytes} {r : Outcome (Term × Env)}
    (h : Evaluates host form env s r) (hs' : r.state? = some s')
    (hns : s.namespaces.Registered ns) : s'.namespaces.Registered ns := by
  obtain ⟨-, fuel, rfl⟩ := h
  obtain ⟨n, hn⟩ := Option.isSome_iff_exists.mp hns
  obtain ⟨later, hlater, -⟩ := (GlobalsKept.of_composed (.eval form env) hs').grows.namespaces hn
  exact Option.isSome_iff_exists.mpr ⟨later, hlater⟩

end

/-- The name that `def` or `defmacro` returns denotes the binding, if that form is no macro here. The
namespace of the environment is there, as it is wherever evaluation comes
(`Comes.wellFormed`); its name is neither empty nor has a slash, and the defined name is not empty. -/
theorem defined_name_denotes {host : Host} {s s' : State} {env out : Env} {name : Bytes}
    {form : Term} (hreg : s.namespaces.Registered env.ns) (hns : env.ns ≠ [])
    (hslash : 47 ∉ env.ns) (hname : name ≠ []) :
    (∀ v, macroOf? s env (.sym "def") = none →
      Evaluates host form env s (.value (v, out) s') →
        Evaluates host (formOf "def" [.symbol name, form]) env s
          (.value (.symbol (qualify env.ns name), env) (s'.bindRoot env.ns name v)) ∧
        (s'.bindRoot env.ns name v).Denotes host env.ns name v) ∧
    ∀ f, macroOf? s env (.sym "defmacro") = none →
      Evaluates host form env s (.value (.closure f, out) s') →
        Evaluates host (formOf "defmacro" [.symbol name, form]) env s
          (.value (.symbol (qualify env.ns name), env) (s'.bindMacro env.ns name f)) ∧
        (s'.bindMacro env.ns name f).Denotes host env.ns name
          (.closure (f.asMacro s'.closures)) := by
  refine ⟨fun v hplain h => ⟨evaluates_define hplain h, ?_⟩,
    fun f hplain h => ⟨evaluates_defineMacro hplain h, ?_⟩⟩
  · exact State.bindRoot_denotes (h.registered rfl hreg) hns hslash hname host v
  · have hreg' : s'.namespaces.Registered env.ns := h.registered rfl hreg
    exact State.bindRoot_denotes (s := { s' with closures := s'.closures + 1 }) hreg' hns hslash
      hname host _

/-- The name `/` in the namespace `user`: `user//` denotes what it was defined to be, also in the core
namespace, which has a `/` of its own; and so for a macro. -/
theorem slash_denoted :
    let s := Session.fresh.state
    let env := Session.fresh.env
    let slash := Bytes.ofString "/"
    let five := s.bindRoot env.ns slash (.int 5)
    let identity : Closure Term :=
      ⟨s.closures, false, [], env.ns, [Bytes.ofString "y"], none, [.sym "y"], env⟩
    let made : State := { s with closures := s.closures + 1 }
    let function := formOf "function" [.list [.sym "y"], .sym "y"]
    (s.namespaces.Registered env.ns ∧ env.ns ≠ [] ∧ 47 ∉ env.ns ∧ slash ≠ [] ∧
      macroOf? s env (.sym "def") = none ∧ macroOf? s env (.sym "defmacro") = none) ∧
    (Evaluates Host.bare (.int 5) env s (.value (.int 5, env) s) ∧
      Evaluates Host.bare (formOf "def" [.sym "/", .int 5]) env s
        (.value (.sym "user//", env) five) ∧
      Evaluates Host.bare (.sym "user//") coreEnv five (.value (.int 5, coreEnv) five)) ∧
    Evaluates Host.bare function env s (.value (.closure identity, env) made) ∧
      Evaluates Host.bare (formOf "defmacro" [.sym "/", function]) env s
        (.value (.sym "user//", env) (made.bindMacro env.ns slash identity)) := by
  intro s env slash five identity made function
  have hreg : s.namespaces.Registered env.ns := Option.isSome_iff_exists.mpr ⟨_, fresh_user⟩
  have hplain (f : SpecialForm) : macroOf? s env (.symbol f.name) = none :=
    fresh_definesIn.special_plain f (fresh_hasCore.unbound_top _)
  have hdef : macroOf? s env (.sym "def") = none := hplain .define
  have hdefmacro : macroOf? s env (.sym "defmacro") = none := hplain .defineMacro
  have hfive : Evaluates Host.bare (.int 5) env s (.value (.int 5, env) s) :=
    (Computes.int 5).evaluates Host.bare
  have hparams : [38] ∉ [Bytes.ofString "y"] := by decide
  have hfunction : Evaluates Host.bare function env s (.value (.closure identity, env) made) :=
    ((ParameterList.fixed hparams).evaluates (hplain .function)).mpr rfl
  have hslash : slash ≠ [] := by decide
  obtain ⟨hreturned, hdenotes⟩ := (defined_name_denotes hreg (by decide) (by decide) hslash).1
    (.int 5) hdef hfive
  have hmade := ((defined_name_denotes hreg (by decide) (by decide) hslash).2 identity hdefmacro
    hfunction).1
  have hcore : five.Unbound coreEnv.frames (qualify env.ns slash) := by
    intro i hi
    obtain rfl := List.mem_singleton.mp hi
    rfl
  exact ⟨⟨hreg, by decide, by decide, hslash, hdef, hdefmacro⟩,
    ⟨hfive, hreturned, hdenotes coreEnv hcore (by rintro n target ⟨⟩ ⟨⟩)⟩, hfunction, hmade⟩

/-! ## Where `def` is a macro -/

/-- A session in which `(defmacro def (function (& xs) 42))` has been evaluated. -/
def redefining : Session :=
  (Session.fresh.evalFormWith (evalWith Host.bare 5) (formOf "defmacro"
    [.sym "def", formOf "function" [.list [.sym "&", .sym "xs"], .int 42]])).2

/-- There `(def x 5)` is 42 and not the name `user/x`. -/
theorem define_disturbed :
    let s := redefining.state
    let env := redefining.env
    (s.namespaces.Registered env.ns ∧ env.ns ≠ [] ∧ 47 ∉ env.ns) ∧
    Evaluates Host.bare (.int 5) env s (.value (.int 5, env) s) ∧
    ∀ r, Evaluates Host.bare (formOf "def" [.sym "x", .int 5]) env s r →
      ∃ v out s', r = .value (v, out) s' ∧ v ≠ .symbol (qualify env.ns (Bytes.ofString "x")) := by
  intro s env
  have hvalue : ∃ out s', Evaluates Host.bare (formOf "def" [.sym "x", .int 5]) env s
      (.value (.int 42, out) s') := ⟨_, _, by simp, 5, rfl⟩
  refine ⟨⟨by rfl, by decide, by decide⟩, ⟨by simp, 1, rfl⟩, fun r hr => ?_⟩
  obtain ⟨out, s', hvalue⟩ := hvalue
  exact ⟨.int 42, out, s', returns_unique hr hvalue, by simp⟩

end SmallLisp

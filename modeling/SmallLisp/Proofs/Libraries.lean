import SmallLisp.Config
import SmallLisp.Proofs.CoreLibrary

/-! Loading libraries in any order, once or many times. Each library is a switch to its namespace
and then definitions (`library_text`). Loading one keeps what loading any of them needs
(`State.Stocked`): special forms keep their meaning everywhere, `defn` stays the macro of the core
library, and the namespace `user` stays empty. So once core is there every list of libraries loads
(`State.Stocked.loadLibraries`). -/
namespace SmallLisp

/-! ## The texts -/

def extremeFunction (name f : String) : Definition :=
  ⟨false, name, none, ["x"], some "xs",
    formOf "reduce" [formOf "function" [.list [.sym "m", .sym "y"],
      formOf "if" [formOf f [.sym "y", .sym "m"], .sym "y", .sym "m"]], .sym "x", .sym "xs"]⟩

def mathDefinitions : List Definition :=
  [⟨false, "square", none, ["x"], none, formOf "*" [.sym "x", .sym "x"]⟩,
    extremeFunction "max" ">", extremeFunction "min" "<",
    ⟨false, "even?", none, ["n"], none,
      formOf "==" [formOf "mod" [.sym "n", .int 2], .int 0]⟩,
    ⟨false, "odd?", none, ["n"], none, formOf "not" [formOf "even?" [.sym "n"]]⟩]

def stringDefinitions : List Definition :=
  [⟨false, "blank?", none, ["s"], none, formOf "empty?" [formOf "trim" [.sym "s"]]⟩,
    ⟨false, "repeat", none, ["s", "n"], none,
      formOf "join" [formOf "map" [formOf "function" [.list [.sym "_"], .sym "s"],
        formOf "range" [.sym "n"]], .string []]⟩]

def mathName : Bytes := Bytes.ofString "math"

def stringName : Bytes := Bytes.ofString "string"

set_option maxRecDepth 100000 in
theorem parse_math : parse (Bytes.ofString Library.math) =
    .ok (formOf "in-ns" [.symbol mathName] :: mathDefinitions.map Definition.form) := by
  unfold Library.math
  rw [ofString_ofList]
  rfl

set_option maxRecDepth 100000 in
theorem parse_string : parse (Bytes.ofString Library.string) =
    .ok (formOf "in-ns" [.symbol stringName] :: stringDefinitions.map Definition.form) := by
  unfold Library.string
  rw [ofString_ofList]
  rfl

def libraryDefinitions (name : Bytes) : List Definition :=
  if name = coreName then coreDefinitions
  else if name = mathName then mathDefinitions
  else stringDefinitions

theorem library_text {ns : Bytes} (h : ns ∈ Library.all) :
    ∃ src, Library.source? ns = some src ∧ parse src =
      .ok (formOf "in-ns" [.symbol ns] :: (libraryDefinitions ns).map Definition.form) := by
  simp only [Library.all, List.mem_cons, List.not_mem_nil, or_false] at h
  rcases h with rfl | rfl | rfl
  · exact ⟨_, by rfl, parse_core⟩
  · exact ⟨_, by rfl, parse_math⟩
  · exact ⟨_, by rfl, parse_string⟩

theorem libraryDefinitions_proper :
    ∀ ns ∈ Library.all, ∀ d ∈ libraryDefinitions ns, d.Proper := by
  decide +kernel

theorem libraryDefinitions_nodup :
    ∀ ns ∈ Library.all, ((libraryDefinitions ns).map fun d => Bytes.ofString d.name).Nodup := by
  decide +kernel

/-- Only the core library defines `defn`. -/
theorem libraryDefinitions_defn : ∀ ns ∈ Library.all, ns ≠ coreName →
    Bytes.ofString "defn" ∉ (libraryDefinitions ns).map fun d => Bytes.ofString d.name := by
  decide +kernel

/-! ## What loading needs and keeps -/

/-- The bindings of the namespace of a library: special forms are left alone, the macro `defn` and
the functions that build lists are those of core, and if the library has been loaded, what it
defines is there. -/
structure Table.Stocked (root : Table Term) (ns : Bytes) (loaded : List Bytes) : Prop where
  special (f : SpecialForm) : root.get? f.name = none
  defn (h : ns ≠ coreName) : root.get? (Bytes.ofString "defn") = none
  templating (h : ns = coreName) : root.Templating
  bound (h : ns ∈ loaded) {d : Definition} (hd : d ∈ libraryDefinitions ns) :
    ∃ id, root.get? (Bytes.ofString d.name) = some (.closure (d.functionIn ns id))

structure State.Stocked (s : State) (loaded : List Bytes) : Prop where
  top : s.TopEmpty
  user : s.Holds Session.userName []
  library {ns : Bytes} (h : ns ∈ Library.all) :
    ∃ root, s.Holds ns root ∧ Table.Stocked root ns loaded

theorem coreName_mem_all : coreName ∈ Library.all := by
  decide

/-- Loading a library once more keeps its namespace stocked. -/
theorem Table.Stocked.enterAllIn {root root' : Table Term} {ns : Bytes} {loaded : List Bytes}
    (h : Table.Stocked root ns loaded) (hns : ns ∈ Library.all)
    (hothers : ∀ name, name ∉ (libraryDefinitions ns).map (fun d => Bytes.ofString d.name) →
      root'.get? name = root.get? name)
    (hbound : ∀ d ∈ libraryDefinitions ns, ∃ id, root'.get? (Bytes.ofString d.name) =
      some (.closure (d.functionIn ns id))) : Table.Stocked root' ns (ns :: loaded) := by
  have hreserved {name : Bytes} (hname : name ∈ Definition.reserved) :
      root'.get? name = root.get? name := by
    refine hothers name fun hmem => ?_
    obtain ⟨d, hd, rfl⟩ := List.mem_map.mp hmem
    exact Definition.Proper.ne_reserved (libraryDefinitions_proper ns hns d hd) hname rfl
  refine ⟨fun f => ?_, fun hcore => ?_, fun hcore => ⟨fun f => ?_, ?_, ?_⟩,
    fun _ {d} hd => hbound d hd⟩
  · rw [hreserved (Definition.special_reserved f), h.special f]
  · rw [hothers _ (libraryDefinitions_defn ns hns hcore), h.defn hcore]
  · rw [hreserved (Definition.special_reserved f), h.special f]
  · rw [hreserved (by simp [Definition.reserved]), (h.templating hcore).cons]
  · rw [hreserved (by simp [Definition.reserved]), (h.templating hcore).concat]

theorem Table.Stocked.more {root : Table Term} {ns other : Bytes} {loaded : List Bytes}
    (h : Table.Stocked root ns loaded) (hne : other ≠ ns) :
    Table.Stocked root ns (other :: loaded) :=
  { h with
    bound := fun hmem => h.bound ((List.mem_cons.mp hmem).resolve_left (Ne.symm hne)) }

namespace State.Stocked

variable {s : State} {ns : Bytes} {loaded : List Bytes}

/-- The definitions of a library leave everything else as it was. -/
theorem enterAllIn (h : s.Stocked loaded) (hns : ns ∈ Library.all) :
    (s.enterAllIn ns (libraryDefinitions ns)).Stocked (ns :: loaded) := by
  have huser : ns ≠ Session.userName := by
    rintro rfl
    exact absurd hns (by decide)
  refine ⟨h.top.enterAllIn ns _, ?_, fun {other} hother => ?_⟩
  · exact (s.enterAllIn_other _ huser).trans h.user
  · obtain ⟨root, hroot, hstocked⟩ := h.library hother
    by_cases hne : ns = other
    · subst hne
      obtain ⟨root', hroot', hothers, hbound⟩ :=
        hroot.enterAllIn (libraryDefinitions_nodup ns hns)
      exact ⟨root', hroot', hstocked.enterAllIn hns hothers hbound⟩
    · exact ⟨root, (s.enterAllIn_other _ hne).trans hroot, hstocked.more hne⟩

/-- A library loads if it is the core library or that one has been loaded. -/
theorem loadText (h : s.Stocked loaded) (hns : ns ∈ Library.all)
    (hcore : ns = coreName ∨ coreName ∈ loaded) (host : Host) {fuel : Nat} (hfuel : 40 ≤ fuel) :
    ∃ src w, Library.source? ns = some src ∧
      SmallLisp.loadText (evalWith host fuel) src ⟨[0], Session.userName⟩ s =
        .value w (s.enterAllIn ns (libraryDefinitions ns)) := by
  obtain ⟨src, hsource, hparse⟩ := library_text hns
  obtain ⟨core, hheld, hstocked⟩ := h.library coreName_mem_all
  have htemplating := hstocked.templating rfl
  have huser : s.DefinesIn Session.userName core [] :=
    ⟨⟨h.top, hheld⟩, htemplating, h.user, fun _ => rfl⟩
  by_cases hne : ns = coreName
  · subst hne
    obtain ⟨w, hload⟩ := huser.loadText_core host hfuel
    exact ⟨_, w, by rfl, hload⟩
  · obtain ⟨root, hroot, hlibrary⟩ := h.library hns
    have hs : s.DefinesIn ns core root := ⟨huser.hasCore, htemplating, hroot, hlibrary.special⟩
    have hmem : defnMacro ∈ libraryDefinitions coreName := List.mem_cons_self
    obtain ⟨id, hid⟩ := hstocked.bound (hcore.resolve_left hne) hmem
    have hdefn : (root.get? (Bytes.ofString "defn")).or (core.get? (Bytes.ofString "defn")) =
        some (.closure (defnMacro.function id)) := by
      rw [hlibrary.defn hne, Option.none_or]
      exact hid
    have hnames : ∀ d ∈ libraryDefinitions ns, Bytes.ofString d.name ≠ Bytes.ofString "defn" :=
      fun d hd heq => libraryDefinitions_defn ns hns hne (heq ▸ List.mem_map_of_mem hd)
    obtain ⟨fuel, rfl⟩ : ∃ more, fuel = more + 2 := ⟨fuel - 2, by omega⟩
    have hthirty : 30 ≤ fuel + 1 := by omega
    obtain ⟨w, hload⟩ := huser.loadText hs hparse
      (hs.inTurn_definitions hdefn (libraryDefinitions_proper ns hns) hnames host hthirty)
    exact ⟨src, w, hsource, hload⟩

/-- Every list of libraries loads once core is there, or if it comes first. -/
theorem loadLibraries (h : s.Stocked loaded) {names : List Bytes}
    (hnames : ∀ name ∈ names, name ∈ Library.all)
    (hcore : names.head? = some coreName ∨ coreName ∈ loaded) (host : Host) :
    ∃ s' loaded', Session.loadLibraries host names ⟨s, Session.fresh.env⟩ =
        (.value (), ⟨s', Session.fresh.env⟩) ∧
      s'.Stocked loaded' ∧ ∀ name ∈ names ++ loaded, name ∈ loaded' := by
  induction names generalizing s loaded with
  | nil => exact ⟨s, loaded, rfl, h, fun name hname => hname⟩
  | cons ns names ih =>
    obtain ⟨hns, hnames⟩ := List.forall_mem_cons.mp hnames
    have hready : ns = coreName ∨ coreName ∈ loaded := by simpa using hcore
    have hample : 40 ≤ ampleFuel := by decide
    obtain ⟨src, w, hsource, hload⟩ := h.loadText hns hready host hample
    have hthere : coreName ∈ ns :: loaded :=
      hready.elim (fun heq => heq ▸ List.mem_cons_self) (List.mem_cons_of_mem ns)
    obtain ⟨s', loaded', hrest, hs', hloaded⟩ := ih (h.enterAllIn hns) hnames (.inr hthere)
    refine ⟨s', loaded', ?_, hs', fun name hname => hloaded name ?_⟩
    · have hfirst : Session.load host src ⟨s, Session.fresh.env⟩ = _ := Session.load_of_value hload
      rw [Session.loadLibraries, hsource]
      simp only [hfirst, hrest]
    · simpa [or_left_comm] using hname

end State.Stocked

/-! ## A fresh session -/

/-- A namespace with native functions, and perhaps other bindings. -/
def nativesWith (es : List Builtin.Entry) (others : Table Term) : Table Term :=
  (es.map fun e => (e.name, .native e.function)) ++ others

theorem names_nativesWith (es : List Builtin.Entry) (others : Table Term) :
    (nativesWith es others).names = es.map Builtin.Entry.name ++ others.names := by
  simp [nativesWith, Table.names]

/-- The native functions of a library stock its namespace if they leave special forms and `defn`
alone. -/
theorem nativesWith_stocked {es : List Builtin.Entry} {others : Table Term} {ns : Bytes}
    (hns : ns ≠ coreName)
    (hnames : ∀ name ∈ Bytes.ofString "defn" :: SpecialForm.all.map SpecialForm.name,
      name ∉ es.map Builtin.Entry.name ++ others.names) :
    Table.Stocked (nativesWith es others) ns [] := by
  have hfree {name : Bytes}
      (hname : name ∈ Bytes.ofString "defn" :: SpecialForm.all.map SpecialForm.name) :
      (nativesWith es others).get? name = none := by
    rw [Table.get?_eq_none_iff, names_nativesWith]
    exact hnames name hname
  refine ⟨fun f => hfree (List.mem_cons_of_mem _ (List.mem_map_of_mem ?_)),
    fun _ => hfree List.mem_cons_self, fun h => absurd h hns, fun h => absurd h List.not_mem_nil⟩
  cases f <;> decide

-- the tables of the namespaces are built up by binding one function after the other
set_option maxRecDepth 10000 in
theorem fresh_math : Session.fresh.state.Holds mathName
    (nativesWith Builtin.math [(Bytes.ofString "pi", .float piValue)]) := rfl

set_option maxRecDepth 10000 in
theorem fresh_string : Session.fresh.state.Holds stringName (nativesWith Builtin.string []) := rfl

theorem fresh_stocked : Session.fresh.state.Stocked [] := by
  refine ⟨Session.fresh_topEmpty, fresh_user, fun {ns} h => ?_⟩
  simp only [Library.all, List.mem_cons, List.not_mem_nil, or_false] at h
  rcases h with rfl | rfl | rfl
  · exact ⟨coreNatives, fresh_hasCore.holds, coreNatives_templating.special,
      fun h => absurd rfl h, fun _ => coreNatives_templating, fun h => absurd h List.not_mem_nil⟩
  · exact ⟨_, fresh_math, nativesWith_stocked (by decide) (by decide +kernel)⟩
  · exact ⟨_, fresh_string, nativesWith_stocked (by decide) (by decide +kernel)⟩

/-- A configuration that names known libraries, in any order and any number of times: they load
after `core` into a fresh session, which is then still in the namespace `user`, and every definition
in the text of each of them is bound in its own namespace. -/
theorem preload_loads (host : Host) (home : Bytes) (c : Config)
    (hknown : ∀ name ∈ c.preload, name ∈ Library.all) :
    (c.normalize home).preload = coreName :: c.preload.filter (· ≠ coreName) ∧
    ∃ s, Session.fresh.loadLibraries host (c.normalize home).preload = (.value (), s) ∧
      s.env.ns = Session.userName ∧
      ∀ name ∈ (c.normalize home).preload, ∃ (src : Bytes) (ds : List Definition) (n : Namespace),
        Library.source? name = some src ∧
        parse src = .ok (formOf "in-ns" [.symbol name] :: ds.map Definition.form) ∧
        s.state.namespaces.get? name = some n ∧
        ∀ d ∈ ds, ∃ id, n.root.get? (Bytes.ofString d.name) =
          some (.closure (d.functionIn name id)) := by
  have hnormal : (c.normalize home).preload = coreName :: c.preload.filter (· ≠ coreName) := by
    change Config.normalPreload c.preload = _
    refine congrArg (coreName :: ·) (List.filter_congr fun name _ => ?_)
    rw [Bool.eq_iff_iff, decide_eq_true_iff, bne_iff_ne]
    rfl
  have hnames : ∀ name ∈ (c.normalize home).preload, name ∈ Library.all := by
    rw [hnormal]
    refine List.forall_mem_cons.mpr ⟨coreName_mem_all, fun name hname => ?_⟩
    exact hknown name (List.mem_filter.mp hname).1
  obtain ⟨s, loaded, hload, hs, hloaded⟩ :=
    fresh_stocked.loadLibraries hnames (.inl (by rw [hnormal]; rfl)) host
  refine ⟨hnormal, ⟨s, Session.fresh.env⟩, hload, rfl, fun name hname => ?_⟩
  obtain ⟨src, hsource, hparse⟩ := library_text (hnames name hname)
  obtain ⟨root, hroot, hstocked⟩ := hs.library (hnames name hname)
  exact ⟨src, _, _, hsource, hparse, hroot, fun d hd =>
    hstocked.bound (hloaded name (List.mem_append_left _ hname)) hd⟩

/-- The libraries out of order, one of them twice. -/
theorem stringFirst_loads :
    let c : Config := { Config.default with preload := [stringName, mathName, coreName, mathName] }
    (∀ name ∈ c.preload, name ∈ Library.all) ∧
    (c.normalize []).preload = [coreName, stringName, mathName, mathName] ∧
    ∃ s, Session.fresh.loadLibraries Host.bare [coreName, stringName, mathName, mathName] =
      (.value (), s) ∧ s.env.ns = Session.userName := by
  intro c
  have hknown : ∀ name ∈ c.preload, name ∈ Library.all := by decide
  have hnormal : (c.normalize []).preload = [coreName, stringName, mathName, mathName] := by
    decide
  obtain ⟨-, s, hload, henv, -⟩ := preload_loads Host.bare [] c hknown
  rw [hnormal] at hload
  exact ⟨hknown, hnormal, s, hload, henv⟩

end SmallLisp

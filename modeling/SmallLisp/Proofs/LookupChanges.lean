import SmallLisp.Proofs.CoreLibrary

/-! What a change of a namespace does to the values of names. A lookup that no frame answers is
directed to one namespace and one name there (`State.Directed`). A new binding reaches it in that
namespace itself or through the first import that binds the name; a new import comes after all
others, so it only answers what nothing else does. -/
namespace SmallLisp

/-! ## Where a lookup is directed -/

def Registry.root? (r : Registry) (ns name : Bytes) : Option Term :=
  (r.get? ns).bind fun n => n.root.get? name

/-- No frame answers the lookup, and it is directed to a name in a namespace: a name without a
qualifier to the environment's own namespace, a qualified one to the namespace that the qualifier
refers to there. -/
structure State.Directed (s : State) (env : Env) (name target inner : Bytes) : Prop where
  unbound : s.Unbound env.frames name
  goes : (splitQualified name = none ∧ target = env.ns ∧ inner = name) ∨
    ∃ qualifier, splitQualified name = some (qualifier, inner) ∧
      s.namespaces.target? env.ns qualifier = some target

/-- A name of a namespace is looked up in `source`: that is the namespace itself, or its root does
not bind the name and it imports `source`, and no import before that binds the name. -/
def Registry.Searches (r : Registry) (target name source : Bytes) : Prop :=
  target = source ∨ ∃ n before after, r.get? target = some n ∧ n.root.get? name = none ∧
    n.imports = before ++ source :: after ∧ ∀ i ∈ before, r.root? i name = none

namespace Registry

variable {r : Registry}

theorem resolve_eq {n : Namespace} {ns : Bytes} (h : r.get? ns = some n) (name : Bytes) :
    r.resolve ns name = (n.root.get? name).or (n.imports.findSome? fun i => r.root? i name) := by
  simp only [resolve, h, Option.bind_some, root?]
  cases n.root.get? name <;> rfl

theorem resolve_none {ns : Bytes} (h : r.get? ns = none) (name : Bytes) :
    r.resolve ns name = none := by
  simp [resolve, h]

end Registry

namespace State

variable {s : State} {env : Env} {name target inner : Bytes}

/-- Every lookup is answered by a frame, or is directed somewhere, or has a qualifier that refers to
no namespace. -/
theorem lookup_cases (s : State) (env : Env) (name : Bytes) :
    (∃ v, (env.frames.findSome? fun i => (s.frame i).get? name) = some v) ∨
    (∃ target inner, s.Directed env name target inner) ∨
    (s.Unbound env.frames name ∧ ∃ qualifier inner, splitQualified name = some (qualifier, inner) ∧
      s.namespaces.target? env.ns qualifier = none) := by
  cases hframes : env.frames.findSome? fun i => (s.frame i).get? name with
  | some v => exact .inl ⟨v, rfl⟩
  | none =>
    have hunbound : s.Unbound env.frames name := List.findSome?_eq_none_iff.mp hframes
    right
    cases hsplit : splitQualified name with
    | none => exact .inl ⟨env.ns, name, hunbound, .inl ⟨hsplit, rfl, rfl⟩⟩
    | some parts =>
      cases htarget : s.namespaces.target? env.ns parts.1 with
      | some t => exact .inl ⟨t, parts.2, hunbound, .inr ⟨parts.1, hsplit, htarget⟩⟩
      | none => exact .inr ⟨hunbound, parts.1, parts.2, rfl, htarget⟩

theorem lookup_bound {v : Term}
    (h : (env.frames.findSome? fun i => (s.frame i).get? name) = some v) :
    s.lookup env name = .ok v := by
  simp only [lookup, h]

/-- A directed lookup gives what the namespace gives the name. -/
theorem Directed.lookup_eq (h : s.Directed env name target inner) :
    s.lookup env name =
      ((s.namespaces.resolve target inner).elim (.error (.unbound name)) .ok) := by
  rcases h.goes with ⟨hsplit, rfl, rfl⟩ | ⟨qualifier, hsplit, htarget⟩
  · cases hv : s.namespaces.resolve env.ns inner <;>
      simp only [lookup, h.unbound.findSome, hsplit, hv, Option.elim]
  · cases hv : s.namespaces.resolve target inner <;>
      simp only [lookup, h.unbound.findSome, hsplit, htarget, hv, Option.elim]

theorem lookup_unknown {qualifier : Bytes} (h : s.Unbound env.frames name)
    (hsplit : splitQualified name = some (qualifier, inner))
    (htarget : s.namespaces.target? env.ns qualifier = none) :
    s.lookup env name = .error (.unknownNamespace qualifier) := by
  simp only [lookup, h.findSome, hsplit, htarget]

end State

/-! ## A change of one namespace -/

def KeepsAliases (f : Namespace → Namespace) : Prop := ∀ n, (f n).aliases = n.aliases

abbrev Registry.change (r : Registry) (ns : Bytes) (f : Namespace → Namespace) : Registry :=
  r.modify ns f

namespace Registry

variable {r : Registry} {ns target y : Bytes} {f : Namespace → Namespace}

theorem get?_change_self {n : Namespace} (h : r.get? ns = some n) :
    (r.change ns f).get? ns = some (f n) := by
  rw [Table.get?_modify_self, h]
  rfl

/-- A namespace that is not there gives no name a value, whatever is changed. -/
theorem resolve_change_absent (h : r.get? target = none) :
    (r.change ns f).resolve target y = r.resolve target y := by
  have hchange : (r.change ns f).get? target = none := by
    by_cases hns : ns = target
    · rw [hns, Table.get?_modify_self, h]
      rfl
    · rw [Table.get?_modify_of_ne r hns, h]
  exact (resolve_none hchange y).trans (resolve_none h y).symm

/-- A change that leaves the roots alone, as far as the name goes, does not reach other
namespaces. -/
theorem resolve_change_other (hns : ns ≠ target)
    (hroots : ∀ i, (r.change ns f).root? i y = r.root? i y) :
    (r.change ns f).resolve target y = r.resolve target y := by
  cases htarget : r.get? target with
  | none => exact resolve_change_absent htarget
  | some n =>
    have hchange : (r.change ns f).get? target = some n := by
      rw [Table.get?_modify_of_ne r hns, htarget]
    rw [resolve_eq hchange, resolve_eq htarget, funext hroots]

end Registry

def State.change (s : State) (ns : Bytes) (f : Namespace → Namespace) : State :=
  { s with namespaces := s.namespaces.change ns f }

namespace State

variable {s : State} {env : Env} {ns name target inner : Bytes} {f : Namespace → Namespace}

theorem target?_change (hf : KeepsAliases f) (qualifier : Bytes) :
    (s.change ns f).namespaces.target? env.ns qualifier =
      s.namespaces.target? env.ns qualifier := by
  have halias : (((s.change ns f).namespaces.get? env.ns).bind fun n => n.aliases.get? qualifier) =
      (s.namespaces.get? env.ns).bind fun n => n.aliases.get? qualifier := by
    by_cases hns : ns = env.ns
    · subst hns
      simp only [change, Table.get?_modify_self]
      cases s.namespaces.get? env.ns <;> simp [hf _]
    · rw [change, Table.get?_modify_of_ne _ hns]
  simp only [Registry.target?, halias]
  simp only [change, Table.contains_modify]

/-- The change of a namespace directs no lookup elsewhere. -/
theorem Directed.change (h : s.Directed env name target inner) (hf : KeepsAliases f) :
    (s.change ns f).Directed env name target inner := by
  refine ⟨h.unbound, ?_⟩
  rcases h.goes with hgoes | ⟨qualifier, hsplit, htarget⟩
  · exact .inl hgoes
  · exact .inr ⟨qualifier, hsplit, (target?_change hf qualifier).trans htarget⟩

/-- A lookup changes only where the namespace that it is directed to answers otherwise. -/
theorem lookup_change (hf : KeepsAliases f) (env : Env) (name : Bytes) :
    (s.change ns f).lookup env name = s.lookup env name ∨
      ∃ target inner, s.Directed env name target inner := by
  rcases s.lookup_cases env name with ⟨v, hv⟩ | hdirected | ⟨hunbound, q, inner, hsplit, htarget⟩
  · exact .inl ((lookup_bound (s := s.change ns f) hv).trans (lookup_bound hv).symm)
  · exact .inr hdirected
  · left
    rw [lookup_unknown hunbound hsplit htarget,
      lookup_unknown (s := s.change ns f) hunbound hsplit ((target?_change hf q).trans htarget)]

end State

/-! ## A binding -/

namespace Registry

variable {r : Registry} {ns x : Bytes} {v : Term}

theorem root?_bind_self (h : r.contains ns = true) :
    (r.change ns (·.bind x v)).root? ns x = some v := by
  obtain ⟨n, hn⟩ := Option.isSome_iff_exists.mp h
  rw [root?, Table.get?_modify_self, hn]
  exact n.root.get?_insert_self x v

theorem root?_bind_of_ne {i y : Bytes} (h : i = ns → r.contains ns = true → x ≠ y) :
    (r.change ns (·.bind x v)).root? i y = r.root? i y := by
  by_cases hi : ns = i
  · subst hi
    rw [root?, root?, Table.get?_modify_self]
    cases hn : r.get? ns with
    | none => rfl
    | some n => exact n.root.get?_insert_of_ne (h rfl (by simp [Table.contains, hn])) v
  · rw [root?, root?, Table.get?_modify_of_ne r hi]

/-- The first import that binds the name decides. -/
theorem findSome?_bind (hns : r.contains ns = true) (imports : List Bytes) :
    (imports.findSome? fun i => (r.change ns (·.bind x v)).root? i x) =
        (imports.findSome? fun i => r.root? i x) ∨
      (∃ before after, imports = before ++ ns :: after ∧ ∀ i ∈ before, r.root? i x = none) ∧
        (imports.findSome? fun i => (r.change ns (·.bind x v)).root? i x) = some v := by
  induction imports with
  | nil => exact .inl rfl
  | cons i imports ih =>
    by_cases hi : i = ns
    · subst hi
      refine .inr ⟨⟨[], imports, rfl, List.forall_mem_nil _⟩, ?_⟩
      rw [List.findSome?_cons, root?_bind_self hns]
    · rw [List.findSome?_cons, List.findSome?_cons, root?_bind_of_ne fun h => absurd h hi]
      cases hroot : r.root? i x with
      | some w => exact .inl rfl
      | none =>
        rcases ih with h | ⟨⟨before, after, rfl, hbefore⟩, h⟩
        · exact .inl h
        · exact .inr ⟨⟨i :: before, after, rfl, List.forall_mem_cons.mpr ⟨hroot, hbefore⟩⟩, h⟩

/-- In the namespace itself the binding decides about its name, and nothing changes for others. -/
theorem resolve_bind_self {n : Namespace} (h : r.get? ns = some n) (y : Bytes) :
    (r.change ns (·.bind x v)).resolve ns y = if x = y then some v else r.resolve ns y := by
  rw [resolve_eq (get?_change_self h), Namespace.bind]
  split
  case isTrue hy =>
    subst hy
    rw [Table.get?_insert_self, Option.some_or]
  case isFalse hy =>
    rw [resolve_eq h, Table.get?_insert_of_ne n.root hy,
      funext fun i => root?_bind_of_ne fun _ _ => hy]

/-- Elsewhere it is seen through the first import that binds the name. -/
theorem resolve_bind_imported {n : Namespace} {target : Bytes} (htarget : r.get? target = some n)
    (hns : ns ≠ target) (hcontains : r.contains ns = true) :
    (r.change ns (·.bind x v)).resolve target x = r.resolve target x ∨
      r.Searches target x ns ∧ (r.change ns (·.bind x v)).resolve target x = some v := by
  have hchange : (r.change ns (·.bind x v)).get? target = some n := by
    rw [Table.get?_modify_of_ne r hns, htarget]
  rw [resolve_eq hchange, resolve_eq htarget]
  cases hroot : n.root.get? x with
  | some w => exact .inl rfl
  | none =>
    rw [Option.none_or, Option.none_or]
    rcases findSome?_bind hcontains n.imports with h | ⟨⟨before, after, himports, hbefore⟩, h⟩
    · exact .inl h
    · exact .inr ⟨.inr ⟨n, before, after, htarget, hroot, himports, hbefore⟩, h⟩

theorem resolve_bind (r : Registry) (ns x : Bytes) (v : Term) (target y : Bytes) :
    (r.change ns (·.bind x v)).resolve target y = r.resolve target y ∨
      (y = x ∧ r.Searches target x ns) ∧
        (r.change ns (·.bind x v)).resolve target y = some v := by
  cases htarget : r.get? target with
  | none => exact .inl (resolve_change_absent htarget)
  | some n =>
    by_cases hns : ns = target
    · subst hns
      rw [resolve_bind_self htarget]
      split
      case isTrue hy => exact .inr ⟨⟨hy.symm, .inl rfl⟩, rfl⟩
      case isFalse => exact .inl rfl
    · by_cases hbinds : r.contains ns = true ∧ x = y
      · obtain ⟨hcontains, rfl⟩ := hbinds
        exact (resolve_bind_imported htarget hns hcontains).imp_right fun h => ⟨⟨rfl, h.1⟩, h.2⟩
      · exact .inl (resolve_change_other hns fun i =>
          root?_bind_of_ne fun _ hcontains hy => hbinds ⟨hcontains, hy⟩)

end Registry

/-! ## An import -/

namespace Registry

variable {r : Registry} {ns other : Bytes}

theorem root?_addImport (i y : Bytes) :
    (r.change ns (·.addImport other)).root? i y = r.root? i y := by
  have hroot (n : Namespace) : (n.addImport other).root = n.root := by
    unfold Namespace.addImport
    split <;> rfl
  by_cases hi : ns = i
  · subst hi
    rw [root?, root?, Table.get?_modify_self]
    cases r.get? ns with
    | none => rfl
    | some n => exact congrArg (·.get? y) (hroot n)
  · rw [root?, root?, Table.get?_modify_of_ne r hi]

theorem resolve_addImport (r : Registry) (ns other target y : Bytes) :
    (r.change ns (·.addImport other)).resolve target y = r.resolve target y ∨
      target = ns ∧ r.resolve target y = none ∧ ∃ v, r.root? other y = some v ∧
        (r.change ns (·.addImport other)).resolve target y = some v := by
  cases htarget : r.get? target with
  | none => exact .inl (resolve_change_absent htarget)
  | some n =>
    by_cases hns : ns = target
    · subst hns
      rw [resolve_eq (get?_change_self htarget), resolve_eq htarget,
        funext fun i => root?_addImport i y, Namespace.addImport]
      split
      case isTrue => exact .inl rfl
      case isFalse =>
        rw [List.findSome?_append, ← Option.or_assoc]
        cases (n.root.get? y).or (n.imports.findSome? fun i => r.root? i y) with
        | some w => exact .inl rfl
        | none =>
          cases hother : r.root? other y with
          | none => exact .inl (by simp [hother])
          | some w => exact .inr ⟨rfl, rfl, w, rfl, by simp [hother]⟩
    · exact .inl (resolve_change_other hns fun i => root?_addImport i y)

end Registry

theorem keepsAliases_bind (x : Bytes) (v : Term) : KeepsAliases (·.bind x v) := fun _ => rfl

theorem keepsAliases_addImport (other : Bytes) : KeepsAliases (·.addImport other) := by
  intro n
  simp only [Namespace.addImport]
  split <;> rfl

namespace State

variable {s : State} {env : Env} {name : Bytes}

theorem lookup_bindRoot (ns x : Bytes) (v : Term) :
    (s.bindRoot ns x v).lookup env name = s.lookup env name ∨
      (∃ target, s.Directed env name target x ∧ s.namespaces.Searches target x ns) ∧
        (s.bindRoot ns x v).lookup env name = .ok v := by
  rcases s.lookup_change (keepsAliases_bind x v) env name with h | ⟨target, inner, hdirected⟩
  · exact .inl h
  · have hafter : (s.bindRoot ns x v).Directed env name target inner :=
      hdirected.change (keepsAliases_bind x v)
    rw [hafter.lookup_eq, hdirected.lookup_eq]
    rcases s.namespaces.resolve_bind ns x v target inner with h | ⟨⟨rfl, hsearches⟩, h⟩
    · exact .inl (by rw [bindRoot, h])
    · exact .inr ⟨⟨target, hdirected, hsearches⟩, by rw [bindRoot, h, Option.elim]⟩

theorem lookup_addImport (ns other : Bytes) :
    (s.addImport ns other).lookup env name = s.lookup env name ∨
      s.lookup env name = .error (.unbound name) ∧
        ∃ inner v, s.Directed env name ns inner ∧ s.namespaces.root? other inner = some v ∧
          (s.addImport ns other).lookup env name = .ok v := by
  rcases s.lookup_change (keepsAliases_addImport other) env name with h | ⟨target, inner, hdirected⟩
  · exact .inl h
  · have hafter : (s.addImport ns other).Directed env name target inner :=
      hdirected.change (keepsAliases_addImport other)
    rw [hafter.lookup_eq, hdirected.lookup_eq]
    rcases s.namespaces.resolve_addImport ns other target inner with h | ⟨rfl, hnone, v, hv, h⟩
    · exact .inl (by rw [addImport, h])
    · exact .inr ⟨by rw [hnone, Option.elim], inner, v, hdirected, hv,
        by rw [addImport, h, Option.elim]⟩

end State

/-- A binding changes only lookups that no frame answers and that are directed to this very name in
a namespace where it is looked up in the changed one, and they give the new value. An import
changes no lookup that succeeded, and one that failed succeeds only if it is directed to the
importing namespace and the imported one binds the name, and gives what is bound there. -/
theorem global_updates (s : State) (env : Env) (name : Bytes) :
    (∀ ns x v, (s.bindRoot ns x v).lookup env name ≠ s.lookup env name →
      (∃ target, s.Directed env name target x ∧ s.namespaces.Searches target x ns) ∧
        (s.bindRoot ns x v).lookup env name = .ok v) ∧
    (∀ ns other v, s.lookup env name = .ok v →
      (s.addImport ns other).lookup env name = .ok v) ∧
    ∀ ns other e v, s.lookup env name = .error e →
      (s.addImport ns other).lookup env name = .ok v →
        ∃ inner, s.Directed env name ns inner ∧ s.namespaces.root? other inner = some v := by
  refine ⟨fun ns x v hne => (State.lookup_bindRoot ns x v).resolve_left hne,
    fun ns other v hv => ?succeeded, fun ns other e v he hv => ?failed⟩
  case succeeded =>
    rcases State.lookup_addImport ns other with h | ⟨hunbound, -⟩
    · exact h.trans hv
    · cases hv.symm.trans hunbound
  case failed =>
    rcases State.lookup_addImport ns other with h | ⟨-, inner, w, hdirected, hw, h⟩
    · cases (h.symm.trans hv).symm.trans he
    · cases hv.symm.trans h
      exact ⟨inner, hdirected, hw⟩

/-- A name bound in `a` becomes visible in `b`, which imports `a`; so it does when `b` imports `a`
after it was bound, and what was visible in `b` before still is. -/
theorem importedBinding_found :
    let a := Bytes.ofString "a"
    let b := Bytes.ofString "b"
    let x := Bytes.ofString "x"
    let env : Env := ⟨[], b⟩
    let s := (State.empty.require a).require b
    let importing := s.addImport b a
    let bound := s.bindRoot a x (.int 1)
    ((importing.bindRoot a x (.int 1)).lookup env x ≠ importing.lookup env x ∧
      (∃ target, importing.Directed env x target x ∧ importing.namespaces.Searches target x a) ∧
      (importing.bindRoot a x (.int 1)).lookup env x = .ok (.int 1)) ∧
    (bound.lookup ⟨[], a⟩ x = .ok (.int 1) ∧
      (bound.addImport a b).lookup ⟨[], a⟩ x = .ok (.int 1)) ∧
    bound.lookup env x = .error (.unbound x) ∧
      (bound.addImport b a).lookup env x = .ok (.int 1) ∧
      ∃ inner, bound.Directed env x b inner ∧ bound.namespaces.root? a inner = some (.int 1) := by
  intro a b x env s importing bound
  have hbefore : importing.lookup env x = .error (.unbound x) := rfl
  have hafter : (importing.bindRoot a x (.int 1)).lookup env x = .ok (.int 1) := rfl
  have hne : (importing.bindRoot a x (.int 1)).lookup env x ≠ importing.lookup env x := by
    rw [hbefore, hafter]
    simp
  have hunbound : bound.lookup env x = .error (.unbound x) := rfl
  have hfound : (bound.addImport b a).lookup env x = .ok (.int 1) := rfl
  exact ⟨⟨hne, (global_updates importing env x).1 a x (.int 1) hne⟩,
    ⟨rfl, (global_updates bound ⟨[], a⟩ x).2.1 a b _ rfl⟩, hunbound, hfound,
    (global_updates bound env x).2.2 b a _ _ hunbound hfound⟩

end SmallLisp

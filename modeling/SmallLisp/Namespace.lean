import SmallLisp.Term

/-! Namespaces: named global scopes. A name is looked up among the bindings of a namespace and then
among those of the namespaces it imports, in order; the imports of an import are not searched.
Every namespace but `core` itself imports `core` first. -/
namespace SmallLisp

structure Namespace where
  name : Bytes
  root : Table Term
  aliases : Table Bytes
  imports : List Bytes

def coreName : Bytes := Bytes.ofString "core"

namespace Namespace

/-- A namespace as it is when first mentioned. -/
def fresh (name : Bytes) : Namespace :=
  ⟨name, [], [], if name == coreName then [] else [coreName]⟩

def bind (ns : Namespace) (name : Bytes) (v : Term) : Namespace :=
  { ns with root := ns.root.insert name v }

/-- Adds an import at the end, unless it is there already or is the namespace itself. -/
def addImport (ns : Namespace) (other : Bytes) : Namespace :=
  if other == ns.name || ns.imports.contains other then ns
  else { ns with imports := ns.imports ++ [other] }

def addAlias (ns : Namespace) (short target : Bytes) : Namespace :=
  { ns with aliases := ns.aliases.insert short target }

/-- The names bound in the namespace itself, in order. -/
def names (ns : Namespace) : List Bytes := sortBy Bytes.less ns.root.names

end Namespace

/-- The name of a binding with its namespace before it. -/
def qualify (ns name : Bytes) : Bytes := ns ++ 47 :: name

/-- Splits `ns/name` at the first slash. A slash at either end does not split. -/
def splitQualified (name : Bytes) : Option (Bytes × Bytes) :=
  let ns := name.takeWhile (· != 47)
  let rest := name.drop (ns.length + 1)
  if ns.isEmpty || rest.isEmpty then none else some (ns, rest)

/-- Namespaces by name. -/
abbrev Registry := Table Namespace

namespace Registry

/-- The value that a namespace gives a name, its own or an imported one. -/
def resolve (r : Registry) (ns name : Bytes) : Option Term :=
  (r.get? ns).bind fun n =>
    match n.root.get? name with
    | some v => some v
    | none => n.imports.findSome? fun i => (r.get? i).bind fun m => m.root.get? name

/-- What a name resolves to is bound in the root of a namespace. -/
theorem resolve_source {r : Registry} {ns name : Bytes} {v : Term} (h : r.resolve ns name = some v) :
    ∃ other n, r.get? other = some n ∧ n.root.get? name = some v := by
  unfold resolve at h
  obtain ⟨n, hn, h⟩ := Option.bind_eq_some_iff.mp h
  split at h
  case h_1 w hw =>
    cases h
    exact ⟨ns, n, hn, hw⟩
  case h_2 =>
    obtain ⟨i, -, h⟩ := List.exists_of_findSome?_eq_some h
    obtain ⟨m, hm, hv⟩ := Option.bind_eq_some_iff.mp h
    exact ⟨i, m, hm, hv⟩

/-- The namespace that a qualified name refers to, seen from `ns`: an alias comes first. -/
def target? (r : Registry) (ns qualifier : Bytes) : Option Bytes :=
  match (r.get? ns).bind fun n => n.aliases.get? qualifier with
  | some t => some t
  | none => if r.contains qualifier then some qualifier else none

end Registry
end SmallLisp

import SmallLisp.Term

/-! How values are written: so that the reader gives them back where it can, or, for output, with
the contents of a string in place of its literal. -/
namespace SmallLisp

/-- The entries of a dict in the order of their keys. -/
def sortEntries {α : Type} (es : List (Atom × α)) : List (Atom × α) :=
  sortBy (fun a b => a.1.keyLess b.1) es

theorem sortEntries_perm {α : Type} (es : List (Atom × α)) : (sortEntries es).Perm es :=
  sortBy_perm _ es

/-- The order of entries does not depend on their values. -/
theorem sortEntries_map {α β : Type} (f : α → β) (es : List (Atom × α)) :
    sortEntries (es.map fun e => (e.1, f e.2)) = (sortEntries es).map fun e => (e.1, f e.2) :=
  sortBy_map (fun _ _ => rfl) es

mutual

def Term.render : Term → Bytes
  | .atom a => a.render
  | .list ts => 40 :: Bytes.join [32] (renderAll ts) ++ [41]
  | .dict es =>
    123 :: Bytes.join [32] ((sortEntries (renderEntries es)).map fun e =>
      e.1.render ++ 32 :: e.2) ++ [125]
  | .native _ => Bytes.ofString "#<native function>"
  | .closure f => Bytes.ofString (if f.isMacro then "#<macro>" else "#<function>")

def renderAll : List Term → List Bytes
  | [] => []
  | t :: ts => t.render :: renderAll ts

def renderEntries : List (Atom × Term) → List (Atom × Bytes)
  | [] => []
  | (k, v) :: es => (k, v.render) :: renderEntries es

end

/-- The text of a value for output. -/
def Term.display : Term → Bytes
  | .string s => s
  | t => t.render

end SmallLisp

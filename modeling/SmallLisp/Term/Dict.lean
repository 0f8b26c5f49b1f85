import SmallLisp.Term.Printer

/-! Dicts and equality. A dict is a list of entries with canonical keys, no two of them the same
key; writing to one makes a new dict. -/
namespace SmallLisp

namespace Entries

/-- The value at a canonical key. -/
def find? : Entries → Atom → Option Term
  | [], _ => none
  | (k, v) :: es, key => if k.isKey key then some v else find? es key

/-- Sets the value at a canonical key, a new key at the end. -/
def put : Entries → Atom → Term → Entries
  | [], key, v => [(key, v)]
  | (k, w) :: es, key, v => if k.isKey key then (k, v) :: es else (k, w) :: put es key v

/-- A key that is not there is entered at the end. -/
theorem put_of_new {es : Entries} {key : Atom} (h : key ∉ es.map Prod.fst) (v : Term) :
    put es key v = es ++ [(key, v)] := by
  induction es with
  | nil => rfl
  | cons e es ih =>
    rw [List.map_cons, List.mem_cons, not_or] at h
    have hkey : e.1.isKey key = false := by simp [Atom.isKey, Ne.symm h.1]
    rw [put, hkey, ih h.2]
    rfl

def get? (es : Entries) (key : Atom) : Option Term := find? es key.canonical

def insert (es : Entries) (key : Atom) (v : Term) : Entries := put es key.canonical v

def erase (es : Entries) (key : Atom) : Entries := es.filter fun e => !e.1.isKey key.canonical

/-- The keys in their order. -/
def keys (es : Entries) : List Atom := (sortEntries es).map (·.1)

/-- The values in the order of their keys. -/
def vals (es : Entries) : List Term := (sortEntries es).map (·.2)

end Entries

mutual

/-- Structural equality: numbers by value, functions by identity. -/
def Term.same : Term → Term → Bool
  | .atom a, .atom b => a.same b
  | .list xs, .list ys => sameAll xs ys
  | .dict xs, .dict ys => xs.length == ys.length && sameEntries xs ys
  | .native f, .native g => f == g
  | .closure f, .closure g => f.id == g.id
  | _, _ => false

def sameAll : List Term → List Term → Bool
  | [], [] => true
  | x :: xs, y :: ys => x.same y && sameAll xs ys
  | _, _ => false

/-- Every entry has its key in the other dict, with an equal value. -/
def sameEntries : List (Atom × Term) → List (Atom × Term) → Bool
  | [], _ => true
  | (k, v) :: es, ys =>
    (match Entries.find? ys k with
     | some w => v.same w
     | none => false) && sameEntries es ys

end

end SmallLisp

import SmallLisp.Text.Bytes

/-! Tables from names to values, in the order in which the names were first entered, and sorting by
a given order. -/
namespace SmallLisp

abbrev Table (α : Type) := List (Bytes × α)

namespace Table

def get? {α : Type} : Table α → Bytes → Option α
  | [], _ => none
  | (k, v) :: t, name => if k == name then some v else get? t name

def contains {α : Type} (t : Table α) (name : Bytes) : Bool := (get? t name).isSome

/-- Replaces the value of a name that is there, and otherwise adds the name at the end. -/
def insert {α : Type} : Table α → Bytes → α → Table α
  | [], name, v => [(name, v)]
  | (k, w) :: t, name, v => if k == name then (k, v) :: t else (k, w) :: insert t name v

/-- Applies `f` to the value of a name that is there. -/
def modify {α : Type} : Table α → Bytes → (α → α) → Table α
  | [], _, _ => []
  | (k, v) :: t, name, f => if k == name then (k, f v) :: t else (k, v) :: modify t name f

def names {α : Type} (t : Table α) : List Bytes := t.map (·.1)

theorem get?_insert_self {α : Type} (t : Table α) (name : Bytes) (v : α) :
    (t.insert name v).get? name = some v := by
  induction t with
  | nil => simp [insert, get?]
  | cons entry t ih =>
    unfold insert
    split <;> simp_all [get?]

theorem get?_insert_of_ne {α : Type} (t : Table α) {name other : Bytes} (h : name ≠ other) (v : α) :
    (t.insert name v).get? other = t.get? other := by
  induction t with
  | nil => simp [insert, get?, h]
  | cons entry t ih =>
    unfold insert
    split <;> simp_all [get?]

theorem eq_or_of_get?_insert {α : Type} {t : Table α} {name other : Bytes} {v w : α}
    (h : (t.insert name v).get? other = some w) : w = v ∨ t.get? other = some w := by
  by_cases hne : name = other
  · subst hne
    rw [get?_insert_self] at h
    exact .inl (Option.some.inj h).symm
  · rw [get?_insert_of_ne t hne] at h
    exact .inr h

/-- Another value for a name that is there adds no name. -/
theorem names_insert {α : Type} {t : Table α} {name : Bytes} (h : t.contains name = true) (v : α) :
    (t.insert name v).names = t.names := by
  induction t with
  | nil => cases h
  | cons entry t ih =>
    unfold insert
    split
    · rfl
    · simp_all [names, contains, get?]

theorem get?_modify_self {α : Type} (t : Table α) (name : Bytes) (f : α → α) :
    (t.modify name f).get? name = (t.get? name).map f := by
  induction t with
  | nil => rfl
  | cons entry t ih =>
    unfold modify
    split <;> simp_all [get?]

theorem get?_modify_of_ne {α : Type} (t : Table α) {name other : Bytes} (h : name ≠ other)
    (f : α → α) : (t.modify name f).get? other = t.get? other := by
  induction t with
  | nil => rfl
  | cons entry t ih =>
    unfold modify
    split <;> simp_all [get?]

@[simp] theorem contains_insert {α : Type} (t : Table α) (name other : Bytes) (v : α) :
    (t.insert name v).contains other = (name == other || t.contains other) := by
  by_cases h : name = other
  · subst h
    simp [contains, get?_insert_self]
  · simp [contains, get?_insert_of_ne t h, h]

@[simp] theorem contains_modify {α : Type} (t : Table α) (name other : Bytes) (f : α → α) :
    (t.modify name f).contains other = t.contains other := by
  by_cases h : name = other
  · subst h
    simp [contains, get?_modify_self]
  · simp [contains, get?_modify_of_ne t h]

end Table

/-- Puts `x` before the first element that it is less than. -/
def sortInsert {α : Type} (less : α → α → Bool) (x : α) : List α → List α
  | [] => [x]
  | y :: ys => if less x y then x :: y :: ys else y :: sortInsert less x ys

/-- The elements in increasing order. -/
def sortBy {α : Type} (less : α → α → Bool) (xs : List α) : List α :=
  xs.foldr (sortInsert less) []

theorem sortInsert_perm {α : Type} (less : α → α → Bool) (x : α) (xs : List α) :
    (sortInsert less x xs).Perm (x :: xs) := by
  induction xs with
  | nil => exact .refl _
  | cons y ys ih =>
    unfold sortInsert
    split
    · exact .refl _
    · exact (ih.cons y).trans (.swap x y ys)

theorem sortBy_perm {α : Type} (less : α → α → Bool) (xs : List α) : (sortBy less xs).Perm xs := by
  induction xs with
  | nil => exact .refl _
  | cons x xs ih => exact (sortInsert_perm less x _).trans (ih.cons x)

/-- Sorting looks at elements only through the order. -/
theorem sortBy_map {α β : Type} {f : α → β} {less : α → α → Bool} {less' : β → β → Bool}
    (h : ∀ a b, less' (f a) (f b) = less a b) (xs : List α) :
    sortBy less' (xs.map f) = (sortBy less xs).map f := by
  have hinsert (x : α) (ys : List α) :
      sortInsert less' (f x) (ys.map f) = (sortInsert less x ys).map f := by
    induction ys with
    | nil => rfl
    | cons y ys ih =>
      simp only [List.map_cons, sortInsert, h, ih]
      split <;> rfl
  induction xs with
  | nil => rfl
  | cons x xs ih =>
    simp only [sortBy, List.map_cons, List.foldr_cons] at ih ⊢
    rw [ih, hinsert]

end SmallLisp

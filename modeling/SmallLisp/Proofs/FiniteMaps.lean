import SmallLisp.Proofs.KeySlots
import SmallLisp.Proofs.NativeErrors

/-! Dicts as finite maps. A dict has its entries at distinct representatives of keys
(`Entries.Proper`). What is in one that `hash-map`, `assoc` and `dissoc` have made can be read off the
pairs written and the keys removed on the way (`Made`): at each key, the value of the latest pair
written at a key of the same representative, unless such a key was removed later
(`dicts_are_finite_maps`). -/
namespace SmallLisp

/-- The keys are distinct representatives, and none of them is NaN. -/
structure Entries.Proper (es : Entries) : Prop where
  distinct : (es.map Prod.fst).Nodup
  canonical : ∀ k ∈ es.map Prod.fst, k.canonical = k
  noNaN : ∀ k ∈ es.map Prod.fst, k.isNaN = false

inductive Edit
  | write (key : Atom) (v : Term)
  | remove (key : Atom)

def Edit.slot : Edit → Atom
  | .write k _ => k.canonical
  | .remove k => k.canonical

def Entries.change (es : Entries) : Edit → Entries
  | .write k v => es.insert k v
  | .remove k => es.erase k

/-- The entries that a history of edits leaves, the latest of which comes first. -/
def Entries.after (history : List Edit) : Entries :=
  history.foldr (fun e es => es.change e) []

def latest : List Edit → Atom → Option Term
  | [], _ => none
  | .write k v :: earlier, slot => if k.canonical = slot then some v else latest earlier slot
  | .remove k :: earlier, slot => if k.canonical = slot then none else latest earlier slot

/-- The value was written at the representative, which no later edit has touched. -/
def LastWritten (history : List Edit) (slot : Atom) (v : Term) : Prop :=
  ∃ later k earlier, history = later ++ .write k v :: earlier ∧ k.canonical = slot ∧
    ∀ e ∈ later, e.slot ≠ slot

/-- The pairs written by arguments in which keys and values alternate, from the left. -/
def writes : List Term → List Edit
  | .atom k :: v :: kvs => .write k v :: writes kvs
  | _ => []

/-- The keys removed by arguments: what cannot be a key is passed over. -/
def removals : List Term → List Edit
  | [] => []
  | .atom k :: ks => .remove k :: removals ks
  | _ :: ks => removals ks

/-- The arguments in the places of keys, where keys and values alternate. -/
def keyArguments : List Term → List Term
  | k :: _ :: kvs => k :: keyArguments kvs
  | _ => []

/-- Lists, dicts and functions cannot be keys. -/
def Term.Unhashable (t : Term) : Prop := t.kind = .list ∨ t.kind = .dict ∨ t.kind = .function

/-- Dicts that calls have made, none of which wrote at NaN, with the edits on the way. -/
inductive Made : List Edit → Entries → Prop
  | hashMap {args : List Term} {es : Entries}
      (hnum : ∀ k v, .write k v ∈ writes args → k.isNaN = false)
      (h : Primitive.hashMap.call args = .ok (.dict es)) : Made (writes args).reverse es
  | assoc {history : List Edit} {es es' : Entries} {args : List Term} (hes : Made history es)
      (hnum : ∀ k v, .write k v ∈ writes args → k.isNaN = false)
      (h : Primitive.assoc.call (.dict es :: args) = .ok (.dict es')) :
      Made ((writes args).reverse ++ history) es'
  | dissoc {history : List Edit} {es es' : Entries} {args : List Term} (hes : Made history es)
      (h : Primitive.dissoc.call (.dict es :: args) = .ok (.dict es')) :
      Made ((removals args).reverse ++ history) es'

/-! ## Keys -/

theorem Atom.canonical_canonical (a : Atom) : a.canonical.canonical = a.canonical := by
  cases a with
  | float x =>
    rcases canonical_float x with ⟨n, hn⟩ | hx
    · rw [hn]
      rfl
    · rw [hx, hx]
  | _ => rfl

theorem Atom.isKey_iff {a b : Atom} : a.isKey b = true ↔ a = b ∧ a.isNaN = false := by
  simp [isKey]

theorem Term.unhashable_iff {t : Term} : t.Unhashable ↔ ∀ a, t ≠ .atom a := by
  cases t with
  | atom a => cases a <;> simp [Unhashable, kind]
  | _ => simp [Unhashable, kind]

/-! ## Entries -/

namespace Entries

theorem find?_put (es : Entries) (key slot : Atom) (v : Term) :
    (es.put key v).find? slot = if key.isKey slot then some v else es.find? slot := by
  induction es with
  | nil => rfl
  | cons e es ih =>
    unfold put
    split
    case isTrue hkey =>
      obtain ⟨rfl, -⟩ := Atom.isKey_iff.mp hkey
      simp only [find?]
      split <;> rfl
    case isFalse hkey =>
      simp only [find?, ih]
      split
      case isTrue hslot =>
        obtain ⟨rfl, hnum⟩ := Atom.isKey_iff.mp hslot
        rw [if_neg]
        intro h
        obtain ⟨rfl, -⟩ := Atom.isKey_iff.mp h
        exact hkey hslot
      case isFalse => rfl

theorem find?_erase (es : Entries) (k slot : Atom) :
    (es.erase k).find? slot = if k.canonical = slot then none else es.find? slot := by
  induction es with
  | nil => simp [erase, find?]
  | cons e es ih =>
    unfold erase at ih ⊢
    by_cases hkey : e.1.isKey k.canonical = true
    · rw [List.filter_cons_of_neg (by simpa using hkey), ih, find?]
      obtain ⟨heq, -⟩ := Atom.isKey_iff.mp hkey
      split
      · rfl
      · rw [if_neg]
        intro h
        exact absurd (heq.symm.trans (Atom.isKey_iff.mp h).1) ‹_›
    · rw [List.filter_cons_of_pos (by simpa using hkey), find?, find?, ih]
      by_cases hslot : k.canonical = slot
      · subst hslot
        rw [if_pos rfl, if_pos rfl, if_neg hkey]
      · rw [if_neg hslot, if_neg hslot]

theorem mem_of_find? {es : Entries} {key : Atom} {v : Term} (h : es.find? key = some v) :
    (key, v) ∈ es := by
  induction es with
  | nil => cases h
  | cons e es ih =>
    rw [find?] at h
    split at h
    case isTrue hkey =>
      obtain ⟨rfl, -⟩ := Atom.isKey_iff.mp hkey
      cases h
      exact List.mem_cons_self
    case isFalse => exact List.mem_cons_of_mem _ (ih h)

theorem keys_put_of_mem {es : Entries} {key : Atom} (hnum : key.isNaN = false)
    (h : key ∈ es.map Prod.fst) (v : Term) : (es.put key v).map Prod.fst = es.map Prod.fst := by
  induction es with
  | nil => cases h
  | cons e es ih =>
    unfold put
    split
    · rfl
    · have hne : e.1 ≠ key := by
        rintro rfl
        exact absurd (Atom.isKey_iff.mpr ⟨rfl, hnum⟩) ‹_›
      rw [List.map_cons, List.map_cons, ih ((List.mem_cons.mp h).resolve_left hne.symm)]

namespace Proper

variable {es : Entries}

theorem nil : Proper [] := ⟨.nil, nofun, nofun⟩

/-- A key is found exactly where it is entered. -/
theorem find?_eq_some_iff (h : es.Proper) {key : Atom} {v : Term} :
    es.find? key = some v ↔ (key, v) ∈ es := by
  refine ⟨mem_of_find?, fun hmem => ?_⟩
  have hnum := h.noNaN key (List.mem_map_of_mem hmem)
  have hdistinct := h.distinct
  clear h
  induction es with
  | nil => cases hmem
  | cons e es ih =>
    rw [List.map_cons, List.nodup_cons] at hdistinct
    rw [find?]
    rcases List.mem_cons.mp hmem with rfl | hmem
    · rw [if_pos (Atom.isKey_iff.mpr ⟨rfl, hnum⟩)]
    · rw [if_neg, ih hmem hdistinct.2]
      intro hkey
      rw [(Atom.isKey_iff.mp hkey).1] at hdistinct
      exact hdistinct.1 (List.mem_map.mpr ⟨_, hmem, rfl⟩)

theorem find?_isSome_iff (h : es.Proper) {key : Atom} :
    (es.find? key).isSome = true ↔ key ∈ es.map Prod.fst := by
  simp [Option.isSome_iff_exists, h.find?_eq_some_iff]

theorem insert (h : es.Proper) {k : Atom} (hnum : k.isNaN = false) (v : Term) :
    (es.insert k v).Proper := by
  have hslot := Atom.isNaN_canonical hnum
  unfold Entries.insert
  by_cases hmem : k.canonical ∈ es.map Prod.fst
  · have hkeys := keys_put_of_mem hslot hmem v
    exact ⟨hkeys ▸ h.distinct, hkeys ▸ h.canonical, hkeys ▸ h.noNaN⟩
  · have hkeys : (es.put k.canonical v).map Prod.fst = es.map Prod.fst ++ [k.canonical] := by
      rw [put_of_new hmem, List.map_append]
      rfl
    refine ⟨?_, ?_, ?_⟩
    · rw [hkeys]
      exact List.nodup_append.mpr ⟨h.distinct, List.nodup_singleton _, by
        rintro a ha b hb rfl
        exact hmem (List.mem_singleton.mp hb ▸ ha)⟩
    · rw [hkeys]
      exact List.forall_mem_append.mpr ⟨h.canonical, by simp [Atom.canonical_canonical]⟩
    · rw [hkeys]
      exact List.forall_mem_append.mpr ⟨h.noNaN, by simp [hslot]⟩

theorem erase (h : es.Proper) (k : Atom) : (es.erase k).Proper := by
  have hsub : ((es.erase k).map Prod.fst).Sublist (es.map Prod.fst) := List.filter_sublist.map _
  exact ⟨h.distinct.sublist hsub, fun a ha => h.canonical a (hsub.subset ha),
    fun a ha => h.noNaN a (hsub.subset ha)⟩

end Proper

/-! ## Histories -/

section

variable {history : List Edit} (hnum : ∀ k v, .write k v ∈ history → k.isNaN = false)

include hnum

theorem after_proper : (after history).Proper := by
  induction history with
  | nil => exact .nil
  | cons e earlier ih =>
    have hes := ih fun k v h => hnum k v (List.mem_cons_of_mem _ h)
    cases e with
    | write k v => exact hes.insert (hnum k v List.mem_cons_self) v
    | remove k => exact hes.erase k

/-- Looking up finds what the latest edit has left. -/
theorem find?_after (slot : Atom) : (after history).find? slot = latest history slot := by
  induction history with
  | nil => rfl
  | cons e earlier ih =>
    rw [← List.singleton_append] at hnum
    have hearlier := ih fun k v h => hnum k v (List.mem_append_right _ h)
    cases e with
    | write k v =>
      have hslot := Atom.isNaN_canonical (hnum k v List.mem_cons_self)
      refine (find?_put (after earlier) k.canonical slot v).trans ?_
      simp only [latest, hearlier, Atom.isKey_iff, hslot, and_true]
    | remove k =>
      refine (find?_erase (after earlier) k slot).trans ?_
      rw [latest, hearlier]

end

theorem after_append (edits history : List Edit) :
    after (edits.reverse ++ history) = edits.foldl change (after history) := by
  rw [after, List.foldr_append, List.foldr_reverse]
  rfl

end Entries

theorem lastWritten_cons {e : Edit} {earlier : List Edit} {slot : Atom} {v : Term} :
    LastWritten (e :: earlier) slot v ↔
      (∃ k, e = .write k v ∧ k.canonical = slot) ∨ e.slot ≠ slot ∧ LastWritten earlier slot v := by
  constructor
  · rintro ⟨later, k, before, hsplit, hk, hlater⟩
    cases later with
    | nil =>
      cases hsplit
      exact .inl ⟨k, rfl, hk⟩
    | cons e' later =>
      obtain ⟨rfl, rfl⟩ := List.cons.inj hsplit
      obtain ⟨he, hlater⟩ := List.forall_mem_cons.mp hlater
      exact .inr ⟨he, later, k, before, rfl, hk, hlater⟩
  · rintro (⟨k, rfl, hk⟩ | ⟨he, later, k, before, rfl, hk, hlater⟩)
    · exact ⟨[], k, earlier, rfl, hk, List.forall_mem_nil _⟩
    · exact ⟨e :: later, k, before, rfl, hk, List.forall_mem_cons.mpr ⟨he, hlater⟩⟩

theorem latest_eq_some_iff {history : List Edit} {slot : Atom} {v : Term} :
    latest history slot = some v ↔ LastWritten history slot v := by
  induction history with
  | nil => simp [latest, LastWritten]
  | cons e earlier ih =>
    rw [lastWritten_cons, ← ih]
    cases e with
    | write k w => by_cases hk : k.canonical = slot <;> simp [latest, Edit.slot, hk]
    | remove k => by_cases hk : k.canonical = slot <;> simp [latest, Edit.slot, hk]

/-! ## Calls -/

namespace Collection

/-- Arguments of which no two are left. -/
theorem unpaired {args : List Term} (h : ∀ k v kvs, args = k :: v :: kvs → False) :
    writes args = [] ∧ keyArguments args = [] := by
  match args with
  | [] => exact ⟨rfl, rfl⟩
  | [k] => cases k <;> exact ⟨rfl, rfl⟩
  | k :: v :: kvs => exact (h k v kvs rfl).elim

theorem insertPairs_eq_ok {who : String} {es es' : Entries} {args : List Term}
    (h : insertPairs who es args = .ok es') : es' = (writes args).foldl Entries.change es := by
  fun_induction insertPairs who es args with
  | case1 es k v kvs ih =>
    cases k with
    | atom a => exact ih a h
    | _ => cases h
  | case2 args es hargs =>
    cases h
    rw [(unpaired hargs).1]
    rfl

theorem insertPairs_error_iff {who : String} {es : Entries} {args : List Term} :
    (∃ e, insertPairs who es args = .error e) ↔ ∃ k ∈ keyArguments args, k.Unhashable := by
  fun_induction insertPairs who es args with
  | case1 es k v kvs ih =>
    rw [keyArguments, List.exists_mem_cons_iff, Term.unhashable_iff]
    cases k with
    | atom a => exact (ih a).trans (by simp)
    | _ => exact iff_of_true ⟨_, rfl⟩ (.inl (by simp))
  | case2 args es hargs => simp [(unpaired hargs).2]

def enterPairs (who : String) (wrong : Bool) (c : Complaint) (es : Entries) (args : List Term) :
    Result Term :=
  if wrong then Arguments.complain c else (insertPairs who es args).map .dict

section

variable {who : String} {wrong : Bool} {c : Complaint} {es : Entries} {args : List Term}

theorem enterPairs_eq_ok {r : Term} (h : enterPairs who wrong c es args = .ok r) :
    r = .dict ((writes args).foldl Entries.change es) := by
  unfold enterPairs at h
  split at h
  · cases h
  · cases hpairs : insertPairs who es args with
    | error e =>
      rw [hpairs] at h
      cases h
    | ok es' =>
      rw [hpairs] at h
      cases h
      exact congrArg Term.dict (insertPairs_eq_ok hpairs)

theorem enterPairs_error_iff : (∃ e, enterPairs who wrong c es args = .error e) ↔
    wrong = true ∨ ∃ k ∈ keyArguments args, k.Unhashable := by
  have hpairs : (∃ e, insertPairs who es args = .error e) ↔ _ := insertPairs_error_iff
  rw [← hpairs]
  unfold enterPairs
  cases wrong with
  | true => exact iff_of_true ⟨_, rfl⟩ (.inl rfl)
  | false => cases insertPairs who es args <;> simp [Except.map]

end

theorem assoc_dict (es : Entries) (args : List Term) : assoc (.dict es :: args) =
    enterPairs "assoc" (args.isEmpty || args.length % 2 == 1) .noPairs es args := by
  match args with
  | [] => rfl
  | [_] => rfl
  | k :: v :: kvs =>
    have hlength : (k :: v :: kvs).length % 2 = kvs.length % 2 := Nat.add_mod_right _ 2
    simp only [enterPairs, hlength, List.isEmpty_cons, Bool.false_or]
    rfl

theorem dissoc_dict (es : Entries) (ks : List Term) :
    dissoc (.dict es :: ks) = .ok (.dict ((removals ks).foldl Entries.change es)) := by
  induction ks generalizing es with
  | nil => rfl
  | cons k ks ih =>
    cases k with
    | atom k => exact ih (es.erase k)
    | _ => exact ih es

end Collection

/-! ## Dicts that programs make -/

namespace Made

variable {history : List Edit} {es : Entries}

theorem noNaN (h : Made history es) {k : Atom} {v : Term} (hmem : .write k v ∈ history) :
    k.isNaN = false := by
  have hremovals (ks : List Term) : .write k v ∉ removals ks := by
    fun_induction removals ks <;> simp_all
  induction h with
  | hashMap hnum _ => exact hnum k v (List.mem_reverse.mp hmem)
  | assoc _ hnum _ ih =>
    rcases List.mem_append.mp hmem with hmem | hmem
    · exact hnum k v (List.mem_reverse.mp hmem)
    · exact ih hmem
  | dissoc _ _ ih =>
    rcases List.mem_append.mp hmem with hmem | hmem
    · exact absurd (List.mem_reverse.mp hmem) (hremovals _)
    · exact ih hmem

theorem eq_after (h : Made history es) : es = .after history := by
  induction h with
  | @hashMap args es _ h =>
    have hpairs := Entries.after_append (writes args) []
    rw [List.append_nil] at hpairs
    rw [hpairs]
    exact Term.dict.inj (Collection.enterPairs_eq_ok h)
  | assoc _ _ h ih =>
    rw [Entries.after_append, ← ih]
    exact Term.dict.inj
      (Collection.enterPairs_eq_ok ((Collection.assoc_dict _ _).symm.trans h))
  | dissoc _ h ih =>
    rw [Entries.after_append, ← ih]
    have hdict := (Collection.dissoc_dict _ _).symm.trans h
    cases hdict
    rfl

theorem proper (h : Made history es) : es.Proper :=
  h.eq_after ▸ Entries.after_proper fun _ _ => h.noNaN

theorem find?_eq (h : Made history es) (slot : Atom) : es.find? slot = latest history slot := by
  rw [h.eq_after]
  exact Entries.find?_after (fun _ _ => h.noNaN) slot

/-- There are as many entries as representatives at which a value was left. -/
theorem length_eq (h : Made history es) :
    es.length = {slot | (latest history slot).isSome = true}.ncard := by
  have hkeys : {slot | (latest history slot).isSome = true} =
      ((es.map Prod.fst).toFinset : Set Atom) := by
    ext slot
    rw [Set.mem_ofPred_eq, ← h.find?_eq, h.proper.find?_isSome_iff, Finset.mem_coe,
      List.mem_toFinset]
  rw [hkeys, Set.ncard_coe_finset, List.toFinset_card_of_nodup h.proper.distinct, List.length_map]

end Made

/-- What the latest of the edits has left at a term; nothing if that cannot be a key. -/
def latestAt (history : List Edit) : Term → Option Term
  | .atom k => latest history k.canonical
  | _ => none

theorem Made.valueAt_eq {history : List Edit} {es : Entries} (h : Made history es) (k : Term) :
    Collection.valueAt es k = latestAt history k := by
  cases k with
  | atom k => exact h.find?_eq k.canonical
  | _ => rfl

/-- A dict that programs have made has distinct representatives for keys, and at each the value that
the latest pair written at a key of this representative has, unless such a key was removed later;
`get`, `contains?` and `count` tell just that. `hash-map` and `assoc` fail exactly if keys and values
are not paired or a key is a list, a dict or a function, which `dissoc` passes over; otherwise each
of the three makes a dict of the same kind, with its edits added to the history. -/
theorem dicts_are_finite_maps {history : List Edit} {es : Entries} (h : Made history es) :
    ((es.map Prod.fst).Nodup ∧ ∀ k ∈ es.map Prod.fst, k.canonical = k) ∧
    (∀ slot v, latest history slot = some v ↔ LastWritten history slot v) ∧
    (∀ k default,
      Primitive.get.call [.dict es, k, default] = .ok ((latestAt history k).getD default) ∧
      Primitive.get.call [.dict es, k] = .ok ((latestAt history k).getD .nil) ∧
      Primitive.hasKey.call [.dict es, k] = .ok (.bool (latestAt history k).isSome)) ∧
    Primitive.count.call [.dict es] =
      .ok (.int (Int64.ofNat {slot | (latest history slot).isSome = true}.ncard)) ∧
    (∀ args, (∃ e, Primitive.hashMap.call args = .error e) ↔
      args.length % 2 = 1 ∨ ∃ k ∈ keyArguments args, k.Unhashable) ∧
    (∀ args r, (∀ k v, .write k v ∈ writes args → k.isNaN = false) →
      Primitive.hashMap.call args = .ok r →
        ∃ es', r = .dict es' ∧ Made (writes args).reverse es') ∧
    (∀ args, (∃ e, Primitive.assoc.call (.dict es :: args) = .error e) ↔
      args = [] ∨ args.length % 2 = 1 ∨ ∃ k ∈ keyArguments args, k.Unhashable) ∧
    (∀ args r, (∀ k v, .write k v ∈ writes args → k.isNaN = false) →
      Primitive.assoc.call (.dict es :: args) = .ok r →
        ∃ es', r = .dict es' ∧ Made ((writes args).reverse ++ history) es') ∧
    ∀ ks, ∃ es', Primitive.dissoc.call (.dict es :: ks) = .ok (.dict es') ∧
      Made ((removals ks).reverse ++ history) es' := by
  refine ⟨⟨h.proper.distinct, h.proper.canonical⟩, fun _ _ => latest_eq_some_iff,
    ?_, ?_, ?_, ?_, ?_, ?_, ?_⟩
  · intro k default
    rw [← h.valueAt_eq]
    exact ⟨rfl, rfl, rfl⟩
  · rw [← h.length_eq]
    rfl
  · intro args
    refine Collection.enterPairs_error_iff.trans (or_congr_left ?_)
    exact beq_iff_eq
  · intro args r hnum hcall
    obtain rfl := Collection.enterPairs_eq_ok hcall
    exact ⟨_, rfl, .hashMap hnum hcall⟩
  · intro args
    have hassoc := Collection.assoc_dict es args
    rw [show Primitive.assoc.call = Collection.assoc from rfl, hassoc,
      Collection.enterPairs_error_iff]
    simp [or_assoc]
  · intro args r hnum hcall
    obtain rfl := Collection.enterPairs_eq_ok ((Collection.assoc_dict es args).symm.trans hcall)
    exact ⟨_, rfl, .assoc h hnum hcall⟩
  · intro ks
    exact ⟨_, Collection.dissoc_dict es ks, .dissoc h (Collection.dissoc_dict es ks)⟩

def floatOne : Float := Float.ofBits 0x3FF0000000000000

/-- A value entered at the whole number 1 and replaced at the float, with a key beside it that is
removed again. -/
theorem replacedAtFloat_found :
    let a := Term.keyword (Bytes.ofString "a")
    let b := Term.keyword (Bytes.ofString "b")
    let history := [Edit.remove .nil, .write .nil a, .write (.float floatOne) b, .write (.int 1) a]
    Made history [(.int 1, b)] ∧
      Primitive.get.call [.dict [(.int 1, b)], .float floatOne] = .ok b ∧
      Primitive.hasKey.call [.dict [(.int 1, b)], .nil] = .ok (.bool false) := by
  intro a b history
  have hone : (Atom.float floatOne).canonical = .int 1 := by decide +kernel
  have hint : (Atom.int 1).canonical = .int 1 := rfl
  have hnil : Atom.nil.canonical = .nil := rfl
  have hnum : (Atom.float floatOne).isNaN = false := by decide +kernel
  have hmade : Made history [(.int 1, b)] := by
    have hmap : Primitive.hashMap.call [.int 1, a] = .ok (.dict [(.int 1, a)]) := by
      simp [Primitive.call, Collection.hashMap, Collection.insertPairs, Arguments.key, bind,
        Except.bind, Except.map, Entries.insert, Entries.put, hint]
    have hassoc : Primitive.assoc.call [.dict [(.int 1, a)], .float floatOne, b, .nil, a] =
        .ok (.dict [(.int 1, b), (.nil, a)]) := by
      simp [Primitive.call, Collection.assoc_dict, Collection.enterPairs, Collection.insertPairs,
        Arguments.key, bind, Except.bind, Except.map, Entries.insert, Entries.put, hone, hnil,
        Atom.isKey, Atom.isNaN]
    have hremove : Primitive.dissoc.call [.dict [(.int 1, b), (.nil, a)], .nil] =
        .ok (.dict [(.int 1, b)]) := rfl
    refine .dissoc (.assoc (.hashMap ?_ hmap) ?_ hassoc) hremove
    · intro k v h
      obtain ⟨rfl, -⟩ : k = .int 1 ∧ v = a := by simpa [writes] using h
      rfl
    · intro k v h
      simp only [writes, List.mem_cons, Edit.write.injEq, List.not_mem_nil, or_false] at h
      rcases h with ⟨rfl, -⟩ | ⟨rfl, -⟩
      · exact hnum
      · rfl
  obtain ⟨-, -, hlookup, -⟩ := dicts_are_finite_maps hmade
  refine ⟨hmade, (hlookup (.float floatOne) .nil).2.1.trans ?_, (hlookup .nil .nil).2.2⟩
  simp [latestAt, latest, history, hone, hnil]

end SmallLisp

import SmallLisp.Proofs.FiniteMaps

/-! Equality of values. Without floats in them it is an equivalence, however lists and dicts are
nested (`Term.FloatFree`), though the test goes by the left value alone. So a call that compares
neighbours compares all of its arguments (`equality_equivalence`). -/
namespace SmallLisp

/-- A value in which no float occurs. As in any dict, keys occur once; what a function is made of does
not count, as functions are compared by identity. -/
inductive Term.FloatFree : Term → Prop
  | atom {a : Atom} (h : ∀ x, a ≠ .float x) : FloatFree (.atom a)
  | list {ts : List Term} (h : ∀ t ∈ ts, t.FloatFree) : FloatFree (.list ts)
  | dict {es : Entries} (hdistinct : (es.map Prod.fst).Nodup)
      (hkeys : ∀ k ∈ es.map Prod.fst, ∀ x, k ≠ .float x)
      (hvals : ∀ v ∈ es.map Prod.snd, v.FloatFree) : FloatFree (.dict es)
  | native (b : Builtin) : FloatFree (.native b)
  | closure (f : Closure Term) : FloatFree (.closure f)

theorem Atom.same_iff_eq {a b : Atom} (ha : ∀ x, a ≠ .float x) (hb : ∀ x, b ≠ .float x) :
    a.same b = true ↔ a = b := by
  cases a with
  | float x => exact absurd rfl (ha x)
  | _ =>
    cases b with
    | float y => exact absurd rfl (hb y)
    | _ => simp [same]

namespace Term.FloatFree

theorem of_list {ts : List Term} (h : (Term.list ts).FloatFree) {t : Term} (ht : t ∈ ts) :
    t.FloatFree := by
  cases h with
  | list h => exact h t ht

theorem of_dict {es : Entries} (h : (Term.dict es).FloatFree) {k : Atom} {v : Term}
    (he : (k, v) ∈ es) : v.FloatFree := by
  cases h with
  | dict _ _ hvals => exact hvals v (List.mem_map_of_mem he)

/-- What is no float is its own representative. -/
theorem proper {es : Entries} (h : (Term.dict es).FloatFree) : es.Proper := by
  cases h with
  | dict hdistinct hkeys _ =>
    refine ⟨hdistinct, fun k hk => ?_, fun k hk => ?_⟩
    · cases k with
      | float x => exact absurd rfl (hkeys _ hk x)
      | _ => rfl
    · cases k with
      | float x => exact absurd rfl (hkeys _ hk x)
      | _ => rfl

end Term.FloatFree

/-! ## What equal values have in common -/

section

variable {α : Type} {r : α → α → Prop} {o o' o'' : Option α}

theorem optionRel_symm (h : Option.Rel r o o')
    (hsymm : ∀ x, o = some x → ∀ y, o' = some y → r x y → r y x) : Option.Rel r o' o := by
  cases h with
  | none => exact .none
  | some h => exact .some (hsymm _ rfl _ rfl h)

theorem optionRel_trans (h : Option.Rel r o o') (h' : Option.Rel r o' o'')
    (htrans : ∀ x, o = some x → ∀ y, o' = some y → ∀ z, o'' = some z → r x y → r y z → r x z) :
    Option.Rel r o o'' := by
  cases h with
  | none => exact h'
  | some h =>
    cases h' with
    | some h' => exact .some (htrans _ rfl _ rfl _ rfl h h')

end

theorem sameAll_iff {xs ys : List Term} :
    sameAll xs ys = true ↔ List.Forall₂ (fun x y => x.same y = true) xs ys := by
  induction xs generalizing ys with
  | nil => cases ys <;> simp [sameAll]
  | cons x xs ih => cases ys <;> simp [sameAll, ih]

theorem sameEntries_iff {es ys : Entries} :
    sameEntries es ys = true ↔ ∀ e ∈ es, ∃ w, ys.find? e.1 = some w ∧ e.2.same w = true := by
  induction es with
  | nil => simp [sameEntries]
  | cons e es ih =>
    obtain ⟨k, v⟩ := e
    rw [sameEntries, Bool.and_eq_true, ih, List.forall_mem_cons]
    cases Entries.find? ys k <;> simp

/-- A dict whose keys are all in another of the same size has the keys of the other. -/
theorem Entries.Proper.mem_keys_iff {xs ys : Entries} (h : xs.Proper)
    (hlength : xs.length = ys.length) (hsub : xs.map Prod.fst ⊆ ys.map Prod.fst) (k : Atom) :
    k ∈ xs.map Prod.fst ↔ k ∈ ys.map Prod.fst := by
  have hperm := (h.distinct.subperm hsub).perm_of_length_le (by simp [hlength])
  exact hperm.mem_iff

namespace Term

theorem same_atom_iff {a : Atom} {u : Term} :
    (Term.atom a).same u = true ↔ ∃ b, u = .atom b ∧ a.same b = true := by
  cases u <;> simp [same]

theorem same_list_iff {xs : List Term} {u : Term} : (Term.list xs).same u = true ↔
    ∃ ys, u = .list ys ∧ List.Forall₂ (fun x y => x.same y = true) xs ys := by
  cases u <;> simp [same, sameAll_iff]

theorem same_native_iff {b : Builtin} {u : Term} :
    (Term.native b).same u = true ↔ Term.native b = u := by
  cases u <;> simp [same]

theorem same_closure_iff {f : Closure Term} {u : Term} :
    (Term.closure f).same u = true ↔ ∃ g, u = .closure g ∧ f.id = g.id := by
  cases u <;> simp [same]

/-- Dicts are equal if they have the same keys, with equal values. -/
theorem same_dicts_iff {xs ys : Entries} (hxs : xs.Proper) (hys : ys.Proper) :
    (Term.dict xs).same (.dict ys) = true ↔ xs.length = ys.length ∧
      ∀ k, Option.Rel (fun v w => v.same w = true) (xs.find? k) (ys.find? k) := by
  rw [same, Bool.and_eq_true, beq_iff_eq, sameEntries_iff]
  refine and_congr_right fun hlength => ⟨fun h k => ?_, fun h e he => ?_⟩
  -- the keys of the first are keys of the second, which has no more of them
  · have hsub : xs.map Prod.fst ⊆ ys.map Prod.fst := by
      intro k hk
      obtain ⟨e, he, rfl⟩ := List.mem_map.mp hk
      obtain ⟨w, hw, -⟩ := h e he
      exact hys.find?_isSome_iff.mp (Option.isSome_of_eq_some hw)
    have hkeys := hxs.mem_keys_iff hlength hsub k
    rw [← hxs.find?_isSome_iff, ← hys.find?_isSome_iff] at hkeys
    cases hfind : xs.find? k with
    | none =>
      have hnone : ys.find? k = none := by simpa [hfind] using hkeys
      rw [hnone]
      exact .none
    | some v =>
      obtain ⟨w, hw, hsame⟩ := h (k, v) (hxs.find?_eq_some_iff.mp hfind)
      rw [hw]
      exact .some hsame
  · have hrel := h e.1
    rw [hxs.find?_eq_some_iff.mpr he] at hrel
    cases hfind : ys.find? e.1 with
    | none => rw [hfind] at hrel; cases hrel
    | some w =>
      rw [hfind] at hrel
      cases hrel with
      | some hsame => exact ⟨w, rfl, hsame⟩

theorem same_dict_cases {xs : Entries} {u : Term} (h : (Term.dict xs).same u = true) :
    ∃ ys, u = .dict ys := by
  cases u <;> simp_all [same]

/-! ## The equivalence -/

theorem same_refl {t : Term} (ht : t.FloatFree) : t.same t = true := by
  induction ht with
  | @atom a ha => exact same_atom_iff.mpr ⟨a, rfl, (Atom.same_iff_eq ha ha).mpr rfl⟩
  | @list ts _ ih => exact same_list_iff.mpr ⟨ts, rfl, List.forall₂_same.mpr ih⟩
  | @dict es hdistinct hkeys hvals ih =>
    have hes := (FloatFree.dict hdistinct hkeys hvals).proper
    refine (same_dicts_iff hes hes).mpr ⟨rfl, fun k => ?_⟩
    cases hfind : es.find? k with
    | none => exact .none
    | some v => exact .some (ih v (List.mem_map_of_mem (hes.find?_eq_some_iff.mp hfind)))
  | native b => exact same_native_iff.mpr rfl
  | closure f => exact same_closure_iff.mpr ⟨f, rfl, rfl⟩

theorem same_symm {t u : Term} (ht : t.FloatFree) (hu : u.FloatFree) (h : t.same u = true) :
    u.same t = true := by
  induction ht generalizing u with
  | @atom a ha =>
    obtain ⟨b, rfl, hab⟩ := same_atom_iff.mp h
    cases hu with
    | atom hb => exact same_atom_iff.mpr ⟨a, rfl, (Atom.same_iff_eq hb ha).mpr
        ((Atom.same_iff_eq ha hb).mp hab).symm⟩
  | @list xs _ ih =>
    obtain ⟨ys, rfl, hall⟩ := same_list_iff.mp h
    obtain ⟨hlength, hat⟩ := List.forall₂_iff_get.mp hall
    refine same_list_iff.mpr ⟨xs, rfl, List.forall₂_iff_get.mpr ⟨hlength.symm, fun i hi hi' => ?_⟩⟩
    exact ih _ (List.get_mem _ _) (hu.of_list (List.get_mem _ _)) (hat i hi' hi)
  | @dict xs hdistinct hkeys hvals ih =>
    obtain ⟨ys, rfl⟩ := same_dict_cases h
    have hxs := (FloatFree.dict hdistinct hkeys hvals).proper
    obtain ⟨hlength, hat⟩ := (same_dicts_iff hxs hu.proper).mp h
    refine (same_dicts_iff hu.proper hxs).mpr ⟨hlength.symm, fun k => ?_⟩
    refine optionRel_symm (hat k) fun v hv w hw hvw => ?_
    have hv : v ∈ xs.map Prod.snd := List.mem_map_of_mem (hxs.find?_eq_some_iff.mp hv)
    exact ih v hv (hu.of_dict (hu.proper.find?_eq_some_iff.mp hw)) hvw
  | native b =>
    obtain rfl := same_native_iff.mp h
    exact h
  | closure f =>
    obtain ⟨g, rfl, hid⟩ := same_closure_iff.mp h
    exact same_closure_iff.mpr ⟨f, rfl, hid.symm⟩

theorem same_trans {t u v : Term} (ht : t.FloatFree) (hu : u.FloatFree) (hv : v.FloatFree)
    (htu : t.same u = true) (huv : u.same v = true) : t.same v = true := by
  induction ht generalizing u v with
  | @atom a ha =>
    obtain ⟨b, rfl, hab⟩ := same_atom_iff.mp htu
    cases hu with
    | atom hb =>
      rw [(Atom.same_iff_eq ha hb).mp hab]
      exact huv
  | @list xs _ ih =>
    obtain ⟨ys, rfl, hxy⟩ := same_list_iff.mp htu
    obtain ⟨zs, rfl, hyz⟩ := same_list_iff.mp huv
    obtain ⟨hlength, hxy⟩ := List.forall₂_iff_get.mp hxy
    obtain ⟨hlength', hyz⟩ := List.forall₂_iff_get.mp hyz
    refine same_list_iff.mpr ⟨zs, rfl, List.forall₂_iff_get.mpr
      ⟨hlength.trans hlength', fun i hi hi' => ?_⟩⟩
    have hmid : i < ys.length := hlength ▸ hi
    exact ih _ (List.get_mem _ _) (hu.of_list (List.get_mem _ ⟨i, hmid⟩))
      (hv.of_list (List.get_mem _ _)) (hxy i hi hmid) (hyz i hmid hi')
  | @dict xs hdistinct hkeys hvals ih =>
    obtain ⟨ys, rfl⟩ := same_dict_cases htu
    obtain ⟨zs, rfl⟩ := same_dict_cases huv
    have hxs := (FloatFree.dict hdistinct hkeys hvals).proper
    obtain ⟨hlength, hxy⟩ := (same_dicts_iff hxs hu.proper).mp htu
    obtain ⟨hlength', hyz⟩ := (same_dicts_iff hu.proper hv.proper).mp huv
    refine (same_dicts_iff hxs hv.proper).mpr ⟨hlength.trans hlength', fun k => ?_⟩
    refine optionRel_trans (hxy k) (hyz k) fun x hx y hy z hz => ?_
    exact ih x (List.mem_map_of_mem (hxs.find?_eq_some_iff.mp hx))
      (hu.of_dict (hu.proper.find?_eq_some_iff.mp hy))
      (hv.of_dict (hv.proper.find?_eq_some_iff.mp hz))
  | native b =>
    obtain rfl := same_native_iff.mp htu
    exact huv
  | closure f =>
    obtain ⟨g, rfl, hfg⟩ := same_closure_iff.mp htu
    obtain ⟨k, rfl, hgk⟩ := same_closure_iff.mp huv
    exact same_closure_iff.mpr ⟨k, rfl, hfg.trans hgk⟩

end Term

/-! ## Comparing neighbours -/

namespace Collection

theorem equal_chain {args : List Term} (hlength : 2 ≤ args.length) :
    ∃ b, equal args = .ok (.bool b) ∧ (b = true ↔ args.IsChain fun t u => t.same u = true) := by
  induction args with
  | nil => simp at hlength
  | cons t us ih =>
    cases us with
    | nil => simp at hlength
    | cons u ts =>
      cases ts with
      | nil => exact ⟨t.same u, equal_pair t u, by simp⟩
      | cons v ts =>
        obtain ⟨b, hb, hchain⟩ := ih (by simp)
        refine ⟨t.same u && b, ?_, ?_⟩
        · cases hb
          rfl
        · refine Iff.trans ?_ List.isChain_cons_cons.symm
          rw [Bool.and_eq_true, hchain]

/-- If neighbours are equal, so are any two. -/
theorem chain_iff {ts : List Term} (hfree : ∀ t ∈ ts, t.FloatFree) :
    (ts.IsChain fun t u => t.same u = true) ↔ ∀ t ∈ ts, ∀ u ∈ ts, t.same u = true := by
  refine ⟨fun h => ?_, fun h => (List.pairwise_of_forall_mem_list h).isChain⟩
  induction ts with
  | nil => simp
  | cons t ts ih =>
    obtain ⟨ht, hts⟩ := List.forall_mem_cons.mp hfree
    have hrest := ih hts h.tail
    have hfirst : ∀ u ∈ ts, t.same u = true := by
      cases ts with
      | nil => simp
      | cons u ts =>
        have htu : t.same u = true := (List.isChain_cons_cons.mp h).1
        intro v hv
        exact Term.same_trans ht (hts u List.mem_cons_self) (hts v hv) htu
          (hrest u List.mem_cons_self v hv)
    intro v hmem w hmem'
    rcases List.mem_cons.mp hmem with rfl | hv
    · rcases List.mem_cons.mp hmem' with rfl | hw
      · exact Term.same_refl ht
      · exact hfirst w hw
    · rcases List.mem_cons.mp hmem' with rfl | hw
      · exact Term.same_symm ht (hts v hv) (hfirst v hv)
      · exact hrest v hv w hw

end Collection

/-- Among values without floats equality is an equivalence. Equal lists are as long, with equal
elements in the same places; equal dicts have the same keys, with equal values. So arguments of which
neighbours are equal are all equal to each other, and `!=` is the negation of `==` for two. -/
theorem equality_equivalence {args : List Term} (hlength : 2 ≤ args.length)
    (hfree : ∀ t ∈ args, t.FloatFree) :
    Equivalence (fun t u : {t : Term // t.FloatFree} => t.1.same u.1 = true) ∧
    (∀ xs ys : List Term, (Term.list xs).same (.list ys) = true ↔ xs.length = ys.length ∧
      ∀ i (hi : i < xs.length) (hi' : i < ys.length), xs[i].same ys[i] = true) ∧
    (∀ xs ys : Entries, (Term.dict xs).FloatFree → (Term.dict ys).FloatFree →
      ((Term.dict xs).same (.dict ys) = true ↔ xs.length = ys.length ∧
        ∀ k, Option.Rel (fun v w => v.same w = true) (xs.find? k) (ys.find? k))) ∧
    (∃ b, Primitive.equal.call args = .ok (.bool b) ∧
      (b = true ↔ ∀ t ∈ args, ∀ u ∈ args, t.same u = true)) ∧
    ∀ t u, ∃ b, Primitive.equal.call [t, u] = .ok (.bool b) ∧
      Primitive.differ.call [t, u] = .ok (.bool !b) := by
  refine ⟨⟨?_, ?_, ?_⟩, fun xs ys => ?_, ?_, ?_, ?_⟩
  · exact fun t => Term.same_refl t.2
  · exact fun {t u} => Term.same_symm t.2 u.2
  · exact fun {t u v} => Term.same_trans t.2 u.2 v.2
  · rw [Term.same, sameAll_iff]
    exact List.forall₂_iff_get
  · exact fun xs ys hxs hys => Term.same_dicts_iff hxs.proper hys.proper
  · obtain ⟨b, hb, hchain⟩ := Collection.equal_chain hlength
    exact ⟨b, hb, hchain.trans (Collection.chain_iff hfree)⟩
  · exact fun t u => ⟨t.same u, equal_pair t u, rfl⟩

def nested (es : Entries) : Term := .list [.list [.int 1, .nil], .dict [(.string [97], .dict es)]]

theorem Term.FloatFree.nested {es : Entries} (h : (Term.dict es).FloatFree) :
    (nested es).FloatFree := by
  have hlist : (Term.list [.int 1, .nil]).FloatFree := by
    refine .list fun t ht => ?_
    rcases List.mem_pair.mp ht with rfl | rfl <;> exact .atom nofun
  have hdict : (Term.dict [(.string [97], .dict es)]).FloatFree :=
    .dict (by simp) (by simp) (by simpa using h)
  refine .list fun t ht => ?_
  rcases List.mem_pair.mp ht with rfl | rfl
  · exact hlist
  · exact hdict

/-- Three such values, in the second of which the innermost entries are the other way round. -/
theorem nested_all_equal :
    let es : Entries := [(.keyword [98], .list [.int 2]), (.nil, .native (.primitive .list))]
    let args := [nested es, nested es.reverse, nested es]
    2 ≤ args.length ∧ (∀ t ∈ args, t.FloatFree) ∧
      Primitive.equal.call args = .ok (.bool true) ∧ ∀ t ∈ args, ∀ u ∈ args, t.same u = true := by
  intro es args
  have hvals : ∀ v ∈ es.map Prod.snd, v.FloatFree := by
    intro v hv
    rcases List.mem_pair.mp hv with rfl | rfl
    · exact .list fun t ht => List.mem_singleton.mp ht ▸ .atom nofun
    · exact .native _
  have hes : (Term.dict es).FloatFree := .dict (by simp [es]) (by simp [es]) hvals
  have hreverse : (Term.dict es.reverse).FloatFree :=
    .dict (by simp [es]) (by simp [es]) (by simpa [es, or_comm] using hvals)
  have hfree : ∀ t ∈ args, t.FloatFree := by simp [args, hes.nested, hreverse.nested]
  have hlength : 2 ≤ args.length := by decide
  obtain ⟨-, -, -, ⟨b, hb, hall⟩, -⟩ := equality_equivalence hlength hfree
  have hequal : Primitive.equal.call args = .ok (.bool true) := rfl
  cases hequal.symm.trans hb
  exact ⟨hlength, hfree, hequal, hall.mp rfl⟩

end SmallLisp

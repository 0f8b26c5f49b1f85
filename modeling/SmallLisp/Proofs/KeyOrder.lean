import SmallLisp.Proofs.FiniteMaps
import SmallLisp.Proofs.PrintedData

/-! The order in which keys are listed. Every key has a position in a linear order, and the comparison
of different keys is that of their positions (`Atom.keyLess_iff`), so long as no two whole numbers
become one float. So listing the keys of a dict sorts them, and forgets the order in which they were
entered (`key_order_determined`). -/
namespace SmallLisp

open Scaled

namespace Scaled

theorem less_iff {x y : Float} (hx : x.isNaN = false) (hy : y.isNaN = false) :
    less x y = true ↔ units x < units y := by
  simp only [less, units?, hx, hy, Bool.false_eq_true, if_false, decide_eq_true_eq]

/-- Only zero has the value zero as a float. -/
theorem eq_zero_of_units_ofInt {n : Int} (hn : n.natAbs ≤ 2 ^ 63) (h : units (ofInt n) = 0) :
    n = 0 := by
  have hlt := nearestBits_mul_one_lt hn
  have hinf : infinityBits < 2 ^ 63 := by decide
  have hmagnitude : magnitude (nearestBits (n.natAbs * one) 1) = 0 := by
    rw [units_ofInt hn] at h
    split at h <;> omega
  have hbits := nearestBits_magnitude (b := nearestBits (n.natAbs * one) 1) (by omega)
  obtain ⟨up, -, -, hone⟩ := nearestBits_one (n.natAbs * one)
  have hzero : nearestBits 0 1 = 0 := by decide
  rw [hmagnitude, hzero] at hbits
  rw [← hbits] at hone
  -- what is rounded to zero is so small that no bits of it are cut off
  have hlog : (n.natAbs * one).log2 - 52 = 0 := by omega
  have hsignificand : significand (n.natAbs * one) = 0 := by omega
  rw [significand, hlog, Nat.pow_zero, Nat.div_one] at hsignificand
  have := (Nat.mul_eq_zero.mp hsignificand).resolve_right (Nat.ne_of_gt one_pos)
  omega

/-- Whole numbers of one value as floats become the same float. -/
theorem ofInt_eq_of_units_eq {m n : Int} (hm : m.natAbs ≤ 2 ^ 63) (hn : n.natAbs ≤ 2 ^ 63)
    (h : units (ofInt m) = units (ofInt n)) : ofInt m = ofInt n := by
  by_cases h0 : units (ofInt m) = 0
  · rw [eq_zero_of_units_ofInt hm h0, eq_zero_of_units_ofInt hn (h ▸ h0)]
  · exact eq_of_units_eq h h0

end Scaled

theorem Bytes.map_toNat_lt_iff (s t : Bytes) :
    s.map UInt8.toNat < t.map UInt8.toNat ↔ s < t := by
  induction s generalizing t with
  | nil => cases t <;> simp
  | cons b s ih =>
    cases t with
    | nil => simp
    | cons c t => simp [List.cons_lt_cons_iff, ih, UInt8.lt_iff_toNat_lt, UInt8.toNat_inj]

/-! ## Positions -/

/-- A place in the lexicographic order of groups, values, kinds of numbers, and bytes. -/
def place (group : Nat) (value : Int) (kind : Nat) (bytes : Bytes) : ℕ ×ₗ ℤ ×ₗ ℕ ×ₗ List ℕ :=
  toLex (group, toLex (value, toLex (kind, bytes.map UInt8.toNat)))

theorem place_lt_iff {g g' : Nat} {v v' : Int} {k k' : Nat} {s s' : Bytes} :
    place g v k s < place g' v' k' s' ↔
      g < g' ∨ g = g' ∧ (v < v' ∨ v = v' ∧ (k < k' ∨ k = k' ∧ s < s')) := by
  simp only [place, Prod.Lex.toLex_lt_toLex, Bytes.map_toNat_lt_iff]

theorem place_eq_iff {g g' : Nat} {v v' : Int} {k k' : Nat} {s s' : Bytes} :
    place g v k s = place g' v' k' s' ↔ g = g' ∧ v = v' ∧ k = k' ∧ s = s' := by
  have hinj : Function.Injective UInt8.toNat := fun _ _ => UInt8.toNat_inj.mp
  simp only [place, toLex_inj, Prod.mk.injEq, List.map_inj_right hinj]

namespace Atom

/-- Booleans count as 0 and 1, and numbers by their values as floats. -/
def value : Atom → Int
  | .bool b => b.toNat
  | .int n => units (ofInt n.toInt)
  | .float x => units x
  | _ => 0

def text : Atom → Bytes
  | .string s => s
  | .keyword name => name
  | .symbol name => name
  | _ => []

def position (a : Atom) : ℕ ×ₗ ℤ ×ₗ ℕ ×ₗ List ℕ :=
  place a.rank a.value (if a.isInt then 0 else 1) a.text

theorem numberLess_iff (a b : Atom) {x y : Float} (ha : a.toFloat? = some x)
    (hb : b.toFloat? = some y) (hx : x.isNaN = false) (hy : y.isNaN = false) :
    a.numberLess b = true ↔ units x < units y ∨ units x = units y ∧ a.isInt = true := by
  simp only [numberLess, ha, hb]
  split
  case isTrue h =>
    have := (same_iff hx hy).mp h
    simp [this]
  case isFalse h =>
    have := mt (same_iff hx hy).mpr h
    simp [this, less_iff hx hy]

/-- If both are whole numbers, they become different floats unless they are the same. -/
def Apart (a b : Atom) : Prop :=
  ∀ m n, a = .int m → b = .int n → ofInt m.toInt = ofInt n.toInt → m = n

theorem isNaN_ofInt64 (n : Int64) : (ofInt n.toInt).isNaN = false :=
  isNaN_ofInt (natAbs_toInt_le n)

theorem Apart.value_ne {m n : Int64} (h : (Atom.int m).Apart (.int n)) (hne : m ≠ n) :
    units (ofInt m.toInt) ≠ units (ofInt n.toInt) := fun hv =>
  hne (h m n rfl rfl (ofInt_eq_of_units_eq (natAbs_toInt_le m) (natAbs_toInt_le n) hv))

/-- Different keys are compared by their positions. -/
theorem keyLess_iff {a b : Atom} (hne : a ≠ b) (ha : a.isNaN = false) (hb : b.isNaN = false)
    (hapart : a.Apart b) : a.keyLess b = true ↔ a.position < b.position := by
  rw [position, position, place_lt_iff]
  unfold keyLess
  by_cases hrank : a.rank = b.rank
  case neg => simp [hrank]
  case pos =>
    simp only [hrank, bne_self_eq_false, Bool.false_eq_true, if_false, lt_irrefl, false_or,
      true_and]
    cases a with
    | nil =>
      cases b with
      | nil => exact absurd rfl hne
      | _ => cases hrank
    | bool p =>
      cases b with
      | bool q => cases p <;> cases q <;> simp [value, text, isInt]
      | _ => cases hrank
    | int m =>
      cases b with
      | int n =>
        have hv := hapart.value_ne (by simpa using hne)
        refine (numberLess_iff (.int m) (.int n) rfl rfl (isNaN_ofInt64 m) (isNaN_ofInt64 n)).trans ?_
        simp [value, text, hv]
      | float y =>
        refine (numberLess_iff (.int m) (.float y) rfl rfl (isNaN_ofInt64 m) hb).trans ?_
        simp [value, isInt]
      | _ => cases hrank
    | float x =>
      cases b with
      | int n =>
        refine (numberLess_iff (.float x) (.int n) rfl rfl ha (isNaN_ofInt64 n)).trans ?_
        simp [value, isInt]
      | float y =>
        refine (numberLess_iff (.float x) (.float y) rfl rfl ha hb).trans ?_
        simp [value, isInt, text]
      | _ => cases hrank
    | string s =>
      cases b with
      | string t => simp [value, text, isInt, Bytes.less]
      | _ => cases hrank
    | keyword s =>
      cases b with
      | keyword t => simp [value, text, isInt, Bytes.less]
      | _ => cases hrank
    | symbol s =>
      cases b with
      | symbol t => simp [value, text, isInt, Bytes.less]
      | _ => cases hrank

/-- Different representatives have different positions. -/
theorem position_ne {a b : Atom} (hne : a ≠ b) (ha : a.canonical = a) (hb : b.canonical = b)
    (hapart : a.Apart b) : a.position ≠ b.position := by
  intro h
  obtain ⟨hrank, hvalue, hkind, htext⟩ := place_eq_iff.mp h
  refine hne ?_
  cases a with
  | nil =>
    cases b with
    | nil => rfl
    | _ => cases hrank
  | bool p =>
    cases b with
    | bool q => cases p <;> cases q <;> first | rfl | cases hvalue
    | _ => cases hrank
  | int m =>
    cases b with
    | int n => exact congrArg _ (by_contra fun hmn => hapart.value_ne hmn hvalue)
    | float y => cases hkind
    | _ => cases hrank
  | float x =>
    cases b with
    | int n => cases hkind
    | float y => rw [← ha, ← hb, canonical_float_eq_iff.mpr hvalue]
    | _ => cases hrank
  | string s =>
    cases b with
    | string t => exact congrArg _ htext
    | _ => cases hrank
  | keyword s =>
    cases b with
    | keyword t => exact congrArg _ htext
    | _ => cases hrank
  | symbol s =>
    cases b with
    | symbol t => exact congrArg _ htext
    | _ => cases hrank

/-- Two whole numbers that become the same float come before each other. -/
theorem keyLess_of_ofInt_eq {m n : Int64} (h : ofInt m.toInt = ofInt n.toInt) :
    (Atom.int m).keyLess (.int n) = true := by
  have hnumber := numberLess_iff (.int m) (.int n) rfl rfl (isNaN_ofInt64 m)
    (isNaN_ofInt64 n)
  exact hnumber.mpr (.inr ⟨congrArg units h, rfl⟩)

end Atom

/-! ## Sorting -/

section

variable {α β : Type} [LinearOrder β] {pos : α → β} {less : α → α → Bool}

theorem sortInsert_increasing {x : α} {ys : List α}
    (hless : ∀ y ∈ ys, less x y = true ↔ pos x < pos y) (hne : ∀ y ∈ ys, pos x ≠ pos y)
    (hys : ys.Pairwise fun a b => pos a < pos b) :
    (sortInsert less x ys).Pairwise fun a b => pos a < pos b := by
  induction ys with
  | nil => exact List.pairwise_singleton _ x
  | cons y ys ih =>
    obtain ⟨hfirst, hrest⟩ := List.pairwise_cons.mp hys
    obtain ⟨hlessy, hless⟩ := List.forall_mem_cons.mp hless
    obtain ⟨hney, hne⟩ := List.forall_mem_cons.mp hne
    unfold sortInsert
    split
    case isTrue h =>
      have hxy : pos x < pos y := hlessy.mp h
      exact List.pairwise_cons.mpr
        ⟨List.forall_mem_cons.mpr ⟨hxy, fun z hz => hxy.trans (hfirst z hz)⟩, hys⟩
    case isFalse h =>
      have hyx : pos y < pos x := lt_of_le_of_ne (not_lt.mp (mt hlessy.mpr h)) hney.symm
      refine List.pairwise_cons.mpr ⟨fun z hz => ?_, ih hless hne hrest⟩
      rcases List.mem_cons.mp ((sortInsert_perm less x ys).mem_iff.mp hz) with rfl | hz
      · exact hyx
      · exact hfirst z hz

/-- Elements of different positions, compared by them, are sorted by position. -/
theorem sortBy_increasing {xs : List α} (hne : xs.Pairwise fun a b => pos a ≠ pos b)
    (hless : ∀ x ∈ xs, ∀ y ∈ xs, pos x ≠ pos y → (less x y = true ↔ pos x < pos y)) :
    (sortBy less xs).Pairwise fun a b => pos a < pos b := by
  induction xs with
  | nil => exact .nil
  | cons x xs ih =>
    obtain ⟨hfirst, hrest⟩ := List.pairwise_cons.mp hne
    have hmem {y : α} (hy : y ∈ sortBy less xs) : y ∈ xs := (sortBy_perm less xs).mem_iff.mp hy
    have hsorted := ih hrest fun a ha b hb =>
      hless a (List.mem_cons_of_mem _ ha) b (List.mem_cons_of_mem _ hb)
    refine sortInsert_increasing (fun y hy => ?_) (fun y hy => hfirst y (hmem hy)) hsorted
    exact hless x List.mem_cons_self y (List.mem_cons_of_mem _ (hmem hy)) (hfirst y (hmem hy))

end

/-! ## Dicts -/

/-- No two whole numbers among the keys become the same float. -/
def Separate (keys : List Atom) : Prop :=
  ∀ m n : Int64, .int m ∈ keys → .int n ∈ keys → ofInt m.toInt = ofInt n.toInt → m = n

namespace Entries

theorem mem_keys_iff {es : Entries} {k : Atom} : k ∈ es.keys ↔ k ∈ es.map Prod.fst :=
  ((sortEntries_perm es).map Prod.fst).mem_iff

theorem zip_keys_vals (es : Entries) : es.keys.zip es.vals = sortEntries es := by
  have h := List.zip_unzip (sortEntries es)
  rwa [List.unzip_eq_map] at h

namespace Proper

variable {es : Entries} (h : es.Proper) (hsep : Separate (es.map Prod.fst))

include h

theorem of_perm {es' : Entries} (hperm : es'.Perm es) : es'.Proper := by
  have hkeys := hperm.map Prod.fst
  exact ⟨hkeys.nodup_iff.mpr h.distinct, fun k hk => h.canonical k (hkeys.mem_iff.mp hk),
    fun k hk => h.noNaN k (hkeys.mem_iff.mp hk)⟩

theorem perm_of_mem_iff {es' : Entries} (h' : es'.Proper) (hsame : ∀ e, e ∈ es ↔ e ∈ es') :
    es.Perm es' :=
  (List.perm_ext_iff_of_nodup h.distinct.of_map h'.distinct.of_map).mpr hsame

theorem map_find?_keys : es.keys.map es.find? = es.vals.map some := by
  unfold keys vals
  rw [List.map_map, List.map_map]
  refine List.map_congr_left fun e he => ?_
  exact h.find?_eq_some_iff.mpr ((sortEntries_perm es).mem_iff.mp he)

/-- The keys and values in turn give the entries again, in the order of the keys. -/
theorem hashMap_keys_vals :
    Primitive.hashMap.call (interleave .atom id (es.keys.zip es.vals)) =
      .ok (.dict (sortEntries es)) := by
  have hsorted := h.of_perm (sortEntries_perm es)
  rw [zip_keys_vals]
  exact hashMap_interleave (fun e he => hsorted.canonical e.1 (List.mem_map_of_mem he))
    hsorted.distinct

include hsep

theorem keyLess_iff {a b : Atom} (ha : a ∈ es.map Prod.fst) (hb : b ∈ es.map Prod.fst)
    (hne : a ≠ b) : a.keyLess b = true ↔ a.position < b.position := by
  refine Atom.keyLess_iff hne (h.noNaN a ha) (h.noNaN b hb) ?_
  rintro m n rfl rfl
  exact hsep m n ha hb

theorem position_ne {a b : Atom} (ha : a ∈ es.map Prod.fst) (hb : b ∈ es.map Prod.fst)
    (hne : a ≠ b) : a.position ≠ b.position := by
  refine Atom.position_ne hne (h.canonical a ha) (h.canonical b hb) ?_
  rintro m n rfl rfl
  exact hsep m n ha hb

theorem sortEntries_increasing :
    (sortEntries es).Pairwise fun e e' => e.1.position < e'.1.position := by
  refine sortBy_increasing ?_ fun e he e' he' hne => ?_
  · refine (List.pairwise_map.mp h.distinct).imp_of_mem fun he he' hne => ?_
    exact h.position_ne hsep (List.mem_map_of_mem he) (List.mem_map_of_mem he') hne
  · refine h.keyLess_iff hsep (List.mem_map_of_mem he) (List.mem_map_of_mem he') ?_
    exact fun heq => hne (congrArg Atom.position heq)

/-- Sorting forgets the order of the entries. -/
theorem sortEntries_eq {es' : Entries} (hperm : es.Perm es') : sortEntries es = sortEntries es' := by
  have hsep' : Separate (es'.map Prod.fst) := fun m n hm hn =>
    hsep m n ((hperm.map Prod.fst).mem_iff.mpr hm) ((hperm.map Prod.fst).mem_iff.mpr hn)
  have hsorted := h.sortEntries_increasing hsep
  have hsorted' := (h.of_perm hperm.symm).sortEntries_increasing hsep'
  have horder := ((sortEntries_perm es).trans hperm).trans (sortEntries_perm es').symm
  exact horder.eq_of_pairwise (fun _ _ _ _ hlt hgt => (lt_asymm hlt hgt).elim) hsorted hsorted'

theorem keys_increasing : es.keys.Pairwise fun a b => a.keyLess b = true := by
  have hsorted := h.sortEntries_increasing hsep
  refine List.pairwise_map.mpr (hsorted.imp_of_mem fun {e e'} he he' hlt => ?_)
  have hkey {e : Atom × Term} (he : e ∈ sortEntries es) : e.1 ∈ es.map Prod.fst :=
    List.mem_map_of_mem ((sortEntries_perm es).mem_iff.mp he)
  refine (h.keyLess_iff hsep (hkey he) (hkey he') fun heq => ?_).mpr hlt
  rw [heq] at hlt
  exact lt_irrefl _ hlt

end Proper
end Entries

/-- In a dict of which no two whole numbers become the same float, the keys are in a strict linear
order, in which each is listed once. Dicts with the same entries have the same lists of keys and of
values and the same text, however they came by the entries, and the lists make the dict again. But of
two whole numbers that become the same float, each comes before the other. -/
theorem key_order_determined {es : Entries} (h : es.Proper) (hsep : Separate (es.map Prod.fst)) :
    (∀ a ∈ es.map Prod.fst, ∀ b ∈ es.map Prod.fst, a ≠ b → a.keyLess b = !b.keyLess a) ∧
    (∀ a ∈ es.map Prod.fst, ∀ b ∈ es.map Prod.fst, ∀ c ∈ es.map Prod.fst, a ≠ b → b ≠ c →
      a.keyLess b = true → b.keyLess c = true → a ≠ c ∧ a.keyLess c = true) ∧
    (es.keys.Nodup ∧ (∀ k, k ∈ es.keys ↔ k ∈ es.map Prod.fst) ∧
      es.keys.Pairwise fun a b => a.keyLess b = true) ∧
    es.keys.map es.find? = es.vals.map some ∧
    (∀ es' : Entries, es'.Proper → (∀ e, e ∈ es ↔ e ∈ es') →
      es.keys = es'.keys ∧ es.vals = es'.vals ∧ (Term.dict es).render = (Term.dict es').render) ∧
    (∃ es' : Entries, es'.Perm es ∧
      Primitive.hashMap.call (interleave .atom id (es.keys.zip es.vals)) = .ok (.dict es')) ∧
    ∀ m n : Int64, m ≠ n → ofInt m.toInt = ofInt n.toInt →
      (Atom.int m).keyLess (.int n) = true ∧ (Atom.int n).keyLess (.int m) = true := by
  refine ⟨?_, ?_, ⟨?_, fun k => Entries.mem_keys_iff, h.keys_increasing hsep⟩, h.map_find?_keys, ?_,
    ⟨_, sortEntries_perm es, h.hashMap_keys_vals⟩, ?_⟩
  · intro a ha b hb hne
    rw [Bool.eq_not, ne_eq, Bool.eq_iff_iff, h.keyLess_iff hsep ha hb hne,
      h.keyLess_iff hsep hb ha hne.symm]
    rcases lt_or_gt_of_ne (h.position_ne hsep ha hb hne) with hlt | hgt
    · simp [hlt, hlt.not_gt]
    · simp [hgt, hgt.not_gt]
  · intro a ha b hb c hc hab hbc hless hless'
    have hlt := ((h.keyLess_iff hsep ha hb hab).mp hless).trans
      ((h.keyLess_iff hsep hb hc hbc).mp hless')
    have hac : a ≠ c := by
      rintro rfl
      exact lt_irrefl _ hlt
    exact ⟨hac, (h.keyLess_iff hsep ha hc hac).mpr hlt⟩
  · exact ((sortEntries_perm es).map Prod.fst).nodup_iff.mpr h.distinct
  · intro es' h' hsame
    have hsorted := h.sortEntries_eq hsep (h.perm_of_mem_iff h' hsame)
    refine ⟨?_, ?_, ?_⟩
    · rw [Entries.keys, hsorted, Entries.keys]
    · rw [Entries.vals, hsorted, Entries.vals]
    · rw [render_dict, hsorted, render_dict]
  · intro m n _ heq
    exact ⟨Atom.keyLess_of_ofInt_eq heq, Atom.keyLess_of_ofInt_eq heq.symm⟩

/-- A dict with keys of every kind; its largest whole number is not a float, and beside it is the float
that it becomes. -/
def mixedKeys : Entries :=
  [(.symbol [120], .nil), (.keyword [120], .nil), (.string [120], .nil),
    (.float (Float.ofBits 0x43E0000000000000), .nil), (.int Int64.maxValue, .nil),
    (.float (Float.ofBits 0x3FE0000000000000), .nil), (.int 1, .nil), (.bool true, .nil),
    (.bool false, .nil), (.nil, .nil)]

theorem mixedKeys_ordered :
    mixedKeys.Proper ∧ Separate (mixedKeys.map Prod.fst) ∧
      mixedKeys.keys = Entries.keys mixedKeys.reverse := by
  have hproper : mixedKeys.Proper :=
    ⟨by decide +kernel, by decide +kernel, by decide +kernel⟩
  have hsep : Separate (mixedKeys.map Prod.fst) := by
    have hne : ofInt Int64.maxValue.toInt ≠ ofInt (1 : Int64).toInt := by decide +kernel
    intro m n hm hn heq
    have hm : m = Int64.maxValue ∨ m = 1 := by simpa [mixedKeys] using hm
    have hn : n = Int64.maxValue ∨ n = 1 := by simpa [mixedKeys] using hn
    rcases hm with rfl | rfl <;> rcases hn with rfl | rfl
    · rfl
    · exact absurd heq hne
    · exact absurd heq.symm hne
    · rfl
  obtain ⟨-, -, -, -, hsame, -⟩ := key_order_determined hproper hsep
  have hreverse := hsame mixedKeys.reverse (hproper.of_perm (List.reverse_perm _)) fun e =>
    List.mem_reverse.symm
  exact ⟨hproper, hsep, hreverse.1⟩

end SmallLisp

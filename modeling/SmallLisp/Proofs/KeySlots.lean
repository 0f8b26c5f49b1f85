import SmallLisp.Proofs.FloatValue
import SmallLisp.Primitive.Collection

/-! Which keys share a slot of a dict. The slot of a float is that of the whole number of its value
(`canonical_float_eq_int_iff`), while equality first makes the whole number a float. So two keys
share a slot exactly when they are equal and nothing was lost on the way (`shared_slot_iff`). With
more than 53 significant bits, a whole number is equal to a float that is another key
(`rounded_keys_apart`). -/
namespace SmallLisp

open Scaled

/-! ## The whole number of a float -/

theorem natAbs_toInt_le (n : Int64) : n.toInt.natAbs ≤ 2 ^ 63 := by
  have hlo := n.le_toInt
  have hhi := n.toInt_lt
  omega

namespace Atom

theorem toInt_eq_iff {x : Float} (n : Int) (h : units x % one = 0) :
    Scaled.toInt x = n ↔ units x = n * one := by
  have hone : (one : Int) ≠ 0 := by
    have := one_pos
    omega
  rw [Scaled.toInt, Int.ediv_eq_iff_eq_mul_left hone (Int.dvd_of_emod_eq_zero h)]

/-- The representative of a float is the whole number of its value, if there is one of 64 bits. -/
theorem canonical_float_eq_int_iff {x : Float} {n : Int64} :
    (Atom.float x).canonical = .int n ↔ units x = n.toInt * one := by
  have hmin : Int64.minValue.toInt = -2 ^ 63 := rfl
  have hmax : Int64.maxValue.toInt = 2 ^ 63 - 1 := rfl
  simp only [canonical]
  split
  case isTrue h =>
    simp only [Bool.and_eq_true, decide_eq_true_eq, isIntegral, beq_iff_eq] at h
    obtain ⟨⟨⟨-, hone⟩, hge⟩, hle⟩ := h
    rw [Atom.int.injEq, ← toInt_eq_iff _ hone, ← Int64.toInt_inj,
      Int64.toInt_ofInt_of_le (by omega) (by omega)]
  case isFalse h =>
    simp only [reduceCtorEq, false_iff]
    intro hx
    have hlo := n.le_toInt
    have hhi := n.toInt_lt
    have hone : units x % one = 0 := by rw [hx, Int.mul_emod_left]
    have hn := (toInt_eq_iff n.toInt hone).mpr hx
    have hfinite := isFinite_of_units_eq (natAbs_toInt_le n) hx
    refine h ?_
    simp only [Bool.and_eq_true, decide_eq_true_eq, isIntegral, beq_iff_eq]
    exact ⟨⟨⟨hfinite, hone⟩, by omega⟩, by omega⟩

theorem canonical_float (x : Float) :
    (∃ n, (Atom.float x).canonical = .int n) ∨ (Atom.float x).canonical = .float x := by
  simp only [canonical]
  split
  · exact .inl ⟨_, rfl⟩
  · exact .inr rfl

/-- Floats have one representative exactly if they have one value: only the zeros differ and have
the same value, and theirs is the whole number. -/
theorem canonical_float_eq_iff {x y : Float} :
    (Atom.float x).canonical = (Atom.float y).canonical ↔ units x = units y := by
  rcases canonical_float x with ⟨n, hn⟩ | hx
  · have hx := canonical_float_eq_int_iff.mp hn
    rw [hn, hx, eq_comm, canonical_float_eq_int_iff, eq_comm]
  · constructor
    · intro h
      rcases canonical_float y with ⟨m, hm⟩ | hy
      · rw [hx, hm] at h
        cases h
      · rw [hx, hy, Atom.float.injEq] at h
        rw [h]
    · intro h
      have h0 : units x ≠ 0 := by
        intro h0
        have hzero : (Atom.float x).canonical = .int 0 :=
          canonical_float_eq_int_iff.mpr (by rw [h0, Int64.toInt_zero, Int.zero_mul])
        rw [hx] at hzero
        cases hzero
      rw [eq_of_units_eq h h0]

/-! ## Slots -/

theorem isNaN_canonical {a : Atom} (h : a.isNaN = false) : a.canonical.isNaN = false := by
  cases a with
  | float x =>
    rcases canonical_float x with ⟨n, hn⟩ | hx
    · rw [hn]
      rfl
    · rw [hx, h]
  | _ => rfl

theorem isKey_canonical_iff {a b : Atom} (ha : a.isNaN = false) :
    a.canonical.isKey b.canonical = true ↔ a.canonical = b.canonical := by
  simp [isKey, isNaN_canonical ha]

/-- A whole number and a float are compared, and the whole number has more than 53 significant bits,
so that it is no float. -/
def Rounded : Atom → Atom → Prop
  | .int n, .float _ => ¬ 2 ^ (n.toInt.natAbs.log2 - 52) ∣ n.toInt.natAbs
  | .float _, .int n => ¬ 2 ^ (n.toInt.natAbs.log2 - 52) ∣ n.toInt.natAbs
  | _, _ => False

theorem rounded_comm (a b : Atom) : a.Rounded b ↔ b.Rounded a := by
  cases a <;> cases b <;> rfl

/-- A whole number up to 2^53 is not rounded. -/
theorem not_rounded_int {n : Int64} (h : n.toInt.natAbs ≤ 2 ^ 53) (b : Atom) :
    ¬ (Atom.int n).Rounded b := by
  have hdvd : 2 ^ (n.toInt.natAbs.log2 - 52) ∣ n.toInt.natAbs := by
    rcases Nat.lt_or_eq_of_le h with hlt | heq
    · have hlog : n.toInt.natAbs.log2 - 52 = 0 := by
        rcases Nat.eq_zero_or_pos n.toInt.natAbs with h0 | hpos
        · rw [h0]
          rfl
        · have := (Nat.log2_lt (by omega)).mpr hlt
          omega
      rw [hlog]
      exact Nat.one_dvd _
    · rw [heq, Nat.log2_two_pow]
      exact Nat.pow_dvd_pow 2 (by decide)
  cases b <;> simp [Rounded, hdvd]

theorem same_comm (a b : Atom) : a.same b = b.same a := by
  have hfloat : ∀ x y, Scaled.same x y = Scaled.same y x := by
    intro x y
    unfold Scaled.same
    cases units? x <;> cases units? y <;> simp [Bool.beq_comm]
  cases a <;> cases b <;> simp [Atom.same, hfloat, Bool.beq_comm]

/-- A whole number and a float have one representative exactly if they are equal and the whole
number was not rounded for that. -/
theorem int_eq_canonical_float_iff {n : Int64} {x : Float} (hx : x.isNaN = false) :
    (Atom.int n).canonical = (Atom.float x).canonical ↔
      (Atom.int n).same (.float x) = true ∧ ¬ (Atom.int n).Rounded (.float x) := by
  have hn := natAbs_toInt_le n
  have hexact := units_ofInt_eq_iff hn
  rw [show (Atom.int n).canonical = .int n from rfl, eq_comm, canonical_float_eq_int_iff]
  simp only [Atom.same, same_iff (isNaN_ofInt hn) hx, Rounded, Decidable.not_not, ← hexact]
  constructor
  · intro h
    have hof := units_ofInt_of_units_eq hn h
    exact ⟨hof.trans h.symm, hof⟩
  · rintro ⟨hsame, hof⟩
    exact hsame.symm.trans hof

theorem canonical_eq_iff_of_toFloat?_eq_none {a b : Atom} (ha : a.toFloat? = none) :
    a.canonical = b.canonical ↔ a.same b = true ∧ ¬ a.Rounded b := by
  cases b with
  | float y =>
    rcases canonical_float y with ⟨n, hn⟩ | hy
    · rw [hn]
      cases a <;> simp_all [canonical, Atom.same, toFloat?]
    · rw [hy]
      cases a <;> simp_all [canonical, Atom.same, toFloat?]
  | _ => cases a <;> simp_all [canonical, Atom.same, Rounded, toFloat?]

theorem canonical_eq_iff {a b : Atom} (ha : a.isNaN = false) (hb : b.isNaN = false) :
    a.canonical = b.canonical ↔ a.same b = true ∧ ¬ a.Rounded b := by
  by_cases hna : a.toFloat? = none
  · exact canonical_eq_iff_of_toFloat?_eq_none hna
  by_cases hnb : b.toFloat? = none
  · rw [eq_comm, same_comm, rounded_comm]
    exact canonical_eq_iff_of_toFloat?_eq_none hnb
  match a, b with
  | .int m, .int n => simp [canonical, Atom.same, Rounded]
  | .int n, .float x => exact int_eq_canonical_float_iff hb
  | .float x, .int n =>
    rw [eq_comm, same_comm, rounded_comm]
    exact int_eq_canonical_float_iff ha
  | .float x, .float y =>
    rw [canonical_float_eq_iff]
    simp [Atom.same, same_iff ha hb, Rounded]

end Atom

/-! ## Dicts -/

/-- What the dict of one entry finds. -/
theorem hasKey_hashMap (a b : Atom) (v : Term) :
    (Collection.hashMap [.atom a, v] >>= fun d => Collection.hasKey [d, .atom b]) =
      .ok (.bool (a.canonical.isKey b.canonical)) := by
  have hentry : Collection.hashMap [.atom a, v] = .ok (.dict [(a.canonical, v)]) := by
    simp [Collection.hashMap, Collection.insertPairs, Arguments.key, Entries.insert, Entries.put,
      Except.map, bind, Except.bind]
  have hfind : Collection.hasKey [.dict [(a.canonical, v)], .atom b] =
      .ok (.bool (Entries.find? [(a.canonical, v)] b.canonical).isSome) := rfl
  rw [hentry]
  refine hfind.trans ?_
  rw [Entries.find?]
  split <;> simp_all [Entries.find?]

theorem equal_pair (t u : Term) : Collection.equal [t, u] = .ok (.bool (t.same u)) := by
  have h : Collection.equal [t, u] = .ok (.bool (t.same u && true)) := rfl
  rw [h, Bool.and_true]

/-- Two keys share a slot exactly when they are equal and no whole number was rounded to find that
out. Then, and only then, one is found where the other was entered. -/
theorem shared_slot_iff {a b : Atom} (ha : a.isNaN = false) (hb : b.isNaN = false) :
    (a.canonical = b.canonical ↔ a.same b = true ∧ ¬ a.Rounded b) ∧
    ∀ v, ∃ found equal : Bool,
      (Collection.hashMap [.atom a, v] >>= fun d => Collection.hasKey [d, .atom b]) =
        .ok (.bool found) ∧
      Collection.equal [.atom a, .atom b] = .ok (.bool equal) ∧
      (found = true ↔ equal = true ∧ ¬ a.Rounded b) := by
  have hslot := Atom.canonical_eq_iff ha hb
  refine ⟨hslot, fun v => ⟨_, _, hasKey_hashMap a b v, equal_pair _ _, ?_⟩⟩
  rw [Atom.isKey_canonical_iff ha, hslot, Term.same]

/-- The float 2^53. Beyond it, not every whole number is a float. -/
def twoTo53 : Float := Float.ofBits 0x4340000000000000

/-- The whole number 2^53 and the float of that value are one key. -/
theorem exact_keys_together :
    Atom.isNaN (.int 9007199254740992) = false ∧ Atom.isNaN (.float twoTo53) = false ∧
      Atom.canonical (.int 9007199254740992) = Atom.canonical (.float twoTo53) := by
  have hfloat : Atom.isNaN (.float twoTo53) = false := by decide +kernel
  refine ⟨rfl, hfloat, (shared_slot_iff rfl hfloat).1.mpr ⟨?_, Atom.not_rounded_int ?_ _⟩⟩
  · decide +kernel
  · decide

/-- The whole number 2^53 + 1 is equal to that float, for it is rounded, but it is another key. -/
theorem rounded_keys_apart :
    Collection.equal [.int 9007199254740993, .float twoTo53] = .ok (.bool true) ∧
      Atom.canonical (.int 9007199254740993) ≠ Atom.canonical (.float twoTo53) ∧
      ∀ v, (Collection.hashMap [.int 9007199254740993, v] >>= fun d =>
        Collection.hasKey [d, .float twoTo53]) = .ok (.bool false) := by
  have hslots : Atom.canonical (.int 9007199254740993) ≠ Atom.canonical (.float twoTo53) := by
    decide +kernel
  have hsame : Atom.same (.int 9007199254740993) (.float twoTo53) = true := by decide +kernel
  have hkey := Atom.isKey_canonical_iff (a := .int 9007199254740993) (b := .float twoTo53) rfl
  refine ⟨?_, hslots, fun v => ?_⟩
  · rw [equal_pair, Term.same, hsame]
  · rw [hasKey_hashMap, Bool.eq_false_iff.mpr fun h => hslots (hkey.mp h)]

end SmallLisp

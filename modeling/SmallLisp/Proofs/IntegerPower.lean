import Mathlib.Tactic.Ring
import Mathlib.Tactic.Linarith
import SmallLisp.Primitive.Arithmetic

/-! Powers of whole numbers. A product is given up exactly when it does not fit into 64 bits
(`mul?_eq`). Repeated squaring squares the base ahead of its use; this never gives up too early,
since a square that does not fit is part of no power that fits (`fit?_square_pow`). So the power is
exact, or it does not fit and that is reported (`power_exact`). -/
namespace SmallLisp.Power

/-- The 64-bit whole number with this value, if there is one. -/
def fit? (i : Int) : Option Int64 :=
  if -2 ^ 63 ≤ i ∧ i ≤ 2 ^ 63 - 1 then some (Int64.ofInt i) else none

theorem fit?_eq_some_iff {i : Int} {n : Int64} : fit? i = some n ↔ n.toInt = i := by
  have hlo := n.le_toInt
  have hhi := n.toInt_lt
  unfold fit?
  split
  case isTrue h =>
    rw [Option.some.injEq, ← Int64.toInt_inj, Int64.toInt_ofInt_of_le h.1 (by omega), eq_comm]
  case isFalse h =>
    simp only [reduceCtorEq, false_iff]
    omega

theorem fit?_toInt (n : Int64) : fit? n.toInt = some n := fit?_eq_some_iff.mpr rfl

theorem fit?_eq_none_iff {i : Int} : fit? i = none ↔ i < -2 ^ 63 ∨ 2 ^ 63 ≤ i := by
  unfold fit?
  split <;> simp <;> omega

/-! ## Products -/

/-- A product that was not wrapped gives the factor back. -/
theorem mul_div_of_exact {a b : Int64} (hb : b ≠ 0) (hab : ¬ (b = -1 ∧ a = Int64.minValue))
    (h : (a * b).toInt = a.toInt * b.toInt) : a * b / b = a := by
  have hb0 : b.toInt ≠ 0 := fun h => hb (Int64.toInt_inj.mp h)
  have hdiv : (a * b / b).toInt = (a * b).toInt.tdiv b.toInt := by
    by_cases hb1 : b = -1
    · refine Int64.toInt_div_of_ne_left _ _ fun hmin => ?_
      subst hb1
      rw [hmin] at h
      have ha := a.toInt_lt
      simp at h
      omega
    · exact Int64.toInt_div_of_ne_right _ _ hb1
  rw [← Int64.toInt_inj, hdiv, h, Int.mul_tdiv_cancel _ hb0]

/-- A product that gives the factor back was not wrapped. -/
theorem exact_of_mul_div {a b : Int64} (hb : b ≠ 0) (hab : ¬ (b = -1 ∧ a = Int64.minValue))
    (h : a * b / b = a) : (a * b).toInt = a.toInt * b.toInt := by
  by_cases hb1 : b = -1
  · subst hb1
    have hmin : a.toInt ≠ -2 ^ 63 := fun h => hab ⟨rfl, Int64.toInt_inj.mp h⟩
    have hlo := a.le_toInt
    have hhi := a.toInt_lt
    rw [Int64.toInt_mul]
    exact Int.bmod_eq_of_le (by simp; omega) (by simp; omega)
  · -- The remainder is smaller than the divisor and a multiple of 2^64.
    have hrem := Int.mul_tdiv_add_tmod (a * b).toInt b.toInt
    rw [← Int64.toInt_div_of_ne_right _ _ hb1, h] at hrem
    have hlt : ((a * b).toInt.tmod b.toInt).natAbs < b.toInt.natAbs := by
      have hb0 : b.toInt ≠ 0 := fun h => hb (Int64.toInt_inj.mp h)
      rw [Int.natAbs_tmod]
      exact Nat.mod_lt _ (by omega)
    have hdvd : (2 ^ 64 : Int) ∣ (a * b).toInt - a.toInt * b.toInt := by
      rw [Int64.toInt_mul]
      exact Int.dvd_bmod_sub_self
    have hlo := b.le_toInt
    have hhi := b.toInt_lt
    rw [Int.mul_comm] at hrem
    obtain ⟨k, hk⟩ := hdvd
    omega

theorem mul?_eq (a b : Int64) : mul? a b = fit? (a.toInt * b.toInt) := by
  unfold mul?
  split
  case isTrue h =>
    have h0 : a.toInt * b.toInt = (0 : Int64).toInt := by
      rcases (by simpa using h : a = 0 ∨ b = 0) with rfl | rfl <;> simp
    rw [h0, fit?_toInt]
  case isFalse h =>
    obtain ⟨-, hb⟩ : a ≠ 0 ∧ b ≠ 0 := by simpa using h
    split
    case isTrue hab =>
      have hab' : a.toInt * b.toInt = 2 ^ 63 := by
        rcases (by simpa using hab : a = -1 ∧ b = Int64.minValue ∨ b = -1 ∧ a = Int64.minValue)
          with ⟨rfl, rfl⟩ | ⟨rfl, rfl⟩ <;> rfl
      exact (fit?_eq_none_iff.mpr (.inr hab'.ge)).symm
    case isFalse hab =>
      have hab' : ¬ (b = -1 ∧ a = Int64.minValue) := fun h => hab (by simp [h])
      cases hf : fit? (a.toInt * b.toInt) with
      | none =>
        have hne : a * b / b ≠ a := by
          intro h
          rw [← exact_of_mul_div hb hab' h, fit?_toInt] at hf
          cases hf
        simp [hne]
      | some n =>
        have hn : n.toInt = a.toInt * b.toInt := fit?_eq_some_iff.mp hf
        have hexact : (a * b).toInt = a.toInt * b.toInt := by
          rw [Int64.toInt_mul, ← hn, Int64.toInt_bmod]
        obtain rfl : a * b = n := Int64.toInt_inj.mp (hexact.trans hn.symm)
        simp [mul_div_of_exact hb hab' hexact]

/-! ## What does not fit never fits again -/

theorem ne_zero_of_fit?_mul {i j : Int} (h : fit? (i * j) = none) : i ≠ 0 ∧ j ≠ 0 := by
  rw [fit?_eq_none_iff] at h
  constructor <;> rintro rfl <;> simp at h

/-- A positive factor does not bring a product back. -/
theorem fit?_mul {i k : Int} (h : fit? i = none) (hk : 0 < k) : fit? (i * k) = none := by
  rw [fit?_eq_none_iff] at h ⊢
  rcases h with h | h
  · exact .inl (by nlinarith)
  · exact .inr (by nlinarith)

/-- The bound of the 64-bit numbers is not a square. -/
theorem square_ne (x : Int) : x * x ≠ 2 ^ 63 := by
  intro h
  rcases Nat.lt_or_ge 3037000499 x.natAbs with hx | hx
  · have : 3037000500 * 3037000500 ≤ x.natAbs * x.natAbs := Nat.mul_le_mul hx hx
    rw [← Int.natAbs_mul, h] at this
    exact absurd this (by decide)
  · have : x.natAbs * x.natAbs ≤ 3037000499 * 3037000499 := Nat.mul_le_mul hx hx
    rw [← Int.natAbs_mul, h] at this
    exact absurd this (by decide)

/-- Nor does a negative one, if the product was a square. -/
theorem fit?_square_mul {x k : Int} (h : fit? (x * x) = none) (hk : k ≠ 0) :
    fit? (x * x * k) = none := by
  rcases Int.lt_or_gt_of_ne hk with hneg | hpos
  · rw [fit?_eq_none_iff] at h ⊢
    have hx : 2 ^ 63 < x * x := by
      have := square_ne x
      have := mul_self_nonneg x
      omega
    exact .inl (by nlinarith)
  · exact fit?_mul h hpos

/-- So a square that does not fit is part of no power that fits. -/
theorem fit?_square_pow {x r : Int} (h : fit? (x * x) = none) (hr : r ≠ 0) {n : Nat} (hn : n ≠ 0) :
    fit? (r * (x * x) ^ n) = none := by
  obtain ⟨k, rfl⟩ := Nat.exists_eq_succ_of_ne_zero hn
  have hx : x * x ≠ 0 := mul_self_ne_zero.mpr (ne_zero_of_fit?_mul h).1
  have hsplit : r * (x * x) ^ (k + 1) = x * x * (r * (x * x) ^ k) := by ring
  rw [hsplit]
  exact fit?_square_mul h (mul_ne_zero hr (pow_ne_zero k hx))

/-! ## Repeated squaring -/

theorem power_halves (x : Int) (y : Nat) : x ^ y = x ^ (y % 2) * (x * x) ^ (y / 2) := by
  rw [← pow_two, ← pow_mul, ← pow_add, Nat.mod_add_div]

theorem oddFactor_eq (r x : Int64) (y : Nat) :
    (if y % 2 == 1 then mul? r x else some r) = fit? (r.toInt * x.toInt ^ (y % 2)) := by
  rcases Nat.mod_two_eq_zero_or_one y with h | h <;> simp [h, mul?_eq, fit?_toInt]

theorem ne_zero_of_oddFactor {r x : Int64} {y : Nat}
    (h : fit? (r.toInt * x.toInt ^ (y % 2)) = none) : x.toInt ≠ 0 := by
  rcases Nat.mod_two_eq_zero_or_one y with hy | hy
  · simp [hy, fit?_toInt] at h
  · rw [hy, pow_one] at h
    exact (ne_zero_of_fit?_mul h).2

/-- The loop from any result `r` so far, which is zero only if the base is. -/
theorem intFrom_eq {fuel y : Nat} (hy : y < 2 ^ fuel) {r x : Int64}
    (hr : r.toInt = 0 → x.toInt = 0) :
    intFrom fuel r x y = fit? (r.toInt * x.toInt ^ y) := by
  induction fuel generalizing r x y with
  | zero =>
    obtain rfl : y = 0 := by simpa using hy
    simp [intFrom, fit?_toInt]
  | succ fuel ih =>
    have hhalf : y / 2 < 2 ^ fuel := by rw [pow_succ] at hy; omega
    rw [power_halves, ← mul_assoc, intFrom, oddFactor_eq]
    by_cases hy0 : y = 0
    · simp [hy0, fit?_toInt]
    rw [if_neg (by simpa using hy0)]
    cases h₁ : fit? (r.toInt * x.toInt ^ (y % 2)) with
    | none =>
      have hx := ne_zero_of_oddFactor h₁
      exact (fit?_mul h₁ (pow_pos (mul_self_pos.mpr hx) _)).symm
    | some r' =>
      have hr' := fit?_eq_some_iff.mp h₁
      have hzero' : r'.toInt = 0 → x.toInt = 0 := by
        intro h
        rcases mul_eq_zero.mp (hr'.symm.trans h) with h | h
        · exact hr h
        · exact eq_zero_of_pow_eq_zero h
      rw [Option.bind_some, ← hr']
      by_cases hy2 : y / 2 = 0
      · simp [hy2, fit?_toInt]
      rw [if_neg (by simpa using hy2), mul?_eq]
      cases h₂ : fit? (x.toInt * x.toInt) with
      | none =>
        have hr0 : r'.toInt ≠ 0 := fun h => (ne_zero_of_fit?_mul h₂).1 (hzero' h)
        rw [fit?_square_pow h₂ hr0 hy2]
        rfl
      | some x' =>
        have hx' := fit?_eq_some_iff.mp h₂
        rw [Option.bind_some, ← hx']
        refine ih hhalf fun h => ?_
        rw [hx', hzero' h]
        rfl

/-- A power that fits is exact, and no square on the way makes it fail; one that does not fit is
reported. -/
theorem power_exact (x y : Int64) (hy : 0 ≤ y) :
    int? x y.toInt.toNat = fit? (x.toInt ^ y.toInt.toNat) ∧
      Arithmetic.pow [.int x, .int y] =
        (match fit? (x.toInt ^ y.toInt.toNat) with
         | some r => .ok (.int r)
         | none => Arguments.fault .powerOverflow) ∧
      ∀ a b : Int64, mul? a b = fit? (a.toInt * b.toInt) := by
  have hlt : y.toInt.toNat < 2 ^ 64 := by
    have := y.toInt_lt
    omega
  have hint : int? x y.toInt.toNat = fit? (x.toInt ^ y.toInt.toNat) := by
    rw [int?, intFrom_eq hlt (fun h => absurd h (by decide)), Int64.toInt_one, one_mul]
  refine ⟨hint, ?_, mul?_eq⟩
  have hpow : Arithmetic.pow [.int x, .int y] =
      (match int? x y.toInt.toNat with
       | some r => .ok (.int r)
       | none => Arguments.fault .powerOverflow) := if_pos hy
  rw [hpow, hint]

/-- The least number is a power of minus two: the square 2^64 that would follow is not formed. -/
theorem minusTwo_power :
    (0 : Int64) ≤ 63 ∧ int? (-2) 63 = some Int64.minValue ∧
      Arithmetic.pow [.int (-2), .int 63] = .ok (.int Int64.minValue) ∧
      mul? Int64.minValue (-1) = none := by
  obtain ⟨hint, hpow, hmul⟩ := power_exact (-2) 63 (by decide)
  exact ⟨by decide, hint.trans (by decide), hpow, (hmul _ _).trans (by decide)⟩

end SmallLisp.Power

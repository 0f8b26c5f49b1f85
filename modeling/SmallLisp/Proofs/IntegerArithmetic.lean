import Mathlib
import SmallLisp.Primitive

/-! Arithmetic on whole numbers. Each operation is a fold from the left (`fold_int`), and what the
fold computes is the 64-bit number congruent to the mathematical result (`Congruent`), however
often it has wrapped around on the way. So sums and products do not depend on how the arguments
are ordered and grouped (`Grouping`), and quotient and remainder fit together also where the
quotient wraps around. -/
namespace SmallLisp

open Literal (Numeral)

/-! ## Residues modulo 2^64 -/

/-- The 64-bit number and the whole number differ by a multiple of 2^64. -/
def Congruent (n : Int64) (i : Int) : Prop := n.toInt ≡ i [ZMOD 2 ^ 64]

namespace Congruent

variable {m n : Int64} {i j : Int}

theorem toInt (n : Int64) : Congruent n n.toInt := Int.ModEq.refl _

/-- A wrapped result is congruent to the result before it was wrapped. -/
theorem of_bmod (h : n.toInt = i.bmod (2 ^ 64)) : Congruent n i := by
  unfold Congruent Int.ModEq
  rw [h]
  exact Int.bmod_emod

/-- Only one 64-bit number is congruent to a whole number. -/
theorem unique (hm : Congruent m i) (hn : Congruent n i) : m = n := by
  have h : m.toInt ≡ n.toInt [ZMOD 2 ^ 64] := Int.ModEq.trans hm (Int.ModEq.symm hn)
  unfold Int.ModEq at h
  have hm := m.le_toInt
  have hm' := m.toInt_lt
  have hn := n.le_toInt
  have hn' := n.toInt_lt
  exact Int64.toInt_inj.mp (by omega)

theorem iff_eq (hn : Congruent n i) : Congruent m i ↔ m = n :=
  ⟨fun hm => hm.unique hn, fun h => h ▸ hn⟩

theorem add (hm : Congruent m i) (hn : Congruent n j) : Congruent (m + n) (i + j) :=
  Int.ModEq.trans (of_bmod (Int64.toInt_add m n)) (Int.ModEq.add hm hn)

theorem sub (hm : Congruent m i) (hn : Congruent n j) : Congruent (m - n) (i - j) :=
  Int.ModEq.trans (of_bmod (Int64.toInt_sub m n)) (Int.ModEq.sub hm hn)

theorem mul (hm : Congruent m i) (hn : Congruent n j) : Congruent (m * n) (i * j) :=
  Int.ModEq.trans (of_bmod (Int64.toInt_mul m n)) (Int.ModEq.mul hm hn)

theorem foldl_add (hm : Congruent m i) (ns : List Int64) :
    Congruent (ns.foldl (· + ·) m) (i + (ns.map Int64.toInt).sum) := by
  induction ns generalizing m i with
  | nil => simpa using hm
  | cons n ns ih => simpa [Int.add_assoc] using ih (hm.add (toInt n))

theorem foldl_sub (hm : Congruent m i) (ns : List Int64) :
    Congruent (ns.foldl (· - ·) m) (i - (ns.map Int64.toInt).sum) := by
  induction ns generalizing m i with
  | nil => simpa using hm
  | cons n ns ih => simpa [Int.sub_sub] using ih (hm.sub (toInt n))

theorem foldl_mul (hm : Congruent m i) (ns : List Int64) :
    Congruent (ns.foldl (· * ·) m) (i * (ns.map Int64.toInt).prod) := by
  induction ns generalizing m i with
  | nil => simpa using hm
  | cons n ns ih => simpa [Int.mul_assoc] using ih (hm.mul (toInt n))

end Congruent

/-! ## The fold over whole numbers -/

namespace Arithmetic.Operation

variable {op : Operation} {f : Int64 → Int64 → Int64}

/-- An operation that never fails on whole numbers folds them to a whole number. -/
theorem fold_int (hop : ∀ a b, op.int a b = .ok (f a b)) (who : String) (a : Int64)
    (ns : List Int64) : op.fold who (.int a) (ns.map .int) = .ok (.int (ns.foldl f a)) := by
  induction ns generalizing a with
  | nil => rfl
  | cons n ns ih =>
    have hstep : op.apply (.int a) (.int n) = .ok (.int (f a n)) := by
      simp only [apply, hop]
      rfl
    rw [List.map_cons, List.foldl_cons, ← ih (f a n)]
    change (op.apply (.int a) (.int n) >>= fun acc => op.fold who acc (ns.map .int)) = _
    rw [hstep]
    rfl

/-- An operation that fails only for the divisor zero folds whole numbers to a whole number, or
fails because of a divisor zero. -/
theorem fold_divide (hop : ∀ a b, op.int a b =
      if b == 0 then Arguments.fault .divisionByZero else .ok (f a b))
    (who : String) (a : Int64) (ns : List Int64) :
    op.fold who (.int a) (ns.map .int) =
      if 0 ∈ ns then .error (.runtime .divisionByZero) else .ok (.int (ns.foldl f a)) := by
  induction ns generalizing a with
  | nil => rfl
  | cons n ns ih =>
    change (op.apply (.int a) (.int n) >>= fun acc => op.fold who acc (ns.map .int)) = _
    by_cases hn : n = 0
    · subst hn
      have hstep : op.apply (.int a) (.int 0) = .error (.runtime .divisionByZero) := by
        simp only [apply, hop]
        rfl
      rw [hstep, if_pos List.mem_cons_self]
      rfl
    · have hstep : op.apply (.int a) (.int n) = .ok (.int (f a n)) := by
        simp only [apply, hop, beq_iff_eq, hn, if_false]
        rfl
      have hmem : 0 ∈ n :: ns ↔ 0 ∈ ns := by simp [Ne.symm hn]
      rw [hstep]
      simp only [hmem, List.foldl_cons]
      exact ih (f a n)

end Arithmetic.Operation

/-- A result that fails for one reason only. -/
theorem error_iff {α : Type} {c : Prop} [Decidable c] {e e' : Error} {a : α} :
    (if c then .error e' else .ok a : Result α) = .error e ↔ c ∧ e = e' := by
  split <;> simp_all [eq_comm]

namespace Arithmetic

open Operation

theorem call_add (ns : List Int64) :
    Primitive.add.call (ns.map .int) = .ok (.int (ns.foldl (· + ·) 0)) := by
  change (Operation.add.fold "+" (.int 0) (ns.map .int)).map term = _
  rw [fold_int (f := (· + ·)) fun _ _ => rfl]
  rfl

theorem call_mul (ns : List Int64) :
    Primitive.mul.call (ns.map .int) = .ok (.int (ns.foldl (· * ·) 1)) := by
  change (Operation.mul.fold "*" (.int 1) (ns.map .int)).map term = _
  rw [fold_int (f := (· * ·)) fun _ _ => rfl]
  rfl

theorem call_sub (a b : Int64) (ns : List Int64) :
    Primitive.sub.call ((a :: b :: ns).map .int) = .ok (.int ((b :: ns).foldl (· - ·) a)) := by
  change (Operation.sub.fold "-" (.int a) ((b :: ns).map .int)).map term = _
  rw [fold_int (f := (· - ·)) fun _ _ => rfl]
  rfl

theorem call_div (a b : Int64) (ns : List Int64) :
    Primitive.div.call ((a :: b :: ns).map .int) =
      if 0 ∈ b :: ns then .error (.runtime .divisionByZero)
      else .ok (.int ((b :: ns).foldl (· / ·) a)) := by
  change (Operation.div.fold "/" (.int a) ((b :: ns).map .int)).map term = _
  rw [fold_divide (f := (· / ·)) fun _ _ => rfl]
  split <;> rfl

/-- A single argument is a divisor. -/
theorem call_div_one (b : Int64) :
    Primitive.div.call [.int b] =
      if 0 ∈ [b] then .error (.runtime .divisionByZero) else .ok (.int (1 / b)) := by
  change (Operation.div.fold "/" (.int 1) ([b].map .int)).map term = _
  rw [fold_divide (f := (· / ·)) fun _ _ => rfl]
  split <;> rfl

theorem call_mod (a b : Int64) :
    Primitive.mod.call [.int a, .int b] =
      if 0 ∈ [b] then .error (.runtime .divisionByZero) else .ok (.int (a % b)) := by
  change (Operation.mod.fold "mod" (.int a) ([b].map .int)).map term = _
  rw [fold_divide (f := (· % ·)) fun _ _ => rfl]
  split <;> rfl

/-- Quotient and remainder give the dividend back. Where the quotient wraps around, so does its
product with the divisor. -/
theorem mul_div_add_mod (a b : Int64) : b * (a / b) + a % b = a := by
  have hdiv : Congruent (a / b) (a.toInt.tdiv b.toInt) := .of_bmod (Int64.toInt_div a b)
  have hmod : Congruent (a % b) (a.toInt.tmod b.toInt) := by
    rw [← Int64.toInt_mod]
    exact .toInt _
  have h : Congruent (b * (a / b) + a % b) (b.toInt * a.toInt.tdiv b.toInt + a.toInt.tmod b.toInt) :=
    ((Congruent.toInt b).mul hdiv).add hmod
  rw [Int.mul_tdiv_add_tmod] at h
  exact h.unique (.toInt a)

/-- A remainder that is not zero has the sign of the dividend. -/
theorem mod_sign (a b : Int64) : a % b = 0 ∨ (a % b).toInt.sign = a.toInt.sign := by
  rw [← Int64.toInt_inj, Int64.toInt_mod, Int.sign_tmod]
  by_cases h : b.toInt ∣ a.toInt
  · exact .inl (Int.tmod_eq_zero_of_dvd h)
  · exact .inr (if_neg h)

theorem mod_lt {a b : Int64} (hb : b ≠ 0) : (a % b).toInt.natAbs < b.toInt.natAbs := by
  have hb : b.toInt ≠ 0 := fun h => hb (Int64.toInt_inj.mp h)
  rw [Int64.toInt_mod, Int.natAbs_tmod]
  exact Nat.mod_lt _ (Int.natAbs_pos.mpr hb)

end Arithmetic

/-! ## Order and grouping -/

/-- Whole numbers in nested calls of one function. -/
inductive Grouping
  | number (n : Int64)
  | call (args : List Grouping)

namespace Grouping

mutual

def value (f : List Term → Result Term) : Grouping → Result Term
  | number n => .ok (.int n)
  | call args => do f (← values f args)

def values (f : List Term → Result Term) : List Grouping → Result (List Term)
  | [] => .ok []
  | g :: gs => do
    let t ← value f g
    let ts ← values f gs
    return t :: ts

end

mutual

def numbers : Grouping → List Int64
  | number n => [n]
  | call args => allNumbers args

def allNumbers : List Grouping → List Int64
  | [] => []
  | g :: gs => numbers g ++ allNumbers gs

end

variable {call : List Term → Result Term} {f : Int64 → Int64 → Int64} {unit : Int64}

theorem foldl_eq [Std.Associative f] [Std.LawfulIdentity f unit] (a : Int64) (ns : List Int64) :
    ns.foldl f a = f a (ns.foldl f unit) := by
  have hunit : f a unit = a := Std.LawfulRightIdentity.right_id a
  calc ns.foldl f a = ns.foldl f (f a unit) := by rw [hunit]
    _ = f a (ns.foldl f unit) := List.foldl_assoc

mutual

/-- Nested calls of an associative function give what one call on all the numbers gives. -/
theorem value_eq [Std.Associative f] [Std.LawfulIdentity f unit]
    (hcall : ∀ ns : List Int64, call (ns.map .int) = .ok (.int (ns.foldl f unit))) :
    (g : Grouping) → g.value call = .ok (.int (g.numbers.foldl f unit))
  | .number n => by
    have hunit : f unit n = n := Std.LawfulLeftIdentity.left_id n
    rw [value, numbers, List.foldl_cons, hunit, List.foldl_nil]
  | .call args => by
    obtain ⟨ns, hns, hfold⟩ := values_eq hcall args
    rw [value, numbers, hns, ← hfold]
    exact hcall ns

theorem values_eq [Std.Associative f] [Std.LawfulIdentity f unit]
    (hcall : ∀ ns : List Int64, call (ns.map .int) = .ok (.int (ns.foldl f unit))) :
    (gs : List Grouping) → ∃ ns : List Int64, values call gs = .ok (ns.map .int) ∧
      ns.foldl f unit = (allNumbers gs).foldl f unit
  | [] => ⟨[], rfl, rfl⟩
  | g :: gs => by
    obtain ⟨ns, hns, hfold⟩ := values_eq hcall gs
    have hunit (n : Int64) : f unit n = n := Std.LawfulLeftIdentity.left_id n
    refine ⟨g.numbers.foldl f unit :: ns, ?_, ?_⟩
    · rw [values, value_eq hcall g, hns]
      rfl
    · calc (g.numbers.foldl f unit :: ns).foldl f unit
          = ns.foldl f (g.numbers.foldl f unit) := by rw [List.foldl_cons, hunit]
        _ = f (g.numbers.foldl f unit) (ns.foldl f unit) := foldl_eq _ ns
        _ = f (g.numbers.foldl f unit) ((allNumbers gs).foldl f unit) := by rw [hfold]
        _ = (allNumbers gs).foldl f (g.numbers.foldl f unit) := (foldl_eq _ _).symm
        _ = (allNumbers (g :: gs)).foldl f unit := by rw [allNumbers, List.foldl_append]

end

end Grouping

/-! ## Which results are whole -/

theorem eq_of_map_ok {α β : Type} {r : Result α} {f : α → β} {b : β} (h : r.map f = .ok b) :
    ∃ a, r = .ok a ∧ b = f a := by
  cases r with
  | error e => cases h
  | ok a =>
    cases h
    exact ⟨a, rfl, rfl⟩

namespace Arithmetic

def Whole (x : Numeral) : Prop := ∃ n, x = .int n

theorem whole_int (n : Int64) : Whole (.int n) := ⟨n, rfl⟩

theorem number_term (who : String) (x : Numeral) : Arguments.number who (term x) = .ok x := by
  cases x <;> rfl

namespace Operation

variable {op : Operation} {who : String} {unit : Int64} {x y z : Numeral} {ys : List Numeral}

theorem apply_whole (h : op.apply x y = .ok z) : Whole z ↔ Whole x ∧ Whole y := by
  cases x with
  | int a =>
    cases y with
    | int b =>
      obtain ⟨n, -, rfl⟩ := eq_of_map_ok h
      simp [whole_int]
    | float b =>
      cases h
      simp [Whole]
  | float a =>
    cases h
    simp [Whole]

/-- A float anywhere makes the result a float. -/
theorem fold_whole (h : op.fold who x (ys.map term) = .ok z) :
    Whole z ↔ Whole x ∧ ∀ y ∈ ys, Whole y := by
  induction ys generalizing x with
  | nil =>
    obtain rfl : x = z := by simpa [fold] using h
    simp
  | cons y ys ih =>
    simp only [List.map_cons, fold, number_term] at h
    change (op.apply x y >>= fun acc => op.fold who acc (ys.map term)) = .ok z at h
    cases hacc : op.apply x y with
    | error e =>
      rw [hacc] at h
      cases h
    | ok acc =>
      rw [hacc] at h
      rw [ih h, apply_whole hacc, List.forall_mem_cons, and_assoc]

theorem reduce_whole (h : op.reduce who unit (ys.map term) = .ok z) :
    Whole z ↔ ∀ y ∈ ys, Whole y := by
  match ys, h with
  | [], h => cases h
  | [y], h =>
    change op.fold who (.int unit) ([y].map term) = .ok z at h
    simpa [whole_int] using fold_whole h
  | x :: y :: ys, h =>
    simp only [List.map_cons, reduce, number_term] at h
    rw [List.forall_mem_cons]
    exact fold_whole h

end Operation

theorem call_whole {p : Primitive} (hp : p ∈ [Primitive.add, .sub, .mul, .div])
    {xs : List Numeral} {t : Term} (h : p.call (xs.map term) = .ok t) :
    ∃ z, t = term z ∧ (Whole z ↔ ∀ x ∈ xs, Whole x) := by
  simp only [List.mem_cons, List.not_mem_nil, or_false] at hp
  rcases hp with rfl | rfl | rfl | rfl
  · obtain ⟨z, hz, rfl⟩ := eq_of_map_ok h
    exact ⟨z, rfl, by simpa [whole_int] using Operation.fold_whole hz⟩
  · obtain ⟨z, hz, rfl⟩ := eq_of_map_ok h
    exact ⟨z, rfl, Operation.reduce_whole hz⟩
  · obtain ⟨z, hz, rfl⟩ := eq_of_map_ok h
    exact ⟨z, rfl, by simpa [whole_int] using Operation.fold_whole hz⟩
  · obtain ⟨z, hz, rfl⟩ := eq_of_map_ok h
    exact ⟨z, rfl, Operation.reduce_whole hz⟩

end Arithmetic

/-! ## The arithmetic functions -/

/-- Sums, products and differences of whole numbers are exact modulo 2^64, sums and products in
any order and grouping. Quotient and remainder exist unless a divisor is zero, also for the least
number divided by -1, and fit together; a zero among the divisors is the only way to fail. A
result is whole exactly if all arguments are. -/
theorem integer_arithmetic :
    (∀ ns : List Int64, ∃ n, Primitive.add.call (ns.map .int) = .ok (.int n) ∧
      ∀ m, Congruent m (ns.map Int64.toInt).sum ↔ m = n) ∧
    (∀ ns : List Int64, ∃ n, Primitive.mul.call (ns.map .int) = .ok (.int n) ∧
      ∀ m, Congruent m (ns.map Int64.toInt).prod ↔ m = n) ∧
    (∀ (g : Grouping) (ns : List Int64), g.numbers.Perm ns →
      g.value Primitive.add.call = Primitive.add.call (ns.map .int) ∧
      g.value Primitive.mul.call = Primitive.mul.call (ns.map .int)) ∧
    (∀ (a b : Int64) (ns : List Int64), ∃ n,
      Primitive.sub.call ((a :: b :: ns).map .int) = .ok (.int n) ∧
      ∀ m, Congruent m (a.toInt - ((b :: ns).map Int64.toInt).sum) ↔ m = n) ∧
    (∀ a b : Int64, b ≠ 0 → ∃ q r p : Int64,
      Primitive.div.call [.int a, .int b] = .ok (.int q) ∧
      Primitive.mod.call [.int a, .int b] = .ok (.int r) ∧
      (r = 0 ∨ r.toInt.sign = a.toInt.sign) ∧ r.toInt.natAbs < b.toInt.natAbs ∧
      Primitive.mul.call [.int b, .int q] = .ok (.int p) ∧
      Primitive.add.call [.int p, .int r] = .ok (.int a)) ∧
    (∀ op ∈ [Arithmetic.Operation.div, .mod], ∀ (who : String) (a : Int64) (ns : List Int64) e,
      op.fold who (.int a) (ns.map .int) = .error e ↔ 0 ∈ ns ∧ e = .runtime .divisionByZero) ∧
    (∀ (a b : Int64) (ns : List Int64) e,
      Primitive.div.call ((a :: b :: ns).map .int) = .error e ↔
        0 ∈ b :: ns ∧ e = .runtime .divisionByZero) ∧
    (∀ (b : Int64) e,
      Primitive.div.call [.int b] = .error e ↔ 0 ∈ [b] ∧ e = .runtime .divisionByZero) ∧
    (∀ (a b : Int64) e,
      Primitive.mod.call [.int a, .int b] = .error e ↔ 0 ∈ [b] ∧ e = .runtime .divisionByZero) ∧
    (∀ p ∈ [Primitive.add, .sub, .mul, .div], ∀ (xs : List Numeral) (t : Term),
      p.call (xs.map Arithmetic.term) = .ok t →
        ∃ z, t = Arithmetic.term z ∧ (Arithmetic.Whole z ↔ ∀ x ∈ xs, Arithmetic.Whole x)) := by
  refine ⟨fun ns => ?sum, fun ns => ?product, fun g ns hperm => ⟨?sums, ?products⟩,
    fun a b ns => ?difference, fun a b hb => ?quotient, fun op hop who a ns e => ?fold,
    fun a b ns e => ?divisors, fun b e => ?divisor, fun a b e => ?modulus,
    fun p hp xs t h => Arithmetic.call_whole hp h⟩
  case sum =>
    have h := Congruent.foldl_add (.toInt 0) ns
    rw [Int64.toInt_zero, Int.zero_add] at h
    exact ⟨_, Arithmetic.call_add ns, fun _ => h.iff_eq⟩
  case product =>
    have h := Congruent.foldl_mul (.toInt 1) ns
    rw [Int64.toInt_one, Int.one_mul] at h
    exact ⟨_, Arithmetic.call_mul ns, fun _ => h.iff_eq⟩
  case sums =>
    rw [Grouping.value_eq Arithmetic.call_add, Arithmetic.call_add, hperm.foldl_eq]
  case products =>
    rw [Grouping.value_eq Arithmetic.call_mul, Arithmetic.call_mul, hperm.foldl_eq]
  case difference =>
    exact ⟨_, Arithmetic.call_sub a b ns, fun _ => (Congruent.foldl_sub (.toInt a) (b :: ns)).iff_eq⟩
  case quotient =>
    have hdivisor : 0 ∉ [b] := by simpa using Ne.symm hb
    refine ⟨a / b, a % b, b * (a / b), ?_, ?_, Arithmetic.mod_sign a b, Arithmetic.mod_lt hb, ?_, ?_⟩
    · exact (Arithmetic.call_div a b []).trans (if_neg hdivisor)
    · exact (Arithmetic.call_mod a b).trans (if_neg hdivisor)
    · simpa using Arithmetic.call_mul [b, a / b]
    · simpa [Arithmetic.mul_div_add_mod] using Arithmetic.call_add [b * (a / b), a % b]
  case fold =>
    obtain rfl | rfl : op = .div ∨ op = .mod := by simpa using hop
    · rw [Arithmetic.Operation.fold_divide (f := (· / ·)) fun _ _ => rfl, error_iff]
    · rw [Arithmetic.Operation.fold_divide (f := (· % ·)) fun _ _ => rfl, error_iff]
  case divisors => rw [Arithmetic.call_div, error_iff]
  case divisor => rw [Arithmetic.call_div_one, error_iff]
  case modulus => rw [Arithmetic.call_mod, error_iff]

/-- The least number divided by -1 wraps around to itself, and a sum may be grouped from the right
as well; a whole sum had whole arguments only. -/
theorem least_divided : (Int64.minValue ≠ 0 ∧ (-1 : Int64) ≠ 0) ∧
    (∃ q r p : Int64, Primitive.div.call [.int Int64.minValue, .int (-1)] = .ok (.int q) ∧
      Primitive.mod.call [.int Int64.minValue, .int (-1)] = .ok (.int r) ∧
      (r = 0 ∨ r.toInt.sign = Int64.minValue.toInt.sign) ∧
      r.toInt.natAbs < (-1 : Int64).toInt.natAbs ∧
      Primitive.mul.call [.int (-1), .int q] = .ok (.int p) ∧
      Primitive.add.call [.int p, .int r] = .ok (.int Int64.minValue)) ∧
    (Grouping.call [.number 1, .call [.number 2, .number 3]]).value Primitive.add.call =
      Primitive.add.call ([3, 1, 2].map Term.int) ∧
    (∀ e, Arithmetic.Operation.mod.fold "mod" (.int 7) ([2, 0].map Term.int) = .error e ↔
      0 ∈ ([2, 0] : List Int64) ∧ e = .runtime .divisionByZero) ∧
    ∃ z, Term.int 3 = Arithmetic.term z ∧
      (Arithmetic.Whole z ↔ ∀ x ∈ [Numeral.int 1, .int 2], Arithmetic.Whole x) := by
  obtain ⟨-, -, hgroup, -, hdiv, hfold, -, -, -, hwhole⟩ := integer_arithmetic
  have hperm : (Grouping.call [.number 1, .call [.number 2, .number 3]]).numbers.Perm
      [3, 1, 2] := by decide
  exact ⟨⟨by decide, by decide⟩, hdiv _ _ (by decide), (hgroup _ _ hperm).1,
    hfold .mod (by simp) "mod" 7 [2, 0], hwhole .add (by simp) [.int 1, .int 2] _ rfl⟩

end SmallLisp

import Mathlib
import SmallLisp.Number.Scaled

/-! The value of a float in units, and the way back. Rounding gives every value that a float has
the bits of that float (`nearestBits_magnitude`), and gives a value to any other
(`magnitude_nearestBits_eq_iff`). A whole number is a float exactly when it has at most 53
significant bits (`units_ofInt_eq_iff`). -/
namespace SmallLisp.Scaled

open Float.Model Float.Model.UnpackedFloat

/-! ## Exponent and mantissa -/

def exponent (bits : Nat) : Nat := bits / 2 ^ 52 % 2048

def mantissa (bits : Nat) : Nat := bits % 2 ^ 52

theorem magnitude_eq (bits : Nat) :
    magnitude bits = if exponent bits = 0 then mantissa bits
      else (2 ^ 52 + mantissa bits) * 2 ^ (exponent bits - 1) := by
  simp only [magnitude, Nat.pow_eq]
  rfl

theorem unpackExponent_eq_ones_iff (w : BitVec Format.binary64.numBits) :
    unpackExponent w = -1#_ ↔ exponent w.toNat = 2047 := by
  rw [← BitVec.toNat_inj]
  simp [unpackExponent, exponent, Nat.shiftRight_eq_div_pow]

/-- The bits of a finite value are kept. Those of what is no number become the ones that all such
floats share. -/
theorem toBits_ofBits {w : UInt64} (h : exponent w.toNat ≠ 2047) : (Float.ofBits w).toBits = w := by
  have hvalid : Format.binary64.Valid w.toBitVec :=
    ⟨fun hones _ => absurd ((unpackExponent_eq_ones_iff _).mp hones) h⟩
  exact UInt64.toBitVec_inj.mp (pack_unpack_of_valid hvalid)

theorem isNaN_of_exponent {x : Float} (h : exponent x.toBits.toNat ≠ 2047) : x.isNaN = false := by
  have hnan : exponent Float.nan.toBits.toNat = 2047 := by decide +kernel
  rw [Float.isNaN_eq_decide_eq_nan, decide_eq_false_iff_not]
  rintro rfl
  exact h hnan

theorem isFinite_unpack {w : BitVec Format.binary64.numBits} (h : exponent w.toNat ≠ 2047) :
    (UnpackedFloat.unpack .binary64 w).isFinite = true := by
  rw [UnpackedFloat.unpack, if_neg (mt (unpackExponent_eq_ones_iff w).mp h)]
  repeat' split
  all_goals rfl

theorem isFinite_of_exponent {x : Float} (h : exponent x.toBits.toNat ≠ 2047) :
    x.isFinite = true := isFinite_unpack h

/-! ## Significand and scale -/

theorem magnitude_fields {e m : Nat} (he : e < 2048) (hm : m < 2 ^ 52) :
    magnitude (e * 2 ^ 52 + m) = if e = 0 then m else (2 ^ 52 + m) * 2 ^ (e - 1) := by
  have hexponent : exponent (e * 2 ^ 52 + m) = e := by
    unfold exponent
    omega
  have hmantissa : mantissa (e * 2 ^ 52 + m) = m := by
    unfold mantissa
    omega
  rw [magnitude_eq, hexponent, hmantissa]

/-- The bits of `q` times 2^s. Only at the least scale is the significand `q` a short one; what is
carried out of it goes into the scale. -/
theorem magnitude_scaled {s q : Nat} (hq : q ≤ 2 ^ 53) (hs : s = 0 ∨ 2 ^ 52 ≤ q)
    (hlt : s * 2 ^ 52 + q < 2 ^ 63) : magnitude (s * 2 ^ 52 + q) = q * 2 ^ s := by
  rcases Nat.lt_or_ge q (2 ^ 52) with hshort | hlong
  · obtain rfl : s = 0 := by omega
    rw [magnitude_fields (by omega) hshort, if_pos rfl, Nat.pow_zero, Nat.mul_one]
  · rcases Nat.lt_or_eq_of_le hq with hq | rfl
    · have hbits : s * 2 ^ 52 + q = (s + 1) * 2 ^ 52 + (q - 2 ^ 52) := by omega
      rw [hbits, magnitude_fields (by omega) (by omega), if_neg (by omega),
        Nat.add_sub_cancel' hlong, Nat.add_sub_cancel]
    · have hbits : s * 2 ^ 52 + 2 ^ 53 = (s + 2) * 2 ^ 52 + 0 := by omega
      have hpow : 2 ^ (s + 1) = 2 * 2 ^ s := Nat.pow_succ'
      rw [hbits, magnitude_fields (by omega) (by decide), if_neg (by omega),
        show s + 2 - 1 = s + 1 by omega, hpow]
      omega

/-- All bits without a sign are of this form. -/
theorem exists_scaled {b : Nat} (hb : b < 2 ^ 63) :
    ∃ s q, b = s * 2 ^ 52 + q ∧ q < 2 ^ 53 ∧ (s = 0 ∨ 2 ^ 52 ≤ q) := by
  rcases Nat.lt_or_ge b (2 ^ 52) with hb | hb
  · exact ⟨0, b, by omega, by omega, .inl rfl⟩
  · exact ⟨b / 2 ^ 52 - 1, b % 2 ^ 52 + 2 ^ 52, by omega, by omega, .inr (by omega)⟩

theorem log2_mul_two_pow {m : Nat} (hm : m ≠ 0) (k : Nat) : (m * 2 ^ k).log2 = m.log2 + k := by
  have hpow := Nat.two_pow_pos k
  have hne : m * 2 ^ k ≠ 0 := Nat.mul_ne_zero hm (by omega)
  rw [Nat.log2_eq_iff hne]
  constructor
  · rw [Nat.pow_add]
    exact Nat.mul_le_mul_right _ (Nat.log2_self_le hm)
  · rw [Nat.add_right_comm, Nat.pow_add _ _ k]
    exact Nat.mul_lt_mul_of_pos_right Nat.lt_log2_self hpow

/-- The scale of a value can be read off its length. -/
theorem log2_scaled {s q : Nat} (hq : q < 2 ^ 53) (hs : s = 0 ∨ 2 ^ 52 ≤ q) :
    (q * 2 ^ s).log2 - 52 = s := by
  rcases Nat.eq_zero_or_pos q with rfl | hpos
  · obtain rfl : s = 0 := by omega
    rfl
  · have hlog : q.log2 < 53 := (Nat.log2_lt (by omega)).mpr hq
    rw [log2_mul_two_pow (by omega)]
    rcases hs with rfl | hlong
    · omega
    · have := (Nat.le_log2 (by omega)).mpr hlong
      omega

/-! ## Rounding -/

def significand (n : Nat) : Nat := n / 2 ^ (n.log2 - 52)

theorem significand_lt (n : Nat) : significand n < 2 ^ 53 := by
  unfold significand
  rw [Nat.div_lt_iff_lt_mul (Nat.two_pow_pos _), ← Nat.pow_add]
  calc n < 2 ^ (n.log2 + 1) := Nat.lt_log2_self
    _ ≤ 2 ^ (53 + (n.log2 - 52)) := Nat.pow_le_pow_right (by decide) (by omega)

theorem le_significand (n : Nat) : n.log2 - 52 = 0 ∨ 2 ^ 52 ≤ significand n := by
  rcases Nat.le_total n.log2 52 with h | h
  · exact .inl (by omega)
  · refine .inr ?_
    unfold significand
    rw [Nat.le_div_iff_mul_le (Nat.two_pow_pos _), ← Nat.pow_add]
    have hn : n ≠ 0 := by
      rintro rfl
      simp at h
    calc 2 ^ (52 + (n.log2 - 52)) = 2 ^ n.log2 := by congr 1; omega
      _ ≤ n := Nat.log2_self_le hn

/-- Rounding takes the significand or the one above it, and the one above only if something is
lost. -/
theorem nearestBits_one (n : Nat) :
    ∃ up, up ≤ 1 ∧ (2 ^ (n.log2 - 52) ∣ n → up = 0) ∧
      nearestBits n 1 = (n.log2 - 52) * 2 ^ 52 + (significand n + up) := by
  simp only [nearestBits, Nat.div_one, Nat.one_mul, Nat.pow_eq, Nat.add_assoc]
  refine ⟨_, ?_, fun hdvd => ?_, rfl⟩
  · split <;> omega
  · have hstep := Nat.two_pow_pos (n.log2 - 52)
    rw [Nat.mod_eq_zero_of_dvd hdvd]
    simp
    omega

theorem nearestBits_lt {n : Nat} (hn : n.log2 < 2097) : nearestBits n 1 < infinityBits := by
  obtain ⟨up, hup, -, hbits⟩ := nearestBits_one n
  have hq := significand_lt n
  have hinf : infinityBits = 2047 * 2 ^ 52 := rfl
  omega

/-- A value of at most 53 significant bits is kept. Any other becomes a multiple of its last
significant bit, and so is not. -/
theorem magnitude_nearestBits_eq_iff {n : Nat} (hn : nearestBits n 1 < infinityBits) :
    magnitude (nearestBits n 1) = n ↔ 2 ^ (n.log2 - 52) ∣ n := by
  obtain ⟨up, hup, hexact, hbits⟩ := nearestBits_one n
  have hlt : infinityBits < 2 ^ 63 := by decide
  have hq := significand_lt n
  have hs := le_significand n
  rw [hbits] at hn ⊢
  rw [magnitude_scaled (by omega) (by omega) (by omega)]
  constructor
  · intro h
    exact ⟨_, (h.symm.trans (Nat.mul_comm _ _))⟩
  · intro hdvd
    rw [hexact hdvd, Nat.add_zero]
    exact Nat.div_mul_cancel hdvd

/-- The bits of a value are found again. -/
theorem nearestBits_magnitude {b : Nat} (hb : b < 2 ^ 63) : nearestBits (magnitude b) 1 = b := by
  obtain ⟨s, q, rfl, hq, hs⟩ := exists_scaled hb
  rw [magnitude_scaled (by omega) hs hb]
  obtain ⟨up, -, hexact, hbits⟩ := nearestBits_one (q * 2 ^ s)
  rw [log2_scaled hq hs] at hexact hbits
  rw [hbits, hexact (Nat.dvd_mul_left _ _), significand, log2_scaled hq hs,
    Nat.mul_div_cancel _ (Nat.two_pow_pos s), Nat.add_zero]

/-! ## Floats -/

theorem magnitude_low (b : Nat) : magnitude (b % 2 ^ 63) = magnitude b := by
  have he : exponent (b % 2 ^ 63) = exponent b := by
    unfold exponent
    omega
  have hm : mantissa (b % 2 ^ 63) = mantissa b := by
    unfold mantissa
    omega
  rw [magnitude_eq, magnitude_eq, he, hm]

theorem units_eq (x : Float) : units x =
    if 2 ^ 63 ≤ x.toBits.toNat then -(magnitude x.toBits.toNat : Int)
    else magnitude x.toBits.toNat := by
  simp [units, isNegative]

theorem natAbs_units (x : Float) : (units x).natAbs = magnitude (x.toBits.toNat % 2 ^ 63) := by
  rw [magnitude_low, units_eq]
  split <;> simp

/-- A float other than zero is determined by its value. -/
theorem eq_of_units_eq {x y : Float} (h : units x = units y) (h0 : units x ≠ 0) : x = y := by
  have hlow : x.toBits.toNat % 2 ^ 63 = y.toBits.toNat % 2 ^ 63 := by
    have hm := congrArg (fun n => nearestBits n 1) (congrArg Int.natAbs h)
    simp only [natAbs_units] at hm
    rwa [nearestBits_magnitude (Nat.mod_lt _ (by decide)),
      nearestBits_magnitude (Nat.mod_lt _ (by decide))] at hm
  have hx := x.toBits.toNat_lt
  have hy := y.toBits.toNat_lt
  rw [← Float.toBits_inj, ← UInt64.toNat_inj]
  rw [units_eq] at h h0
  rw [units_eq] at h
  -- Values of opposite signs are equal only at zero.
  split at h <;> split at h <;> omega

theorem toBits_nearest (negative : Bool) {num den : Nat} (h : nearestBits num den < infinityBits) :
    (nearest negative num den).toBits.toNat =
      (if negative then 2 ^ 63 else 0) + nearestBits num den := by
  have hinf : infinityBits = 2047 * 2 ^ 52 := rfl
  have hw : (UInt64.ofNat ((if negative then 2 ^ 63 else 0) + nearestBits num den)).toNat =
      (if negative then 2 ^ 63 else 0) + nearestBits num den := by
    rw [UInt64.toNat_ofNat', Nat.mod_eq_of_lt]
    split <;> omega
  have hbits : nearest negative num den =
      Float.ofBits (UInt64.ofNat ((if negative then 2 ^ 63 else 0) + nearestBits num den)) := by
    simp only [nearest, Nat.min_eq_left (Nat.le_of_lt h), Nat.pow_eq]
    cases negative <;> simp
  rw [hbits, toBits_ofBits, hw]
  rw [hw]
  unfold exponent
  split <;> omega

/-- The value of a rounded ratio is the value of its bits, with its sign. -/
theorem units_nearest (negative : Bool) {num den : Nat} (h : nearestBits num den < infinityBits) :
    units (nearest negative num den) =
      if negative then -(magnitude (nearestBits num den) : Int)
      else magnitude (nearestBits num den) := by
  have hinf : infinityBits = 2047 * 2 ^ 52 := rfl
  rw [units_eq, toBits_nearest negative h]
  cases negative with
  | false =>
    simp only [Bool.false_eq_true, if_false, Nat.zero_add]
    rw [if_neg (by omega)]
  | true =>
    simp only [if_true]
    rw [if_pos (Nat.le_add_right _ _), ← magnitude_low, Nat.add_mod_left,
      Nat.mod_eq_of_lt (by omega)]

theorem isNaN_nearest (negative : Bool) {num den : Nat} (h : nearestBits num den < infinityBits) :
    (nearest negative num den).isNaN = false := by
  have hinf : infinityBits = 2047 * 2 ^ 52 := rfl
  refine isNaN_of_exponent ?_
  rw [toBits_nearest negative h]
  unfold exponent
  split <;> omega

/-! ## Whole numbers -/

/-- How many binary places a unit lies below one. -/
def places : Nat := 1074

theorem one_eq : one = 2 ^ places := Nat.pow_eq

theorem one_pos : 0 < one := by
  rw [one_eq]
  exact Nat.two_pow_pos _

theorem log2_mul_one {m : Nat} (hm : m ≠ 0) : (m * one).log2 = m.log2 + places := by
  rw [one_eq, log2_mul_two_pow hm]

/-- Every 64-bit whole number is far below the largest float. -/
theorem nearestBits_mul_one_lt {m : Nat} (hm : m ≤ 2 ^ 63) :
    nearestBits (m * one) 1 < infinityBits := by
  refine nearestBits_lt ?_
  rcases Nat.eq_zero_or_pos m with rfl | hpos
  · simp
  · have hlog : m.log2 < 64 := (Nat.log2_lt (by omega)).mpr (by omega)
    have hplaces : places = 1074 := rfl
    rw [log2_mul_one (by omega)]
    omega

theorem units_ofInt {n : Int} (hn : n.natAbs ≤ 2 ^ 63) : units (ofInt n) =
    if n < 0 then -(magnitude (nearestBits (n.natAbs * one) 1) : Int)
    else magnitude (nearestBits (n.natAbs * one) 1) := by
  rw [ofInt, units_nearest _ (nearestBits_mul_one_lt hn)]
  simp

theorem isNaN_ofInt {n : Int} (hn : n.natAbs ≤ 2 ^ 63) : (ofInt n).isNaN = false :=
  isNaN_nearest _ (nearestBits_mul_one_lt hn)

theorem units_ofInt_eq_iff_magnitude {n : Int} (hn : n.natAbs ≤ 2 ^ 63) :
    units (ofInt n) = n * one ↔
      magnitude (nearestBits (n.natAbs * one) 1) = n.natAbs * one := by
  rw [units_ofInt hn, ← Int.natCast_inj, Int.natCast_mul]
  rcases Int.lt_or_le n 0 with hneg | hpos
  · have habs : (n.natAbs : Int) = -n := by omega
    rw [if_pos hneg, habs, Int.neg_mul]
    omega
  · have habs : (n.natAbs : Int) = n := by omega
    rw [if_neg (by omega), habs]

theorem dvd_mul_one_iff (m : Nat) :
    2 ^ ((m * one).log2 - 52) ∣ m * one ↔ 2 ^ (m.log2 - 52) ∣ m := by
  rcases Nat.eq_zero_or_pos m with rfl | hpos
  · simp
  · have hplaces : places = 1074 := rfl
    rw [log2_mul_one (by omega), one_eq]
    rcases Nat.le_total 52 m.log2 with hlong | hshort
    · rw [show m.log2 + places - 52 = m.log2 - 52 + places by omega, Nat.pow_add]
      exact Nat.mul_dvd_mul_iff_right (Nat.two_pow_pos _)
    · rw [show m.log2 - 52 = 0 by omega]
      refine iff_of_true ?_ (Nat.one_dvd m)
      exact Nat.dvd_mul_left_of_dvd (Nat.pow_dvd_pow 2 (by omega)) m

/-- A whole number is a float exactly when it has at most 53 significant bits. -/
theorem units_ofInt_eq_iff {n : Int} (hn : n.natAbs ≤ 2 ^ 63) :
    units (ofInt n) = n * one ↔ 2 ^ (n.natAbs.log2 - 52) ∣ n.natAbs := by
  rw [units_ofInt_eq_iff_magnitude hn, magnitude_nearestBits_eq_iff (nearestBits_mul_one_lt hn),
    dvd_mul_one_iff]

theorem low_of_units_eq {x : Float} {n : Int} (h : units x = n * one) :
    magnitude (x.toBits.toNat % 2 ^ 63) = n.natAbs * one := by
  rw [← natAbs_units, h, Int.natAbs_mul, Int.natAbs_natCast]

/-- A whole number that is the value of some float is not changed when it is made a float. -/
theorem units_ofInt_of_units_eq {x : Float} {n : Int} (hn : n.natAbs ≤ 2 ^ 63)
    (h : units x = n * one) : units (ofInt n) = n * one := by
  rw [units_ofInt_eq_iff_magnitude hn, ← low_of_units_eq h,
    nearestBits_magnitude (Nat.mod_lt _ (by decide))]

theorem isFinite_of_units_eq {x : Float} {n : Int} (hn : n.natAbs ≤ 2 ^ 63)
    (h : units x = n * one) : x.isFinite = true := by
  have hlt := nearestBits_mul_one_lt hn
  have hinf : infinityBits = 2047 * 2 ^ 52 := rfl
  rw [← low_of_units_eq h, nearestBits_magnitude (Nat.mod_lt _ (by decide))] at hlt
  refine isFinite_of_exponent ?_
  unfold exponent
  omega

/-! ## Comparison -/

theorem same_iff {x y : Float} (hx : x.isNaN = false) (hy : y.isNaN = false) :
    same x y = true ↔ units x = units y := by
  simp only [same, units?, hx, hy, Bool.false_eq_true, if_false, beq_iff_eq]

end SmallLisp.Scaled

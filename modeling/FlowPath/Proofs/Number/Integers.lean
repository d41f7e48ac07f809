import FlowPath.Number.Binary64
import Mathlib

/-!
# Whole numbers as doubles

The double of a whole number below 2^53 is the one that is that number (`IsInt.ofInt_eq`), with the only exception of
the negative zero, whose sign is lost. A finite double is made of its sign, mantissa and exponent
(`exists_of_parts_eq`); on the other side the nearest double of a small whole number is exact (`nearestBits_exact`),
with the mantissa that the number has when it is moved up to 53 bits.
-/

namespace FlowPath.Binary64

/-- The bits of a double below its sign, from the exponent and the fraction. -/
theorem ofMagnitude_parts (x : Float) :
    ofMagnitude (decide (signBit ≤ x.toBits.toNat))
      (x.toBits.toNat / leastNormal % 2048 * leastNormal + x.toBits.toNat % leastNormal) = x := by
  have hbits : x.toBits.toNat < 2 ^ 64 := x.toBits.toNat_lt
  have hsum : x.toBits.toNat / leastNormal % 2048 * leastNormal + x.toBits.toNat % leastNormal +
      (if decide (signBit ≤ x.toBits.toNat) then signBit else 0) = x.toBits.toNat := by
    by_cases hsign : signBit ≤ x.toBits.toNat <;> simp only [hsign, decide_true, decide_false, if_true] <;>
      simp only [signBit, leastNormal, Bool.false_eq_true, if_false] at hsign ⊢ <;> omega
  rw [ofMagnitude, hsum, UInt64.ofNat_toNat, Float.ofBits_toBits]

/-- What is known of a finite double: its mantissa has at most 53 bits, and less only at the least exponent. -/
theorem exists_of_parts_eq {x : Float} {negative : Bool} {mantissa : Nat} {exponent : Int}
    (h : parts x = .finite negative mantissa exponent) :
    ∃ place : Nat, exponent = place + leastExponent ∧ mantissa < 2 * leastNormal ∧
      (place = 0 ∨ leastNormal ≤ mantissa) ∧ ofMagnitude negative (place * leastNormal + mantissa) = x := by
  have hx := ofMagnitude_parts x
  have hfraction : x.toBits.toNat % leastNormal < leastNormal := Nat.mod_lt _ (by decide)
  unfold parts partsOfBits at h
  dsimp only at h
  split at h
  · split at h <;> cases h
  · split at h
    · rename_i hleast
      cases h
      rw [hleast] at hx
      exact ⟨0, rfl, by omega, .inl rfl, hx⟩
    · rename_i hnormal
      cases h
      refine ⟨x.toBits.toNat / leastNormal % 2048 - 1, ?_, by omega, .inr (Nat.le_add_right ..), ?_⟩
      · rw [leastExponent]
        omega
      · rw [← Nat.add_assoc, ← Nat.succ_mul, Nat.succ_eq_add_one, Nat.sub_add_cancel (Nat.pos_of_ne_zero hnormal)]
        exact hx

/-- A whole number is met exactly, where it has 53 bits with zeros behind it. -/
theorem nearestBits_exact {size places : Nat} (hlow : leastNormal ≤ size * 2 ^ places)
    (hhigh : size * 2 ^ places < 2 * leastNormal) (hplaces : places ≤ 52) :
    nearestBits size 1 = (1074 - places) * leastNormal + size * 2 ^ places := by
  have hpos : 0 < 2 ^ places := Nat.two_pow_pos places
  have hsplit : 2 ^ (52 - places) * 2 ^ places = leastNormal := by
    rw [← pow_add, Nat.sub_add_cancel hplaces]
    rfl
  have hsize : 2 ^ (52 - places) ≤ size ∧ size < 2 ^ (52 - places + 1) := by
    constructor
    · exact Nat.le_of_mul_le_mul_right (hsplit ▸ hlow) hpos
    · refine Nat.lt_of_mul_lt_mul_right (a := 2 ^ places) ?_
      rw [pow_succ, Nat.mul_right_comm, hsplit, Nat.mul_comm leastNormal]
      exact hhigh
  have hzero : size ≠ 0 := by
    rintro rfl
    exact absurd hsize.1 (by simp)
  have hratio : ratioLog2 size 1 = (52 - places : Nat) := by
    have hguess : (size.log2 : Int) - ((1 : Nat).log2 : Int) = (52 - places : Nat) := by
      rw [(Nat.log2_eq_iff hzero).mpr hsize, show Nat.log2 1 = 0 by decide]
      simp
    have hback : (-((52 - places : Nat) : Int)).toNat = 0 := by omega
    rw [ratioLog2, hguess, Int.toNat_natCast, hback, if_pos]
    calc 1 * 2 ^ (52 - places) = 2 ^ (52 - places) := Nat.one_mul _
      _ ≤ size := hsize.1
      _ = size * Nat.pow 2 0 := (Nat.mul_one size).symm
  have hexponent : max (ratioLog2 size 1 - 52) leastExponent = -(places : Int) := by
    rw [hratio, leastExponent]
    omega
  have hround (m : Nat) : roundDiv m 1 = m := by simp [roundDiv, Nat.mod_one]
  have hunit : (-(places : Int)).toNat = 0 := by omega
  have hplace : (-(places : Int) - leastExponent).toNat = 1074 - places := by
    rw [leastExponent]
    omega
  rw [nearestBits, if_neg hzero, hexponent]
  dsimp only
  rw [Int.neg_neg, Int.toNat_natCast, hunit, hplace]
  change min ((1074 - places) * leastNormal + roundDiv (size * 2 ^ places) 1) infinityBits = _
  rw [hround]
  apply Nat.min_eq_left
  simp only [leastNormal, infinityBits] at *
  omega

/-- The double is the whole number: the two powers of two move the point to either side. -/
def IsInt (x : Float) (n : Int) : Prop :=
  ∃ (negative : Bool) (mantissa : Nat) (exponent : Int) (size : Nat),
    parts x = .finite negative mantissa exponent ∧ n = (if negative then -(size : Int) else size) ∧
    mantissa * 2 ^ exponent.toNat = size * 2 ^ (-exponent).toNat

theorem toInt?_eq_some_iff {x : Float} {n : Int} : toInt? x = some n ↔ IsInt x n := by
  constructor
  · intro h
    unfold toInt? at h
    split at h
    · rename_i negative mantissa exponent hparts
      dsimp only at h
      split at h
      · rename_i hwhole
        exact ⟨negative, mantissa, exponent, _, hparts, (Option.some.inj h).symm,
          (Nat.div_mul_cancel (Nat.dvd_of_mod_eq_zero hwhole)).symm⟩
      · cases h
    · cases h
  · rintro ⟨negative, mantissa, exponent, size, hparts, rfl, hsize⟩
    have hwhole : mantissa * Nat.pow 2 exponent.toNat % Nat.pow 2 (-exponent).toNat = 0 := by
      change mantissa * 2 ^ _ % 2 ^ _ = 0
      rw [hsize, Nat.mul_mod_left]
    have hquotient : mantissa * Nat.pow 2 exponent.toNat / Nat.pow 2 (-exponent).toNat = size := by
      change mantissa * 2 ^ _ / 2 ^ _ = size
      rw [hsize, Nat.mul_div_cancel _ (Nat.two_pow_pos _)]
    rw [toInt?, hparts]
    dsimp only
    rw [if_pos hwhole, hquotient]

/-- The double of a whole number that is not zero has its sign. -/
theorem ofInt_signed (negative : Bool) {size : Nat} (hsize : size ≠ 0) :
    ofInt (if negative then -(size : Int) else size) = ofMagnitude negative (nearestBits size 1) := by
  cases negative with
  | false => simp [ofInt, ofRatio, Int.not_lt.mpr (Int.natCast_nonneg size)]
  | true => simp [ofInt, ofRatio, Nat.pos_of_ne_zero hsize]

theorem ofMagnitude_zero : ofMagnitude true 0 = -0 := Float.toBits_inj.mp (by decide +kernel)

/-- The double of a whole number below 2^53 is the one that is that number, unless that one is the negative zero. -/
theorem IsInt.ofInt_eq {x : Float} {n : Int} (h : IsInt x n) (hsmall : n.natAbs < 2 * leastNormal)
    (hzero : x ≠ -0) : ofInt n = x := by
  obtain ⟨negative, mantissa, exponent, size, hparts, rfl, hsize⟩ := h
  obtain ⟨place, rfl, hmantissa, hnormal, rfl⟩ := exists_of_parts_eq hparts
  have hsmall : size < 2 * leastNormal := by
    cases negative <;> simpa using hsmall
  rcases Nat.eq_zero_or_pos size with rfl | hpos
  · have hproduct : mantissa * 2 ^ ((place : Int) + leastExponent).toNat = 0 := by rw [hsize, Nat.zero_mul]
    obtain rfl : mantissa = 0 :=
      (Nat.mul_eq_zero.mp hproduct).resolve_right (Nat.pos_iff_ne_zero.mp (Nat.two_pow_pos _))
    obtain rfl : place = 0 := hnormal.resolve_right (by decide)
    cases negative with
    | false => rfl
    | true => exact absurd ofMagnitude_zero hzero
  · rw [ofInt_signed negative (Nat.pos_iff_ne_zero.mp hpos)]
    congr 1
    by_cases hwhole : place ≤ 1074
    · obtain ⟨places, hplaces⟩ : ∃ places, place + places = 1074 := ⟨1074 - place, by omega⟩
      have hup : ((place : Int) + leastExponent).toNat = 0 := by
        rw [leastExponent]
        omega
      have hdown : (-((place : Int) + leastExponent)).toNat = places := by
        rw [leastExponent]
        omega
      rw [hup, hdown, pow_zero, Nat.mul_one] at hsize
      subst hsize
      have hfew : places < 53 := by
        refine (Nat.pow_lt_pow_iff_right (by decide : 1 < 2)).mp ?_
        exact Nat.lt_of_le_of_lt (Nat.le_mul_of_pos_left (2 ^ places) hpos) hmantissa
      have hlow : leastNormal ≤ size * 2 ^ places := hnormal.resolve_left (by omega)
      rw [nearestBits_exact hlow hmantissa (by omega), show 1074 - places = place by omega]
    · -- Such a double is too large.
      have hup : 1 ≤ ((place : Int) + leastExponent).toNat := by
        rw [leastExponent]
        omega
      have hdown : (-((place : Int) + leastExponent)).toNat = 0 := by
        rw [leastExponent]
        omega
      rw [hdown, pow_zero, Nat.mul_one] at hsize
      have hlow : leastNormal ≤ mantissa := hnormal.resolve_left (by omega)
      have hlarge : leastNormal * 2 ^ 1 ≤ mantissa * 2 ^ ((place : Int) + leastExponent).toNat :=
        Nat.mul_le_mul hlow (Nat.pow_le_pow_right (by decide) hup)
      omega

end FlowPath.Binary64

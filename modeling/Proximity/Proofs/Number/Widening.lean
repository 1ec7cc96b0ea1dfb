import Mathlib
import Proximity.Number.Binary32
import Proximity.Proofs.Number.Difference

/-!
# Widening keeps the order

Values of 32 bits are compared by the same rule as those of 64 bits, and widening multiplies the
units of a finite value by one power of two. So a comparison has the same outcome on both sides.
-/

namespace Proximity.Binary32

theorem units_magnitude (x : Binary32) :
    units 23 x.magnitude.toNat = x.significand * 2 ^ x.scale :=
  layout.units_magnitude x.bits

theorem magnitude_eq_infinityBits_iff (x : Binary32) :
    x.magnitude = infinityBits ↔ x.magnitude.toNat = 255 * 2 ^ 23 := UInt32.toNat_inj.symm

/-- The magnitude of the widened value. -/
def wideSize (x : Binary32) : Nat :=
  if x.magnitude = infinityBits then 2047 * 2 ^ 52
  else Binary64.pack x.significand (x.scale + scaleGap)

/-- Widening multiplies the units of a finite value by what the least values of the widths differ
by. -/
private theorem units_wideSize {x : Binary32} (h : x.magnitude.toNat ≠ 255 * 2 ^ 23) :
    units 52 x.wideSize = units 23 x.magnitude.toNat * 2 ^ scaleGap := by
  rw [wideSize, if_neg (mt (magnitude_eq_infinityBits_iff x).mp h),
    Binary64.units_pack ((significand_lt x).trans (by decide)), units_magnitude, pow_add,
    Nat.mul_assoc]

/-- A finite value is widened to a finite one. -/
private theorem pack_significand_lt {x : Binary32} (h : x.magnitude.toNat < 255 * 2 ^ 23) :
    Binary64.pack x.significand (x.scale + scaleGap) < 2047 * 2 ^ 52 := by
  have hscale : x.scale + scaleGap ≤ 2045 := by
    have he := exponentField_eq x
    have hgap : scaleGap = 925 := rfl
    unfold scale
    omega
  exact Binary64.pack_lt ((significand_lt x).trans (by decide)) hscale

/-- Widening grows with the magnitude. -/
theorem wideSize_lt {x y : Binary32} (h : x.magnitude.toNat < y.magnitude.toNat)
    (hy : y.isNaN = false) : x.wideSize < y.wideSize := by
  have hle := (isNaN_eq_false_iff y).mp hy
  have hx : x.magnitude ≠ infinityBits := mt (magnitude_eq_infinityBits_iff x).mp (by omega)
  by_cases hinf : y.magnitude = infinityBits
  · rw [wideSize, wideSize, if_neg hx, if_pos hinf]
    exact pack_significand_lt (h.trans_le hle)
  · have hyne := mt (magnitude_eq_infinityBits_iff y).mpr hinf
    apply (units_strictMono 52).lt_iff_lt.mp
    rw [units_wideSize (by omega), units_wideSize hyne]
    exact Nat.mul_lt_mul_of_pos_right (units_strictMono 23 h) (by positivity)

/-- The widened magnitude depends on the magnitude alone. -/
private theorem wideSize_congr {x y : Binary32} (h : x.magnitude.toNat = y.magnitude.toNat) :
    x.wideSize = y.wideSize := by
  have hmag : x.magnitude = y.magnitude := UInt32.toNat.inj h
  have hexp : x.exponentField = y.exponentField := by rw [exponentField, exponentField, hmag]
  have hfrac : x.fractionField = y.fractionField := by rw [fractionField, fractionField, hmag]
  simp only [wideSize, significand, scale, hmag, hexp, hfrac]

/-- Only zero is widened to zero. -/
private theorem wideSize_eq_zero_iff (x : Binary32) :
    x.wideSize = 0 ↔ x.magnitude.toNat = 0 := by
  by_cases hinf : x.magnitude = infinityBits
  · rw [wideSize, if_pos hinf, hinf]
    decide
  · have hunits := units_wideSize (mt (magnitude_eq_infinityBits_iff x).mpr hinf)
    have hgap : 0 < 2 ^ scaleGap := by positivity
    rw [← units_eq_zero_iff 52, hunits, Nat.mul_eq_zero, units_eq_zero_iff]
    exact or_iff_left hgap.ne'

/-- What is ordered stays ordered. -/
private theorem wideSize_le {x : Binary32} (h : x.isNaN = false) : x.wideSize ≤ 2047 * 2 ^ 52 := by
  have hle := (isNaN_eq_false_iff x).mp h
  unfold wideSize
  split
  · exact Nat.le_refl _
  · next hne =>
    have hlt := mt (magnitude_eq_infinityBits_iff x).mpr hne
    exact (pack_significand_lt (by omega)).le

/-- Sign and magnitude of a widened value. -/
theorem widen_parts {x : Binary32} (h : x.isNaN = false) :
    x.widen.isNegative = x.isNegative ∧ x.widen.magnitude.toNat = x.wideSize := by
  have hsize := wideSize_le h
  apply Binary64.parts_signed (by omega)
  have hbits : (if x.magnitude = infinityBits then Binary64.infinityBits
      else UInt64.ofNat (Binary64.pack x.significand (x.scale + scaleGap))) =
      UInt64.ofNat x.wideSize := by
    unfold wideSize
    split <;> rfl
  simp only [widen, h, Bool.false_eq_true, ite_false, hbits]

/-- A value is ordered exactly if the widened one is. -/
theorem isNaN_widen (x : Binary32) : x.widen.isNaN = x.isNaN := by
  cases h : x.isNaN with
  | true =>
    rw [widen, if_pos h]
    rfl
  | false =>
    rw [Binary64.isNaN_eq_false_iff, (widen_parts h).2]
    exact wideSize_le h

/-- The keys of ordered values compare on both sides alike. -/
private theorem key_widen_le_iff {x y : Binary32} (hx : x.isNaN = false) (hy : y.isNaN = false) :
    x.widen.key ≤ y.widen.key ↔ x.key ≤ y.key := by
  obtain ⟨hxs, hxm⟩ := widen_parts hx
  obtain ⟨hys, hym⟩ := widen_parts hy
  have hkx := toNat_key x
  have hky := toNat_key y
  have hwx := Binary64.toNat_key x.widen
  have hwy := Binary64.toNat_key y.widen
  have hmx := magnitude_lt x
  have hmy := magnitude_lt y
  have hlx := Binary64.magnitude_lt x.widen
  have hly := Binary64.magnitude_lt y.widen
  rw [hxs, hxm] at hwx
  rw [hys, hym] at hwy
  rw [hxm] at hlx
  rw [hym] at hly
  have hlt := fun h => wideSize_lt (x := x) (y := y) h hy
  have hgt := fun h => wideSize_lt (x := y) (y := x) h hx
  have heq := wideSize_congr (x := x) (y := y)
  have hx0 := wideSize_eq_zero_iff x
  have hy0 := wideSize_eq_zero_iff y
  rw [UInt64.le_iff_toNat_le, UInt32.le_iff_toNat_le]
  cases h : x.isNegative <;> cases h' : y.isNegative <;>
    simp only [h, h', ite_true, ite_false, Bool.false_eq_true] at hkx hky hwx hwy <;> omega

/-- Widening keeps a comparison. -/
theorem widen_le_iff (x y : Binary32) : x.widen ≤ y.widen ↔ x ≤ y := by
  rw [Binary64.le_iff, le_iff, isNaN_widen, isNaN_widen]
  constructor
  · rintro ⟨hx, hy, h⟩
    exact ⟨hx, hy, (key_widen_le_iff hx hy).mp h⟩
  · rintro ⟨hx, hy, h⟩
    exact ⟨hx, hy, (key_widen_le_iff hx hy).mpr h⟩

/-- Widening keeps a strict comparison. -/
theorem widen_lt_iff (x y : Binary32) : x.widen < y.widen ↔ x < y := by
  rw [Binary64.lt_iff, lt_iff, isNaN_widen, isNaN_widen]
  constructor
  · rintro ⟨hx, hy, h⟩
    rw [← UInt64.not_le, key_widen_le_iff hy hx, UInt32.not_le] at h
    exact ⟨hx, hy, h⟩
  · rintro ⟨hx, hy, h⟩
    rw [← UInt32.not_le, ← key_widen_le_iff hy hx, UInt64.not_le] at h
    exact ⟨hx, hy, h⟩

end Proximity.Binary32

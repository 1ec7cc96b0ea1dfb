import Mathlib
import Proximity.Proofs.Number.Bits

/-!
# Values in units of the least one

Every finite value is an integer number of units, the least positive value of its width. Units
grow strictly with the magnitude bits, so the order of values is the order of their signed units,
with infinities at the ends, and packing an integer keeps it exactly when it fits the fraction.
-/

namespace Proximity

/-- The units of a value with the given magnitude bits, whose fraction takes `width` of them. -/
def units (width magnitude : Nat) : Nat :=
  if magnitude / 2 ^ width = 0 then magnitude % 2 ^ width
  else (2 ^ width + magnitude % 2 ^ width) * 2 ^ (magnitude / 2 ^ width - 1)

/-- The units of a magnitude that is given by its two fields. -/
theorem units_fields (width exponent : Nat) {fraction : Nat} (h : fraction < 2 ^ width) :
    units width (exponent * 2 ^ width + fraction) =
      if exponent = 0 then fraction else (2 ^ width + fraction) * 2 ^ (exponent - 1) := by
  have hq : (exponent * 2 ^ width + fraction) / 2 ^ width = exponent := by
    rw [Nat.add_comm, Nat.add_mul_div_right _ _ (by positivity), Nat.div_eq_of_lt h, Nat.zero_add]
  have hr : (exponent * 2 ^ width + fraction) % 2 ^ width = fraction := by
    rw [Nat.add_comm, Nat.add_mul_mod_self_right, Nat.mod_eq_of_lt h]
  rw [units, hq, hr]

/-- The next magnitude has more units, also across a change of the exponent. -/
theorem units_lt_succ (width magnitude : Nat) :
    units width magnitude < units width (magnitude + 1) := by
  obtain ⟨e, f, hf, rfl⟩ : ∃ e f, f < 2 ^ width ∧ magnitude = e * 2 ^ width + f :=
    ⟨magnitude / 2 ^ width, magnitude % 2 ^ width, Nat.mod_lt _ (by positivity),
      (Nat.div_add_mod' magnitude (2 ^ width)).symm⟩
  rw [units_fields width e hf]
  by_cases hnext : f + 1 < 2 ^ width
  · rw [Nat.add_assoc, units_fields width e hnext]
    split
    · omega
    · exact Nat.mul_lt_mul_of_pos_right (by omega) (by positivity)
  · have hcarry : e * 2 ^ width + f + 1 = (e + 1) * 2 ^ width + 0 := by
      rw [Nat.succ_mul]
      omega
    have hunits : units width ((e + 1) * 2 ^ width + 0) = 2 ^ width * 2 ^ e := by
      rw [units_fields width (e + 1) (by positivity), if_neg (Nat.succ_ne_zero e),
        Nat.add_zero, Nat.add_sub_cancel]
    rw [hcarry, hunits]
    split
    · next h0 =>
      rw [h0, pow_zero]
      omega
    · next h0 =>
      obtain ⟨d, rfl⟩ : ∃ d, e = d + 1 := ⟨e - 1, by omega⟩
      rw [Nat.add_sub_cancel, pow_succ, Nat.mul_comm (2 ^ d) 2, ← Nat.mul_assoc]
      exact Nat.mul_lt_mul_of_pos_right (by omega) (by positivity)

/-- Units grow with the magnitude. -/
theorem units_strictMono (width : Nat) : StrictMono (units width) :=
  strictMono_nat_of_lt_succ (units_lt_succ width)

@[simp] theorem units_zero (width : Nat) : units width 0 = 0 := by
  simp only [units, Nat.zero_div, Nat.zero_mod, ite_true]

/-- Only the magnitude of zero has no units. -/
theorem units_eq_zero_iff (width magnitude : Nat) : units width magnitude = 0 ↔ magnitude = 0 := by
  have hinj := (units_strictMono width).injective.eq_iff (a := magnitude) (b := 0)
  rwa [units_zero] at hinj

/-- A finite value is its significand at its scale, in every layout. -/
theorem Layout.units_magnitude {W : Type} [Word W] (layout : Layout W) (bits : W) :
    units layout.width (Word.toNat (layout.magnitude bits)) =
      layout.significand bits * 2 ^ layout.scale bits := by
  rw [significand, scale, exponentField_eq, fractionField_eq, units]
  split
  · next h => rw [h, Nat.zero_sub, pow_zero, Nat.mul_one]
  · rfl

namespace Binary64

theorem units_magnitude (x : Binary64) :
    units 52 x.magnitude.toNat = x.significand * 2 ^ x.scale :=
  layout.units_magnitude x.bits

/-- Packing an integer of at most 53 bits keeps its value. -/
theorem units_pack {m : Nat} (hm : m < 2 ^ 53) (s : Nat) : units 52 (pack m s) = m * 2 ^ s := by
  by_cases h0 : m = 0
  · rw [pack, if_pos h0, h0, units_zero, Nat.zero_mul]
  have hlog : m.log2 < 53 := (Nat.log2_lt h0).mpr hm
  have hlow : 2 ^ m.log2 ≤ m := Nat.log2_self_le h0
  have hhigh : m < 2 ^ (m.log2 + 1) := Nat.lt_log2_self
  have hlead : leadingBit = 2 ^ 52 := rfl
  simp only [pack, if_neg h0, Nat.shiftLeft_eq, hlead]
  set shift := min (52 - m.log2) s with hshift
  have hlt : m * 2 ^ shift < 2 ^ 53 := by
    calc m * 2 ^ shift < 2 ^ (m.log2 + 1) * 2 ^ shift :=
          Nat.mul_lt_mul_of_pos_right hhigh (by positivity)
      _ = 2 ^ (m.log2 + 1 + shift) := (pow_add ..).symm
      _ ≤ 2 ^ 53 := Nat.pow_le_pow_right (by decide) (by omega)
  by_cases hsub : m * 2 ^ shift < 2 ^ 52
  · -- The significand stays below the leading bit only when the scale is used up.
    have hfull : shift = s := by
      by_contra hne
      have heq : shift = 52 - m.log2 := by omega
      have hge : 2 ^ m.log2 * 2 ^ shift ≤ m * 2 ^ shift := Nat.mul_le_mul_right _ hlow
      rw [← pow_add, heq, Nat.add_sub_cancel' (by omega)] at hge
      exact absurd hsub (by rw [heq]; omega)
    have hu := units_fields 52 0 hsub
    rw [Nat.zero_mul, Nat.zero_add, if_pos rfl] at hu
    rw [if_pos hsub, hu, hfull]
  · rw [if_neg hsub, units_fields 52 _ (by omega), if_neg (by omega), Nat.add_sub_cancel,
      Nat.add_sub_cancel' (by omega), Nat.mul_assoc, ← pow_add, Nat.add_sub_cancel' (by omega)]

/-- The units of a value, below zero if the value is. -/
def signed (x : Binary64) : Int :=
  if x.isNegative then -(units 52 x.magnitude.toNat : Int) else units 52 x.magnitude.toNat

/-- Values are ordered as their signed units are. -/
theorem key_le_iff (x y : Binary64) : x.key ≤ y.key ↔ x.signed ≤ y.signed := by
  have hx := toNat_key x
  have hy := toNat_key y
  have hxm := magnitude_lt x
  have hym := magnitude_lt y
  have hle := (units_strictMono 52).le_iff_le (a := x.magnitude.toNat) (b := y.magnitude.toNat)
  have hge := (units_strictMono 52).le_iff_le (a := y.magnitude.toNat) (b := x.magnitude.toNat)
  have hx0 := (units_strictMono 52).le_iff_le (a := x.magnitude.toNat) (b := 0)
  have hy0 := (units_strictMono 52).le_iff_le (a := y.magnitude.toNat) (b := 0)
  rw [units_zero] at hx0 hy0
  rw [UInt64.le_iff_toNat_le, signed, signed]
  cases hxs : x.isNegative <;> cases hys : y.isNegative <;>
    simp only [hxs, hys, ite_true, ite_false, Bool.false_eq_true] at hx hy ⊢ <;> omega

/-- Ordered values compare as their signed units do. -/
theorem le_iff_signed (x y : Binary64) :
    x ≤ y ↔ x.isNaN = false ∧ y.isNaN = false ∧ x.signed ≤ y.signed := by
  rw [le_iff, key_le_iff]

theorem lt_iff_signed (x y : Binary64) :
    x < y ↔ x.isNaN = false ∧ y.isNaN = false ∧ x.signed < y.signed := by
  have hkey : x.key < y.key ↔ x.signed < y.signed := by
    rw [← UInt64.not_le, key_le_iff, not_le]
  rw [lt_iff, hkey]

/-- The greatest finite value has fewer units than infinity would have. -/
private theorem units_maxFinite_lt :
    units 52 Binary64.maxFinite.magnitude.toNat < units 52 (2047 * 2 ^ 52) :=
  units_strictMono 52 (by decide)

/-- A negative value from the least finite one on is finite. -/
theorem magnitude_lt_of_ge {x : Binary64} (h : Binary64.neg .maxFinite ≤ x)
    (hs : x.isNegative = true) : x.magnitude.toNat < 2047 * 2 ^ 52 := by
  have hle := ((le_iff_signed _ _).mp h).2.2
  have hmax : (Binary64.neg .maxFinite).signed =
      -(units 52 Binary64.maxFinite.magnitude.toNat : Int) := rfl
  have hlt := units_maxFinite_lt
  rw [hmax, signed, hs, if_pos rfl] at hle
  exact (units_strictMono 52).lt_iff_lt.mp (by omega)

/-- A value that is not negative, up to the greatest finite one, is finite. -/
theorem magnitude_lt_of_le {x : Binary64} (h : x ≤ .maxFinite) (hs : x.isNegative = false) :
    x.magnitude.toNat < 2047 * 2 ^ 52 := by
  have hle := ((le_iff_signed _ _).mp h).2.2
  have hmax : Binary64.maxFinite.signed =
      (units 52 Binary64.maxFinite.magnitude.toNat : Int) := rfl
  have hlt := units_maxFinite_lt
  rw [hmax, signed, hs, if_neg Bool.false_ne_true] at hle
  exact (units_strictMono 52).lt_iff_lt.mp (by omega)

/-- The pattern with a sign above a size that leaves room for it. -/
theorem parts_signed {size : Nat} (hsize : size < 2 ^ 63) (negative : Bool) (x : Binary64)
    (h : x = if negative then ⟨signBit + UInt64.ofNat size⟩ else ⟨UInt64.ofNat size⟩) :
    x.isNegative = negative ∧ x.magnitude.toNat = size := by
  have hto : (UInt64.ofNat size).toNat = size :=
    UInt64.toNat_ofNat_of_lt' (by rw [UInt64.size]; omega)
  have hparts := layout.parts_signed (.ofNat size) (hto.trans_lt hsize) negative
  rw [h]
  cases negative <;> exact ⟨hparts.1, hparts.2.trans hto⟩

/-- Packing leaves the exponent at most two above the scale. -/
theorem pack_lt {m s top : Nat} (hm : m < 2 ^ 53) (hs : s ≤ top) :
    pack m s < (top + 2) * 2 ^ 52 := by
  have htop : units 52 ((top + 2) * 2 ^ 52 + 0) = 2 ^ 53 * 2 ^ top := by
    rw [units_fields 52 (top + 2) (by decide), if_neg (by omega), Nat.add_succ_sub_one,
      pow_succ 2 top, Nat.mul_comm (2 ^ top), ← Nat.mul_assoc]
    rfl
  apply (units_strictMono 52).lt_iff_lt.mp
  rw [units_pack hm, ← Nat.add_zero ((top + 2) * 2 ^ 52), htop]
  calc m * 2 ^ s < 2 ^ 53 * 2 ^ s := Nat.mul_lt_mul_of_pos_right hm (by positivity)
    _ ≤ 2 ^ 53 * 2 ^ top := Nat.mul_le_mul_left _ (Nat.pow_le_pow_right (by decide) hs)

/-- An integer of at most 53 bits is kept exactly. -/
theorem signed_ofInt {n : Int} (h : n.natAbs < 2 ^ 53) :
    (ofInt n).magnitude.toNat < 2047 * 2 ^ 52 ∧ (ofInt n).signed = n * 2 ^ 1074 := by
  have hlt := pack_lt (s := 1074) h (Nat.le_refl _)
  have hsize : pack n.natAbs 1074 < 2 ^ 63 := by omega
  obtain ⟨hneg, hmag⟩ := parts_signed hsize (decide (n < 0)) (ofInt n)
    (by simp only [ofInt, decide_eq_true_eq])
  have hunits : (units 52 (ofInt n).magnitude.toNat : Int) = n.natAbs * 2 ^ 1074 := by
    rw [hmag, units_pack h, Nat.cast_mul, Nat.cast_pow, Nat.cast_ofNat]
  refine ⟨by omega, ?_⟩
  rw [signed, hneg, hunits]
  by_cases hn : n < 0
  · rw [if_pos (decide_eq_true hn), ← Int.neg_mul, Int.ofNat_natAbs_of_nonpos hn.le, Int.neg_neg]
  · rw [if_neg (by simpa using hn), Int.natAbs_of_nonneg (by omega)]

/-- Every finite value lies between the extreme ones. -/
theorem between_extremes {x : Binary64} (h : x.magnitude.toNat < 2047 * 2 ^ 52) :
    Binary64.neg .maxFinite ≤ x ∧ x ≤ .maxFinite := by
  have hn : x.isNaN = false := (isNaN_eq_false_iff x).mpr h.le
  have hmax : Binary64.maxFinite.magnitude.toNat = 2047 * 2 ^ 52 - 1 := rfl
  have hle : units 52 x.magnitude.toNat ≤ units 52 Binary64.maxFinite.magnitude.toNat :=
    (units_strictMono 52).le_iff_le.mpr (by omega)
  have hlow : (Binary64.neg .maxFinite).signed =
      -(units 52 Binary64.maxFinite.magnitude.toNat : Int) := rfl
  have hhigh : Binary64.maxFinite.signed =
      (units 52 Binary64.maxFinite.magnitude.toNat : Int) := rfl
  have hsigned : x.signed = -(units 52 x.magnitude.toNat : Int) ∨
      x.signed = units 52 x.magnitude.toNat := by
    unfold signed
    split
    · exact .inl rfl
    · exact .inr rfl
  rw [le_iff_signed, le_iff_signed, hlow, hhigh]
  exact ⟨⟨rfl, hn, by omega⟩, hn, rfl, by omega⟩

/-- A value below all finite ones is negative infinity. -/
theorem infinite_of_lt {x : Binary64} (h : x < Binary64.neg .maxFinite) :
    x.isNegative = true ∧ x.magnitude.toNat = 2047 * 2 ^ 52 := by
  obtain ⟨hn, -, hlt⟩ := (lt_iff _ _).mp h
  have hle := (isNaN_eq_false_iff x).mp hn
  have hkey := toNat_key x
  have hend : (Binary64.neg .maxFinite).key.toNat = 2 ^ 63 - (2047 * 2 ^ 52 - 1) := by decide
  rw [UInt64.lt_iff_toNat_lt] at hlt
  have hs : x.isNegative = true := by
    by_contra hs
    rw [if_neg hs] at hkey
    omega
  rw [if_pos hs] at hkey
  exact ⟨hs, by omega⟩

/-- Nothing lies above a value that is above all finite ones. -/
theorem not_lt_of_maxFinite_lt {x y : Binary64} (h : .maxFinite < x) : ¬ x < y := by
  intro hxy
  obtain ⟨-, -, hlt⟩ := (lt_iff _ _).mp h
  obtain ⟨-, hn, hlt'⟩ := (lt_iff _ _).mp hxy
  have htop := (key_between hn).2
  have hend : maxFinite.key.toNat = 2 ^ 63 + (2047 * 2 ^ 52 - 1) := by decide
  rw [UInt64.lt_iff_toNat_lt] at hlt hlt'
  omega

/-- Nothing lies below negative infinity. -/
theorem not_lt_negInfinity (x : Binary64) : ¬ x < negInfinity := by
  intro h
  obtain ⟨hn, -, hlt⟩ := (lt_iff _ _).mp h
  have hbottom := (key_between hn).1
  have hend : negInfinity.key.toNat = 2 ^ 63 - 2047 * 2 ^ 52 := by decide
  rw [UInt64.lt_iff_toNat_lt] at hlt
  omega

end Binary64

end Proximity

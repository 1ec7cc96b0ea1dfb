import Mathlib
import Proximity.Proofs.Number.Layout

/-!
# Bits of binary floating point

Machine arithmetic works on unpacked values and packs its result again. Here both ways are read
on the magnitude of the bit pattern, in which `Binary64` defines its order.
-/

namespace Proximity.Binary64

open Float.Model Float.Model.UnpackedFloat

/-- The parts of a value that machine arithmetic works on. -/
def unpack (x : Binary64) : UnpackedFloat := UnpackedFloat.unpack .binary64 x.bits.toBitVec

/-- The value with the given parts, which are rounded already. -/
def ofUnpacked (u : UnpackedFloat) : Binary64 :=
  ⟨UInt64.ofBitVec (UnpackedFloat.pack .binary64 u)⟩

/-- The sign of a value. -/
def sign (x : Binary64) : Sign := if x.isNegative then .negative else .positive

/-- The sign is the uppermost bit. -/
theorem toNat_signBit : signBit.toNat = 2 ^ 63 := rfl

/-- Whether a sign is the one below zero. -/
def isMinus : Sign → Bool
  | .negative => true
  | .positive => false

theorem isMinus_sign (x : Binary64) : isMinus x.sign = x.isNegative := by
  unfold sign
  cases x.isNegative <;> rfl

/-- What is no number has a magnitude above that of infinity. -/
theorem isNaN_iff (x : Binary64) : x.isNaN = true ↔ 2047 * 2 ^ 52 < x.magnitude.toNat := by
  rw [← not_iff_not, Bool.not_eq_true, isNaN_eq_false_iff, not_lt]

/-- The exponent that arithmetic works on is the upper part of the magnitude. -/
theorem unpackExponent_toNat (x : Binary64) :
    (@unpackExponent .binary64 x.bits.toBitVec).toNat = x.magnitude.toNat / 2 ^ 52 := by
  have hm := magnitude_lt x
  have hb := toNat_bits x
  simp only [unpackExponent, BitVec.toNat_cast, BitVec.extractLsb_toNat, UInt64.toNat_toBitVec,
    Nat.shiftRight_eq_div_pow]
  split at hb <;> omega

/-- The mantissa that arithmetic works on is the lower part of the magnitude. -/
theorem unpackMantissa_toNat (x : Binary64) :
    (@unpackMantissa .binary64 x.bits.toBitVec).toNat = x.magnitude.toNat % 2 ^ 52 := by
  have hm := magnitude_lt x
  have hb := toNat_bits x
  simp only [unpackMantissa, BitVec.toNat_cast, BitVec.extractLsb_toNat, UInt64.toNat_toBitVec,
    Nat.shiftRight_eq_div_pow]
  split at hb <;> omega

/-- The sign that arithmetic works on is that of the value. -/
theorem sign_ofBitVec (x : Binary64) :
    Sign.ofBitVec (@unpackSign .binary64 x.bits.toBitVec) = x.sign := by
  have hm := magnitude_lt x
  have hb := toNat_bits x
  have hs : (@unpackSign .binary64 x.bits.toBitVec).toNat =
      x.bits.toNat / 2 ^ 63 % 2 := by
    simp only [unpackSign, BitVec.toNat_cast, BitVec.extractLsb_toNat, UInt64.toNat_toBitVec,
      Nat.shiftRight_eq_div_pow]
  simp only [Sign.ofBitVec, sign, ← BitVec.toNat_inj, hs]
  by_cases h : x.isNegative <;> simp only [h, ite_true, Bool.false_eq_true, ite_false] at hb ⊢
  · rw [if_neg (by simp only [BitVec.toNat_ofNat]; omega)]
  · rw [if_pos (by simp only [BitVec.toNat_ofNat]; omega)]

/-- What is unordered is no number for arithmetic either. -/
theorem unpack_of_isNaN {x : Binary64} (h : x.isNaN = true) : x.unpack = .notANumber := by
  have hl := magnitude_lt x
  have hm := (isNaN_iff x).mp h
  have he := unpackExponent_toNat x
  have hf := unpackMantissa_toNat x
  unfold unpack UnpackedFloat.unpack
  rw [if_pos (BitVec.eq_of_toNat_eq (by rw [he]; change _ = 2047; omega)),
    if_neg (fun h0 => by rw [h0] at hf; change 0 = _ at hf; omega)]

theorem unpack_of_infinite {x : Binary64} (h : x.magnitude.toNat = 2047 * 2 ^ 52) :
    x.unpack = .infinity x.sign := by
  have he := unpackExponent_toNat x
  have hf := unpackMantissa_toNat x
  unfold unpack UnpackedFloat.unpack
  rw [if_pos (BitVec.eq_of_toNat_eq (by rw [he, h]; rfl)),
    if_pos (BitVec.eq_of_toNat_eq (by rw [hf, h]; rfl)), sign_ofBitVec]

theorem unpack_of_zero {x : Binary64} (h : x.magnitude.toNat = 0) : x.unpack = .zero x.sign := by
  have he := unpackExponent_toNat x
  have hf := unpackMantissa_toNat x
  rw [h] at he hf
  unfold unpack UnpackedFloat.unpack
  rw [if_neg (fun h0 => by rw [h0] at he; exact absurd he (by decide)),
    if_pos (BitVec.eq_of_toNat_eq (by rw [he]; rfl)),
    dif_pos (BitVec.eq_of_toNat_eq (by rw [hf]; rfl)), sign_ofBitVec]

/-- A finite value other than zero is its significand at the exponent of its scale. -/
theorem unpack_of_finite {x : Binary64} (h0 : x.magnitude.toNat ≠ 0)
    (hx : x.magnitude.toNat < 2047 * 2 ^ 52) :
    ∃ h, x.unpack = .finite x.sign x.significand ((x.scale : Int) - 1074) h := by
  have he := unpackExponent_toNat x
  have hf := unpackMantissa_toNat x
  have hee := exponentField_eq x
  have hff := fractionField_eq x
  have hbias : Format.binary64.exponentBias = 1023 := rfl
  unfold unpack UnpackedFloat.unpack
  rw [if_neg (fun hh => by rw [hh] at he; change 2047 = _ at he; omega)]
  by_cases hz : x.exponentField = 0
  · rw [if_pos (BitVec.eq_of_toNat_eq (by rw [he, ← hee, hz]; rfl)),
      dif_neg (fun hh => by rw [hh] at hf; change 0 = _ at hf; omega)]
    refine ⟨by simp only [significand, hz, ite_true]; omega, ?_⟩
    simp only [significand, scale, hz, ite_true, sign_ofBitVec, he, hf, ← hee, ← hff, hbias]
    rfl
  · rw [if_neg (fun hh => by rw [hh] at he; change 0 = _ at he; omega)]
    have hlead : leadingBit = 2 ^ 52 := rfl
    have happ : (1#1 ++ @unpackMantissa .binary64 x.bits.toBitVec).toNat =
        2 ^ 52 + x.magnitude.toNat % 2 ^ 52 := by
      rw [BitVec.toNat_append, ← Nat.shiftLeft_add_eq_or_of_lt (BitVec.isLt _), hf]
      rfl
    refine ⟨by simp only [significand, hz, ite_false]; omega, ?_⟩
    simp only [significand, scale, hz, ite_false, sign_ofBitVec, he, happ, ← hee, ← hff, hbias,
      hlead]
    congr 1
    push_cast
    omega

/-- Two values with one sign and one magnitude are one. -/
theorem eq_of_sign_magnitude {x y : Binary64} (hs : x.isNegative = y.isNegative)
    (hm : x.magnitude.toNat = y.magnitude.toNat) : x = y := by
  have hx := toNat_bits x
  have hy := toNat_bits y
  have hb : x.bits = y.bits := UInt64.toNat.inj (by rw [hx, hy, hs, hm])
  cases x
  cases y
  exact congrArg Binary64.mk hb

/-- Three fields are packed side by side, the sign on top. -/
private theorem toNat_packComponents (s : Sign) (e : BitVec 11) (m : BitVec 52) :
    (packComponents .binary64 s e m).toNat =
      (if isMinus s then 2 ^ 63 else 0) + (e.toNat * 2 ^ 52 + m.toNat) := by
  have he := e.isLt
  have hm := m.isLt
  unfold packComponents
  rw [BitVec.toNat_append, BitVec.toNat_append, ← Nat.shiftLeft_add_eq_or_of_lt hm,
    ← Nat.shiftLeft_add_eq_or_of_lt he, Nat.shiftLeft_eq, Nat.shiftLeft_eq]
  have h1 : (1#1).toNat = 1 := rfl
  have h0 : (0#1).toNat = 0 := rfl
  cases s <;>
    simp only [Sign.toBitVec, isMinus, h1, h0, ite_true, Bool.false_eq_true, ite_false] <;>
    omega

/-- Sign and magnitude of a value that is put together from its three fields. -/
theorem parts_of_packComponents {x : Binary64} {s : Sign} {e : BitVec 11} {m : BitVec 52}
    (h : x.bits.toBitVec = packComponents .binary64 s e m) :
    x.isNegative = isMinus s ∧ x.magnitude.toNat = e.toNat * 2 ^ 52 + m.toNat := by
  have he := e.isLt
  have hm := m.isLt
  have hp := toNat_packComponents s e m
  rw [← h, UInt64.toNat_toBitVec] at hp
  exact layout.parts_of_bits (show _ < 2 ^ 63 by omega) hp

/-- A zero keeps its sign when it is packed. -/
theorem ofUnpacked_zero (s : Sign) :
    (ofUnpacked (.zero s)).isNegative = isMinus s ∧
      (ofUnpacked (.zero s)).magnitude.toNat = 0 :=
  parts_of_packComponents (s := s) (e := 0) (m := 0) rfl

/-- An infinity keeps its sign when it is packed. -/
theorem ofUnpacked_infinity (s : Sign) :
    (ofUnpacked (.infinity s)).isNegative = isMinus s ∧
      (ofUnpacked (.infinity s)).magnitude.toNat = 2047 * 2 ^ 52 :=
  parts_of_packComponents (s := s) (e := -1#11) (m := 0) rfl

theorem ofUnpacked_notANumber : (ofUnpacked .notANumber).isNaN = true := by decide

/-- A finite result packs into infinity, a full significand with its exponent, or a significand
below the leading bit. -/
theorem pack_finite {s : Sign} {m : Nat} {e : Int} (h : 0 < m) :
    UnpackedFloat.pack .binary64 (.finite s m e h) =
      if 2 ^ 11 ≤ (e + 1075).toNat + 1 then packComponents .binary64 s (-1#11) 0
      else if m.log2 + 1 = 53 then
        packComponents .binary64 s (BitVec.ofNat 11 (e + 1075).toNat) (BitVec.ofNat 52 m)
      else packComponents .binary64 s 0#11 (BitVec.ofNat 52 m) := by
  have hb : e + (Format.binary64.exponentBias : Int) + ((52 : Nat) : Int) = e + 1075 := by
    change e + 1023 + 52 = _
    omega
  simp only [UnpackedFloat.pack]
  rw [hb]
  rfl

/-- A finite result that is not zero packs into neither zero nor an unordered value. -/
theorem ofUnpacked_finite {s : Sign} {m : Nat} {e : Int} (h : 0 < m) (hm : m < 2 ^ 53)
    (he : -1074 ≤ e) :
    (ofUnpacked (.finite s m e h)).isNegative = isMinus s ∧
      (ofUnpacked (.finite s m e h)).magnitude.toNat ≠ 0 ∧
      (ofUnpacked (.finite s m e h)).magnitude.toNat ≤ 2047 * 2 ^ 52 := by
  have hlog : m.log2 < 53 := (Nat.log2_lt h.ne').mpr hm
  have hp := pack_finite (s := s) (e := e) h
  by_cases hbig : 2 ^ 11 ≤ (e + 1075).toNat + 1
  · rw [if_pos hbig] at hp
    obtain ⟨h1, h2⟩ := parts_of_packComponents (x := ofUnpacked (.finite s m e h)) hp
    refine ⟨h1, ?_, ?_⟩ <;> rw [h2] <;> decide
  rw [if_neg hbig] at hp
  by_cases hn : m.log2 + 1 = 53
  · rw [if_pos hn] at hp
    obtain ⟨h1, h2⟩ := parts_of_packComponents (x := ofUnpacked (.finite s m e h)) hp
    rw [BitVec.toNat_ofNat, BitVec.toNat_ofNat] at h2
    exact ⟨h1, by omega, by omega⟩
  · rw [if_neg hn] at hp
    have hsub : m < 2 ^ 52 := (Nat.log2_lt h.ne').mp (by omega)
    obtain ⟨h1, h2⟩ := parts_of_packComponents (x := ofUnpacked (.finite s m e h)) hp
    rw [BitVec.toNat_ofNat, BitVec.toNat_ofNat] at h2
    exact ⟨h1, by omega, by omega⟩

end Proximity.Binary64

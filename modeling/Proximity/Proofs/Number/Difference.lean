import Mathlib
import Proximity.Proofs.Number.Units

/-!
# Signs of rounded differences

Rounding never turns a difference into zero, since the least values are evenly spaced down to
zero. So the rounded difference of two finite values tells which of them is larger, and values
that differ in the sign of zero only have differences that differ no more than that.
-/

namespace Proximity.Binary64

open Float.Model Float.Model.UnpackedFloat

/-- Packing what was unpacked gives the same value, unless that is unordered. -/
theorem ofUnpacked_unpack {x : Binary64} (h : x.isNaN = false) : ofUnpacked x.unpack = x := by
  have hle := (isNaN_eq_false_iff x).mp h
  by_cases h0 : x.magnitude.toNat = 0
  · rw [unpack_of_zero h0]
    exact eq_of_sign_magnitude ((ofUnpacked_zero _).1.trans (isMinus_sign x))
      ((ofUnpacked_zero _).2.trans h0.symm)
  by_cases hinf : x.magnitude.toNat = 2047 * 2 ^ 52
  · rw [unpack_of_infinite hinf]
    exact eq_of_sign_magnitude ((ofUnpacked_infinity _).1.trans (isMinus_sign x))
      ((ofUnpacked_infinity _).2.trans hinf.symm)
  obtain ⟨hs, hu⟩ := unpack_of_finite h0 (by omega)
  have he := exponentField_eq x
  have hf := fractionField_eq x
  have hlead : leadingBit = 2 ^ 52 := rfl
  have hp := pack_finite (s := x.sign) (e := (x.scale : Int) - 1074) hs
  rw [if_neg (by simp only [scale]; omega)] at hp
  rw [hu]
  by_cases hz : x.exponentField = 0
  · have hsig : x.significand = x.fractionField := by rw [significand, if_pos hz]
    have hlog : x.significand.log2 < 52 := (Nat.log2_lt hs.ne').mpr (by omega)
    rw [if_neg (by omega)] at hp
    obtain ⟨h1, h2⟩ := parts_of_packComponents (x := ofUnpacked (.finite _ _ _ hs)) hp
    rw [BitVec.toNat_ofNat, BitVec.toNat_ofNat] at h2
    exact eq_of_sign_magnitude (h1.trans (isMinus_sign x)) (by omega)
  · have hsig : x.significand = 2 ^ 52 + x.fractionField := by rw [significand, if_neg hz, hlead]
    have hlog : x.significand.log2 = 52 :=
      (Nat.log2_eq_iff hs.ne').mpr ⟨by omega, by omega⟩
    rw [if_pos (by omega)] at hp
    obtain ⟨h1, h2⟩ := parts_of_packComponents (x := ofUnpacked (.finite _ _ _ hs)) hp
    rw [BitVec.toNat_ofNat, BitVec.toNat_ofNat] at h2
    refine eq_of_sign_magnitude (h1.trans (isMinus_sign x)) (h2.trans ?_)
    simp only [scale]
    omega

/-- The machine float of a value has the same parts. -/
theorem unpack_ofUnpacked_unpack (x : Binary64) : (ofUnpacked x.unpack).unpack = x.unpack := by
  cases h : x.isNaN with
  | false => rw [ofUnpacked_unpack h]
  | true => rw [unpack_of_isNaN h, unpack_of_isNaN ofUnpacked_notANumber]

/-- A difference is the one that arithmetic takes of the unpacked values. -/
theorem sub_eq (x y : Binary64) :
    x - y = ofUnpacked (UnpackedFloat.sub .binary64 x.unpack y.unpack) := by
  rw [← unpack_ofUnpacked_unpack x, ← unpack_ofUnpacked_unpack y]
  rfl

/-- A sum is the one that arithmetic takes of the unpacked values. -/
theorem add_eq (x y : Binary64) :
    x + y = ofUnpacked (UnpackedFloat.add .binary64 x.unpack y.unpack) := by
  rw [← unpack_ofUnpacked_unpack x, ← unpack_ofUnpacked_unpack y]
  rfl

theorem mantissa_shiftRight (em : ExtendedMantissa) (k : Nat) :
    (em >>> k).mantissa = em.mantissa / 2 ^ k := by
  induction k with
  | zero => exact (Nat.div_one _).symm
  | succ k ih =>
    change (em >>> k).mantissa / 2 = _
    rw [ih, Nat.div_div_eq_div_mul, pow_succ]

/-- Rounding never goes below what was kept. -/
theorem le_roundedMantissa (em : ExtendedMantissa) : em.mantissa ≤ em.roundedMantissa := by
  obtain ⟨m, r, s⟩ := em
  cases r <;> cases s <;>
    simp [ExtendedMantissa.roundedMantissa, ExtendedMantissa.accuracy, Accuracy.roundToNearestEven]

/-- From the least exponent on, a number is shifted until its significand has 53 bits. -/
private theorem shift_exact {m : Nat} {e : Int} (he : -1074 ≤ e) :
    shiftToTargetExponent .binary64 m e .exact =
      (ExtendedMantissa.mk m false false >>> (m.log2 - 52), e + ((m.log2 - 52 : Nat) : Int)) := by
  have hamount : (Format.binary64.targetExponent (totalExponent m e) - e).toNat = m.log2 - 52 := by
    change (max ((m.log2 : Int) + 1 + e - 53) (-1074) - e).toNat = _
    omega
  simp only [shiftToTargetExponent, shiftToExponent, hamount,
    ExtendedMantissa.ofMantissaAndAccuracy]

/-- A mantissa shifted down to the width of a significand keeps its leading bit. -/
private theorem shifted_bounds {m : Nat} (hm : 0 < m) :
    0 < m / 2 ^ (m.log2 - 52) ∧ m / 2 ^ (m.log2 - 52) < 2 ^ 53 := by
  have hlow := Nat.log2_self_le hm.ne'
  have hhigh := Nat.lt_log2_self (n := m)
  constructor
  · apply Nat.div_pos _ (by positivity)
    exact (Nat.pow_le_pow_right (by decide) (Nat.sub_le _ _)).trans hlow
  · rw [Nat.div_lt_iff_lt_mul (by positivity), ← pow_add]
    exact hhigh.trans_le (Nat.pow_le_pow_right (by decide) (by omega))

/-- What is left of a number when it is shifted until its significand has 53 bits. -/
def shifted (m : Nat) : ExtendedMantissa := ExtendedMantissa.mk m false false >>> (m.log2 - 52)

theorem mantissa_shifted (m : Nat) : (shifted m).mantissa = m / 2 ^ (m.log2 - 52) :=
  mantissa_shiftRight _ _

/-- From the least exponent on, rounding shifts a number once, and once more if the significand
carries. -/
theorem roundWithAccuracy_eq (s : Sign) {m : Nat} {e : Int} (hm : 0 < m) (he : -1074 ≤ e) :
    (shifted (shifted m).roundedMantissa).mantissa < 2 ^ 53 ∧
      ∃ h, roundWithAccuracy .binary64 s m e .exact =
        .finite s (shifted (shifted m).roundedMantissa).mantissa (e + ((m.log2 - 52 : Nat) : Int) +
          (((shifted m).roundedMantissa.log2 - 52 : Nat) : Int)) h := by
  have hr : 0 < (shifted m).roundedMantissa :=
    (mantissa_shifted m ▸ (shifted_bounds hm).1).trans_le (le_roundedMantissa _)
  obtain ⟨hpos, hlt⟩ := mantissa_shifted _ ▸ shifted_bounds hr
  have hagain := shift_exact (m := (shifted m).roundedMantissa)
    (show -1074 ≤ e + ((m.log2 - 52 : Nat) : Int) by omega)
  refine ⟨hlt, hpos, ?_⟩
  simp only [roundWithAccuracy, shift_exact he]
  simp only [shifted] at hagain hpos ⊢
  simp only [hagain]
  exact dif_neg hpos.ne'

/-- Rounding keeps a number from the least exponent on away from zero, and shifts it once more if
the significand carries. -/
theorem roundWithAccuracy_finite (s : Sign) {m : Nat} {e : Int} (hm : 0 < m) (he : -1074 ≤ e) :
    ∃ m' e' h, roundWithAccuracy .binary64 s m e .exact = .finite s m' e' h ∧ m' < 2 ^ 53 ∧
      e' = e + ((m.log2 - 52 : Nat) : Int) +
        (((shifted m).roundedMantissa.log2 - 52 : Nat) : Int) := by
  obtain ⟨hlt, h, hround⟩ := roundWithAccuracy_eq s hm he
  exact ⟨_, _, h, hround, hlt, rfl⟩

/-- Rounding keeps a number from the least exponent on away from zero. -/
theorem round_finite (s : Sign) {m : Nat} {e : Int} (hm : 0 < m) (he : -1074 ≤ e) :
    ∃ m' e' h, UnpackedFloat.round .binary64 s m e = .finite s m' e' h ∧
      m' < 2 ^ 53 ∧ -1074 ≤ e' := by
  have ht : -1074 ≤ Format.binary64.targetExponent (totalExponent m e) := le_max_right _ _
  obtain ⟨m', e', h, hround, hlt, rfl⟩ := roundWithAccuracy_finite s
    (m := m <<< (e - Format.binary64.targetExponent (totalExponent m e)).toNat)
    (e := e - ((e - Format.binary64.targetExponent (totalExponent m e)).toNat : Int))
    (by rw [Nat.shiftLeft_eq]; positivity) (by omega)
  exact ⟨m', _, h, hround, hlt, by omega⟩

theorem units_magnitude_pos {x : Binary64} (h : x.magnitude.toNat ≠ 0) :
    0 < units 52 x.magnitude.toNat :=
  Nat.pos_of_ne_zero (mt (units_eq_zero_iff 52 _).mp h)

/-- Both zeros have no units. -/
theorem signed_of_zero {x : Binary64} (h : x.magnitude.toNat = 0) : x.signed = 0 := by
  rw [signed, h, units_zero]
  split <;> rfl

/-- The units of a value other than zero have its sign. -/
theorem sign_signed {x : Binary64} (h : x.magnitude.toNat ≠ 0) :
    x.signed.sign = if x.isNegative then -1 else 1 := by
  have hpos := units_magnitude_pos h
  rw [signed]
  cases x.isNegative with
  | true =>
    rw [if_pos rfl, if_pos rfl]
    exact Int.sign_eq_neg_one_of_neg (by omega)
  | false =>
    rw [if_neg Bool.false_ne_true, if_neg Bool.false_ne_true]
    exact Int.sign_eq_one_of_pos (by omega)

/-- Whether an operation gave a number of the sign of an integer. -/
def HasSign (x : Binary64) (n : Int) : Prop := x.isNaN = false ∧ x.signed.sign = n.sign

/-- A finite result has the sign it was rounded with. -/
theorem hasSign_finite {s : Sign} {m : Nat} {e : Int} (h : 0 < m) (hm : m < 2 ^ 53)
    (he : -1074 ≤ e) : (ofUnpacked (.finite s m e h)).HasSign (s.apply 1) := by
  obtain ⟨hneg, hne, hle⟩ := ofUnpacked_finite (s := s) h hm he
  refine ⟨(isNaN_eq_false_iff _).mpr hle, ?_⟩
  rw [sign_signed hne, hneg]
  cases s <;> rfl

/-- A zero has no sign as a number. -/
theorem hasSign_zero (s : Sign) : (ofUnpacked (.zero s)).HasSign 0 := by
  have h := (ofUnpacked_zero s).2
  refine ⟨(isNaN_eq_false_iff _).mpr (by omega), ?_⟩
  rw [signed_of_zero h]

/-- An infinity has its sign as a number. -/
theorem hasSign_infinity (s : Sign) : (ofUnpacked (.infinity s)).HasSign (s.apply 1) := by
  obtain ⟨hneg, hmag⟩ := ofUnpacked_infinity s
  refine ⟨(isNaN_eq_false_iff _).mpr (by omega), ?_⟩
  rw [sign_signed (by omega), hneg]
  cases s <;> rfl

/-- Rounding keeps the sign of an integer number of units. -/
theorem hasSign_normalize (n : Int) {e : Int} (he : -1074 ≤ e) :
    (ofUnpacked (UnpackedFloat.normalize .binary64 n e .positive)).HasSign n := by
  unfold UnpackedFloat.normalize
  rcases lt_trichotomy n 0 with hn | hn | hn
  · rw [Int.compare_eq_lt.mpr hn]
    obtain ⟨m, e', h, heq, hm, he'⟩ := round_finite .negative (m := (-n).toNat) (by omega) he
    simp only [heq]
    have hs := hasSign_finite (s := .negative) h hm he'
    exact ⟨hs.1, hs.2.trans (Int.sign_eq_neg_one_of_neg hn).symm⟩
  · subst hn
    exact hasSign_zero .positive
  · rw [Int.compare_eq_gt.mpr hn]
    obtain ⟨m, e', h, heq, hm, he'⟩ := round_finite .positive (m := n.toNat) (by omega) he
    simp only [heq]
    have hs := hasSign_finite (s := .positive) h hm he'
    exact ⟨hs.1, hs.2.trans (Int.sign_eq_one_of_pos hn).symm⟩

/-- The units of a finite value are those of its significand, with its sign. -/
theorem signed_eq_apply (x : Binary64) :
    x.signed = x.sign.apply ((x.significand * 2 ^ x.scale : Nat) : Int) := by
  rw [signed, units_magnitude, sign]
  cases x.isNegative <;> rfl

/-- A significand brought to a lower exponent keeps its units. -/
private theorem apply_decrease (s : Sign) (m : Nat) {scale low : Nat} (h : low ≤ scale) :
    s.apply ((decreaseExponent m ((scale : Int) - 1074) ((low : Int) - 1074)).1 : Int) *
      2 ^ low = s.apply ((m * 2 ^ scale : Nat) : Int) := by
  have hshift : ((scale : Int) - 1074 - ((low : Int) - 1074)).toNat = scale - low := by omega
  have hpow : m * 2 ^ (scale - low) * 2 ^ low = m * 2 ^ scale := by
    rw [Nat.mul_assoc, ← pow_add, Nat.sub_add_cancel h]
  have hcast : ((m * 2 ^ (scale - low) : Nat) : Int) * 2 ^ low = ((m * 2 ^ scale : Nat) : Int) := by
    rw [← hpow]
    push_cast
    rfl
  simp only [decreaseExponent, hshift, Nat.shiftLeft_eq]
  cases s with
  | positive => exact hcast
  | negative => exact (Int.neg_mul _ _).trans (congrArg Neg.neg hcast)

/-- The difference of finite values other than zero has the sign of the exact one. -/
private theorem sub_finite_finite {x y : Binary64} (hx : x.magnitude.toNat < 2047 * 2 ^ 52)
    (hy : y.magnitude.toNat < 2047 * 2 ^ 52) (hx0 : x.magnitude.toNat ≠ 0)
    (hy0 : y.magnitude.toNat ≠ 0) : (x - y).HasSign (x.signed - y.signed) := by
  obtain ⟨hxs, hxu⟩ := unpack_of_finite hx0 hx
  obtain ⟨hys, hyu⟩ := unpack_of_finite hy0 hy
  have hmin : min ((x.scale : Int) - 1074) ((y.scale : Int) - 1074) =
      ((min x.scale y.scale : Nat) : Int) - 1074 := by omega
  rw [sub_eq, hxu, hyu]
  simp only [UnpackedFloat.sub, hmin]
  have hxa := apply_decrease x.sign x.significand (Nat.min_le_left x.scale y.scale)
  have hya := apply_decrease y.sign y.significand (Nat.min_le_right x.scale y.scale)
  have hnorm := hasSign_normalize
    (x.sign.apply ((decreaseExponent x.significand ((x.scale : Int) - 1074)
        (((min x.scale y.scale : Nat) : Int) - 1074)).1 : Int) -
      y.sign.apply ((decreaseExponent y.significand ((y.scale : Int) - 1074)
        (((min x.scale y.scale : Nat) : Int) - 1074)).1 : Int))
    (e := ((min x.scale y.scale : Nat) : Int) - 1074) (by omega)
  refine ⟨hnorm.1, hnorm.2.trans ?_⟩
  rw [signed_eq_apply x, signed_eq_apply y, ← hxa, ← hya, ← Int.sub_mul, Int.sign_mul]
  have hpos : Int.sign (2 ^ min x.scale y.scale) = 1 := Int.sign_eq_one_of_pos (by positivity)
  rw [hpos, Int.mul_one]

private theorem apply_one (x : Binary64) : x.sign.apply 1 = if x.isNegative then -1 else 1 := by
  rw [sign]
  cases x.isNegative <;> rfl

/-- The difference of finite values has the sign of the exact one. -/
private theorem sub_finite {x y : Binary64} (hx : x.magnitude.toNat < 2047 * 2 ^ 52)
    (hy : y.magnitude.toNat < 2047 * 2 ^ 52) : (x - y).HasSign (x.signed - y.signed) := by
  have hxn : x.isNaN = false := (isNaN_eq_false_iff x).mpr hx.le
  by_cases hx0 : x.magnitude.toNat = 0
  · rw [signed_of_zero hx0, Int.zero_sub, sub_eq, unpack_of_zero hx0]
    by_cases hy0 : y.magnitude.toNat = 0
    · rw [signed_of_zero hy0, unpack_of_zero hy0]
      simp only [UnpackedFloat.sub]
      split
      · exact hasSign_zero _
      · exact hasSign_zero _
    · obtain ⟨hys, hyu⟩ := unpack_of_finite hy0 hy
      rw [hyu]
      have hsign := hasSign_finite (s := -y.sign) hys (e := (y.scale : Int) - 1074)
        (significand_lt y) (by omega)
      refine ⟨hsign.1, hsign.2.trans ?_⟩
      rw [Int.sign_neg, sign_signed hy0, ← apply_one]
      cases y.sign <;> rfl
  · by_cases hy0 : y.magnitude.toNat = 0
    · have hsub : x - y = x := by
        obtain ⟨hxs, hxu⟩ := unpack_of_finite hx0 hx
        rw [sub_eq, unpack_of_zero hy0, hxu]
        exact (congrArg ofUnpacked hxu.symm).trans (ofUnpacked_unpack hxn)
      rw [hsub, signed_of_zero hy0, Int.sub_zero]
      exact ⟨hxn, rfl⟩
    · exact sub_finite_finite hx hy hx0 hy0

/-- Every value that is below infinity on its own side of zero. -/
theorem signed_lt_infinity {x : Binary64}
    (h : x.isNegative = false → x.magnitude.toNat < 2047 * 2 ^ 52) :
    x.signed < units 52 (2047 * 2 ^ 52) := by
  have hpos : 0 < units 52 (2047 * 2 ^ 52) := by
    have hlt := units_strictMono 52 (show 0 < 2047 * 2 ^ 52 by decide)
    rwa [units_zero] at hlt
  rw [signed]
  cases hs : x.isNegative with
  | true =>
    rw [if_pos rfl]
    omega
  | false =>
    rw [if_neg Bool.false_ne_true]
    exact_mod_cast units_strictMono 52 (h hs)

/-- What is not negative infinity has more units than it. -/
theorem neg_infinity_lt_signed {x : Binary64}
    (h : x.isNegative = true → x.magnitude.toNat < 2047 * 2 ^ 52) :
    -(units 52 (2047 * 2 ^ 52) : Int) < x.signed := by
  have hpos : 0 < units 52 (2047 * 2 ^ 52) := by
    have hlt := units_strictMono 52 (show 0 < 2047 * 2 ^ 52 by decide)
    rwa [units_zero] at hlt
  rw [signed]
  cases hs : x.isNegative with
  | true =>
    rw [if_pos rfl]
    have hlt := units_strictMono 52 (h hs)
    omega
  | false =>
    rw [if_neg Bool.false_ne_true]
    omega

/-- The difference of two values has the sign of their order, unless it is one of two infinities
of one sign. -/
theorem hasSign_sub {x y : Binary64} (hx : x.isNaN = false) (hy : y.isNaN = false)
    (hlow : x.isNegative = true → x.magnitude.toNat < 2047 * 2 ^ 52)
    (hhigh : y.isNegative = false → y.magnitude.toNat < 2047 * 2 ^ 52) :
    (x - y).HasSign (x.signed - y.signed) := by
  have hxle := (isNaN_eq_false_iff x).mp hx
  have hyle := (isNaN_eq_false_iff y).mp hy
  have hone : ∀ n : Int, 0 < n → (ofUnpacked (.infinity .positive)).HasSign n := by
    intro n hn
    have hs := hasSign_infinity .positive
    exact ⟨hs.1, hs.2.trans (Int.sign_eq_one_of_pos hn).symm⟩
  by_cases hxi : x.magnitude.toNat = 2047 * 2 ^ 52
  · have hxs : x.isNegative = false := by
      by_contra hneg
      have hlt := hlow (Bool.not_eq_false _ ▸ hneg)
      omega
    have hval : x.signed = units 52 (2047 * 2 ^ 52) := by
      rw [signed, hxs, hxi, if_neg Bool.false_ne_true]
    have hlt := signed_lt_infinity hhigh
    have hsub : x - y = ofUnpacked (.infinity .positive) := by
      have hsign : x.sign = .positive := by rw [sign, hxs, if_neg Bool.false_ne_true]
      rw [sub_eq, unpack_of_infinite hxi, hsign]
      by_cases hyi : y.magnitude.toNat = 2047 * 2 ^ 52
      · have hys : y.sign = .negative := by
          rw [sign]
          cases hneg : y.isNegative with
          | true => rfl
          | false => exact absurd (hhigh hneg) (by omega)
        rw [unpack_of_infinite hyi, hys]
        rfl
      · by_cases hy0 : y.magnitude.toNat = 0
        · rw [unpack_of_zero hy0]
          rfl
        · obtain ⟨h, hyu⟩ := unpack_of_finite hy0 (by omega)
          rw [hyu]
          rfl
    rw [hsub]
    exact hone _ (by omega)
  by_cases hyi : y.magnitude.toNat = 2047 * 2 ^ 52
  · have hys : y.isNegative = true := by
      by_contra hneg
      have hlt := hhigh (Bool.not_eq_true _ ▸ hneg)
      omega
    have hval : y.signed = -(units 52 (2047 * 2 ^ 52) : Int) := by
      rw [signed, hys, hyi, if_pos rfl]
    have hlt := neg_infinity_lt_signed hlow
    have hsub : x - y = ofUnpacked (.infinity .positive) := by
      have hsign : y.sign = .negative := by rw [sign, hys, if_pos rfl]
      rw [sub_eq, unpack_of_infinite hyi, hsign]
      by_cases hx0 : x.magnitude.toNat = 0
      · rw [unpack_of_zero hx0]
        rfl
      · obtain ⟨h, hxu⟩ := unpack_of_finite hx0 (by omega)
        rw [hxu]
        rfl
    rw [hsub]
    exact hone _ (by omega)
  exact sub_finite (by omega) (by omega)

/-- Values that no comparison tells apart. -/
def Alike (x y : Binary64) : Prop := x.isNaN = y.isNaN ∧ x.signed = y.signed

/-- Alike values compare alike. -/
theorem Alike.lt_iff {x y x' y' : Binary64} (h : x.Alike x') (h' : y.Alike y') :
    x < y ↔ x' < y' := by
  rw [lt_iff_signed, lt_iff_signed, h.1, h.2, h'.1, h'.2]

/-- Values with equal units are equal or differ in the sign of zero only. -/
theorem eq_or_zero {x y : Binary64} (h : x.signed = y.signed) :
    x = y ∨ x.magnitude.toNat = 0 ∧ y.magnitude.toNat = 0 := by
  have hxu : x.magnitude.toNat ≠ 0 → 0 < units 52 x.magnitude.toNat := units_magnitude_pos
  have hyu : y.magnitude.toNat ≠ 0 → 0 < units 52 y.magnitude.toNat := units_magnitude_pos
  by_cases h0 : x.magnitude.toNat = 0 ∧ y.magnitude.toNat = 0
  · exact .inr h0
  left
  have hinj : units 52 x.magnitude.toNat = units 52 y.magnitude.toNat →
      x.magnitude.toNat = y.magnitude.toNat := fun he => (units_strictMono 52).injective he
  simp only [signed] at h
  cases hx : x.isNegative <;> cases hy : y.isNegative <;>
    simp only [hx, hy, ite_true, ite_false, Bool.false_eq_true] at h
  · exact eq_of_sign_magnitude (hx.trans hy.symm) (hinj (by omega))
  · exact absurd ⟨by by_contra hne; have := hxu hne; omega,
      by by_contra hne; have := hyu hne; omega⟩ h0
  · exact absurd ⟨by by_contra hne; have := hxu hne; omega,
      by by_contra hne; have := hyu hne; omega⟩ h0
  · exact eq_of_sign_magnitude (hx.trans hy.symm) (hinj (by omega))

/-- The two zeros are alike. -/
private theorem alike_zero (s t : Sign) : (ofUnpacked (.zero s)).Alike (ofUnpacked (.zero t)) := by
  have hs := hasSign_zero s
  have ht := hasSign_zero t
  refine ⟨hs.1.trans ht.1.symm, ?_⟩
  rw [signed_of_zero (ofUnpacked_zero s).2, signed_of_zero (ofUnpacked_zero t).2]

/-- Subtracting either zero, or from either zero, leads to alike values. -/
private theorem alike_sub_zero (s t : Sign) (u : UnpackedFloat) :
    (ofUnpacked (UnpackedFloat.sub .binary64 u (.zero s))).Alike
        (ofUnpacked (UnpackedFloat.sub .binary64 u (.zero t))) ∧
      (ofUnpacked (UnpackedFloat.sub .binary64 (.zero s) u)).Alike
        (ofUnpacked (UnpackedFloat.sub .binary64 (.zero t) u)) := by
  cases u with
  | zero r =>
    simp only [UnpackedFloat.sub]
    constructor <;> split <;> split <;> exact alike_zero _ _
  | notANumber => exact ⟨⟨rfl, rfl⟩, ⟨rfl, rfl⟩⟩
  | infinity r => exact ⟨⟨rfl, rfl⟩, ⟨rfl, rfl⟩⟩
  | finite r m e h => exact ⟨⟨rfl, rfl⟩, ⟨rfl, rfl⟩⟩

/-- Adding either zero, or to either zero, leads to alike values. -/
private theorem alike_add_zero (s t : Sign) (u : UnpackedFloat) :
    (ofUnpacked (UnpackedFloat.add .binary64 u (.zero s))).Alike
        (ofUnpacked (UnpackedFloat.add .binary64 u (.zero t))) ∧
      (ofUnpacked (UnpackedFloat.add .binary64 (.zero s) u)).Alike
        (ofUnpacked (UnpackedFloat.add .binary64 (.zero t) u)) := by
  cases u with
  | zero r =>
    simp only [UnpackedFloat.add]
    constructor <;> split <;> split <;> exact alike_zero _ _
  | notANumber => exact ⟨⟨rfl, rfl⟩, ⟨rfl, rfl⟩⟩
  | infinity r => exact ⟨⟨rfl, rfl⟩, ⟨rfl, rfl⟩⟩
  | finite r m e h => exact ⟨⟨rfl, rfl⟩, ⟨rfl, rfl⟩⟩

/-- An operation that leads to alike values from either zero does so from all values alike. -/
private theorem alike_of_zeros {op : UnpackedFloat → UnpackedFloat → UnpackedFloat}
    (hop : ∀ s t u, (ofUnpacked (op u (.zero s))).Alike (ofUnpacked (op u (.zero t))) ∧
      (ofUnpacked (op (.zero s) u)).Alike (ofUnpacked (op (.zero t) u)))
    {x x' y y' : Binary64} (hx : x.signed = x'.signed) (hy : y.signed = y'.signed) :
    (ofUnpacked (op x.unpack y.unpack)).Alike (ofUnpacked (op x'.unpack y'.unpack)) := by
  have hleft : (ofUnpacked (op x.unpack y.unpack)).Alike (ofUnpacked (op x'.unpack y.unpack)) := by
    rcases eq_or_zero hx with rfl | ⟨h, h'⟩
    · exact ⟨rfl, rfl⟩
    · rw [unpack_of_zero h, unpack_of_zero h']
      exact (hop _ _ _).2
  have hright : (ofUnpacked (op x'.unpack y.unpack)).Alike
      (ofUnpacked (op x'.unpack y'.unpack)) := by
    rcases eq_or_zero hy with rfl | ⟨h, h'⟩
    · exact ⟨rfl, rfl⟩
    · rw [unpack_of_zero h, unpack_of_zero h']
      exact (hop _ _ _).1
  exact ⟨hleft.1.trans hright.1, hleft.2.trans hright.2⟩

/-- Differences of values alike are alike. -/
theorem alike_sub {x x' y y' : Binary64} (hx : x.signed = x'.signed) (hy : y.signed = y'.signed) :
    (x - y).Alike (x' - y') := by
  rw [sub_eq, sub_eq]
  exact alike_of_zeros alike_sub_zero hx hy

/-- Sums of values alike are alike. -/
theorem alike_add {x x' y y' : Binary64} (hx : x.signed = x'.signed) (hy : y.signed = y'.signed) :
    (x + y).Alike (x' + y') := by
  rw [add_eq, add_eq]
  exact alike_of_zeros alike_add_zero hx hy

/-- Values with equal units are alike. -/
theorem alike_of_signed {x y : Binary64} (h : x.signed = y.signed) : x.Alike y := by
  rcases eq_or_zero h with rfl | ⟨hx, hy⟩
  · exact ⟨rfl, rfl⟩
  · refine ⟨?_, h⟩
    rw [(isNaN_eq_false_iff x).mpr (by omega), (isNaN_eq_false_iff y).mpr (by omega)]

private theorem half_negInfinity :
    Scalar.half (ofUnpacked (.infinity .negative)) = negInfinity := by
  decide +kernel

private theorem isNaN_half_notANumber : (Scalar.half (ofUnpacked .notANumber)).isNaN = true := by
  decide +kernel

/-- Half of a sum that negative infinity was added to is unordered or negative infinity again. -/
theorem half_negInfinity_add {x : Binary64} (y : Binary64) (hx : x.isNegative = true)
    (hxi : x.magnitude.toNat = 2047 * 2 ^ 52) :
    (Scalar.half (x + y)).isNaN = true ∨ Scalar.half (x + y) = negInfinity := by
  have hsign : x.sign = .negative := by rw [sign, hx, if_pos rfl]
  rw [add_eq, unpack_of_infinite hxi, hsign]
  cases y.unpack with
  | notANumber => exact .inl isNaN_half_notANumber
  | infinity s =>
    cases s with
    | negative => exact .inr half_negInfinity
    | positive => exact .inl isNaN_half_notANumber
  | zero s => exact .inr half_negInfinity
  | finite s m e h => exact .inr half_negInfinity

end Proximity.Binary64

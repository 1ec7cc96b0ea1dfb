import Mathlib
import Proximity.Proofs.Number.Stretching

/-!
# Sums that grow

Rounding never goes below a value that a number has reached: of the bits of the number it drops none
that the value has. So a sum of two values that are not below zero is at least as large as either,
up to infinity, and a sum that was unordered stays so.
-/

namespace Proximity.Binary64

open Float.Model Float.Model.UnpackedFloat

section Rounding

/-- A number that has reached a value of 53 bits has reached it still when it is shifted. -/
theorem le_mantissa_shifted {m low size scale : Nat} (hsize : size < 2 ^ 53)
    (h : size * 2 ^ scale ≤ m * 2 ^ low) :
    size * 2 ^ scale ≤ (shifted m).mantissa * 2 ^ (low + (m.log2 - 52)) := by
  rw [mantissa_shifted]
  obtain hfew | ⟨k, hk⟩ : m.log2 - 52 = 0 ∨ ∃ k, m.log2 = 52 + k :=
    (Nat.eq_zero_or_pos (m.log2 - 52)).imp_right fun _ => ⟨m.log2 - 52, by omega⟩
  · rwa [hfew, pow_zero, Nat.div_one, Nat.add_zero]
  · rw [hk, Nat.add_sub_cancel_left]
    rcases Nat.lt_or_ge scale (low + k) with hlow | hhigh
    · -- The value ends below the last bit that is kept, which is not the first one.
      have hm : m ≠ 0 := fun h0 => by
        rw [h0, Nat.log2_zero] at hk
        omega
      have hlead : 2 ^ 52 ≤ m / 2 ^ k := by
        rw [Nat.le_div_iff_mul_le (Nat.two_pow_pos k), ← pow_add, ← hk]
        exact Nat.log2_self_le hm
      calc size * 2 ^ scale ≤ 2 ^ 53 * 2 ^ scale := Nat.mul_le_mul_right _ hsize.le
        _ = 2 ^ 52 * 2 ^ (scale + 1) := by rw [← pow_add, ← pow_add, Nat.add_comm scale,
          ← Nat.add_assoc]
        _ ≤ m / 2 ^ k * 2 ^ (low + k) :=
          Nat.mul_le_mul hlead (Nat.pow_le_pow_right (by decide) hlow)
    · obtain ⟨more, rfl⟩ := Nat.exists_eq_add_of_le hhigh
      have hdiv : size * 2 ^ more ≤ m / 2 ^ k := by
        rw [Nat.le_div_iff_mul_le (Nat.two_pow_pos k)]
        refine Nat.le_of_mul_le_mul_right (c := 2 ^ low) ?_ (Nat.two_pow_pos low)
        calc size * 2 ^ more * 2 ^ k * 2 ^ low = size * 2 ^ (low + k + more) := by
              rw [Nat.mul_assoc, Nat.mul_assoc, ← pow_add, ← pow_add]
              congr 2
              omega
          _ ≤ m * 2 ^ low := h
      calc size * 2 ^ (low + k + more) = size * 2 ^ more * 2 ^ (low + k) := by
            rw [Nat.mul_assoc, ← pow_add, Nat.add_comm]
        _ ≤ m / 2 ^ k * 2 ^ (low + k) := Nat.mul_le_mul_right _ hdiv

/-- A number of 53 bits or more keeps 53 of them. -/
theorem le_mantissa_of_log2 {m : Nat} (h : 52 ≤ m.log2) : 2 ^ 52 ≤ (shifted m).mantissa := by
  have hm : m ≠ 0 := fun h0 => by
    rw [h0, Nat.log2_zero] at h
    omega
  rw [mantissa_shifted, Nat.le_div_iff_mul_le (Nat.two_pow_pos _), ← pow_add,
    Nat.add_sub_cancel' h]
  exact Nat.log2_self_le hm

/-- Doubling raises the place of the leading bit by one each time. -/
theorem log2_mul_two_pow {m : Nat} (hm : 0 < m) (k : Nat) : (m * 2 ^ k).log2 = m.log2 + k := by
  rw [Nat.log2_eq_iff (Nat.mul_pos hm (Nat.two_pow_pos k)).ne', pow_add,
    show m.log2 + k + 1 = m.log2 + 1 + k by omega, pow_add 2 (m.log2 + 1)]
  exact ⟨Nat.mul_le_mul_right _ (Nat.log2_self_le hm.ne'),
    Nat.mul_lt_mul_of_pos_right Nat.lt_log2_self (Nat.two_pow_pos k)⟩

/-- Before it is rounded, a number is shifted up to 53 bits, or as far as to the least exponent. -/
theorem round_eq (s : Sign) {m : Nat} (hm : 0 < m) (low : Nat) :
    ∃ rest more, low = rest + more ∧ (52 ≤ (m * 2 ^ more).log2 ∨ rest = 0) ∧
      UnpackedFloat.round .binary64 s m ((low : Int) - 1074) =
        roundWithAccuracy .binary64 s (m * 2 ^ more) ((rest : Int) - 1074) .exact := by
  have htarget : Format.binary64.targetExponent (totalExponent m ((low : Int) - 1074)) =
      max ((m.log2 : Int) + 1 + ((low : Int) - 1074) - 53) (-1074) := rfl
  have hmore : ((low : Int) - 1074 -
      Format.binary64.targetExponent (totalExponent m ((low : Int) - 1074))).toNat =
      min (52 - m.log2) low := by
    omega
  refine ⟨low - min (52 - m.log2) low, min (52 - m.log2) low, by omega, ?_, ?_⟩
  · rw [log2_mul_two_pow hm]
    omega
  · rw [UnpackedFloat.round]
    simp only [decreaseExponent, hmore, Nat.shiftLeft_eq]
    congr 1
    omega

/-- What a number from the least exponent on is rounded to: it has 53 bits unless it has the least
exponent, and it has reached every value of 53 bits that the number had. -/
theorem round_reaches {m : Nat} (hm : 0 < m) (low : Nat) :
    ∃ size scale h, UnpackedFloat.round .binary64 .positive m ((low : Int) - 1074) =
        .finite .positive size (((scale : Nat) : Int) - 1074) h ∧
      size < 2 ^ 53 ∧ (2 ^ 52 ≤ size ∨ scale = 0) ∧
      ∀ n t, n < 2 ^ 53 → n * 2 ^ t ≤ m * 2 ^ low → n * 2 ^ t ≤ size * 2 ^ scale := by
  obtain ⟨rest, more, rfl, hfull, heq⟩ := round_eq .positive hm low
  have hlarge : 0 < m * 2 ^ more := Nat.mul_pos hm (Nat.two_pow_pos more)
  obtain ⟨hlt, h, hround⟩ := roundWithAccuracy_eq .positive hlarge
    (show -1074 ≤ (rest : Int) - 1074 by omega)
  refine ⟨_, rest + ((m * 2 ^ more).log2 - 52) +
    ((shifted (m * 2 ^ more)).roundedMantissa.log2 - 52), h, ?_, hlt, ?_, ?_⟩
  · rw [heq, hround]
    congr 1
    push_cast
    omega
  · rcases Nat.lt_or_ge (shifted (m * 2 ^ more)).roundedMantissa.log2 52 with hfew | hmany
    · have hbegan : (m * 2 ^ more).log2 < 52 := by
        by_contra hnot
        have hkept := (le_mantissa_of_log2 (Nat.le_of_not_lt hnot)).trans (le_roundedMantissa _)
        exact absurd ((Nat.le_log2 (Nat.ne_of_gt (hkept.trans_lt' (by decide)))).mpr hkept)
          hfew.not_ge
      exact .inr (by omega)
    · exact .inl (le_mantissa_of_log2 hmany)
  · intro n t hn hle
    have hreached : n * 2 ^ t ≤ m * 2 ^ more * 2 ^ rest := by
      rwa [Nat.mul_assoc, ← pow_add, Nat.add_comm more]
    exact le_mantissa_shifted hn ((le_mantissa_shifted hn hreached).trans
      (Nat.mul_le_mul_right _ (le_roundedMantissa _)))

/-- A finite result of 53 bits, or of the least exponent, packs into its units, or is infinite. -/
theorem units_ofUnpacked {size scale : Nat} (h : 0 < size) (hsize : size < 2 ^ 53)
    (hfull : 2 ^ 52 ≤ size ∨ scale = 0) :
    (ofUnpacked (.finite .positive size ((scale : Int) - 1074) h)).magnitude.toNat =
        2047 * 2 ^ 52 ∨
      units 52 (ofUnpacked (.finite .positive size ((scale : Int) - 1074) h)).magnitude.toNat =
        size * 2 ^ scale := by
  obtain ⟨x, hx⟩ : ∃ x, x = ofUnpacked (.finite .positive size ((scale : Int) - 1074) h) :=
    ⟨_, rfl⟩
  have hlog : size.log2 < 53 := (Nat.log2_lt h.ne').mpr hsize
  have hexponent : ((scale : Int) - 1074 + 1075).toNat = scale + 1 := by omega
  have hpack : x.bits.toBitVec = _ :=
    (congrArg (·.bits.toBitVec) hx).trans
      (pack_finite (s := .positive) (e := (scale : Int) - 1074) h)
  rw [← hx]
  rw [hexponent] at hpack
  by_cases hlarge : 2 ^ 11 ≤ scale + 1 + 1
  · rw [if_pos hlarge] at hpack
    exact .inl (parts_of_packComponents hpack).2
  right
  rw [if_neg hlarge] at hpack
  by_cases hlead : size.log2 + 1 = 53
  · have hge : 2 ^ 52 ≤ size := (Nat.le_log2 h.ne').mp (by omega)
    obtain ⟨fraction, rfl⟩ := Nat.exists_eq_add_of_le hge
    rw [if_pos hlead] at hpack
    have hparts := (parts_of_packComponents hpack).2
    rw [BitVec.toNat_ofNat, BitVec.toNat_ofNat, Nat.mod_eq_of_lt (by omega),
      Nat.add_mod_left, Nat.mod_eq_of_lt (by omega)] at hparts
    rw [hparts, units_fields 52 _ (by omega), if_neg (Nat.succ_ne_zero _), Nat.add_sub_cancel]
  · have hlt : size < 2 ^ 52 := (Nat.log2_lt h.ne').mp (by omega)
    rw [if_neg hlead] at hpack
    have hparts := (parts_of_packComponents hpack).2
    rw [BitVec.toNat_ofNat, BitVec.toNat_ofNat, Nat.zero_mod, Nat.mod_eq_of_lt hlt] at hparts
    rw [hparts, hfull.resolve_left hlt.not_ge]
    exact (units_fields 52 0 hlt).trans (Nat.mul_one size).symm

end Rounding

section Sums

variable {x y : Binary64}

/-- A value that is not below zero has the units of its magnitude. -/
theorem signed_of_zero_le (hx : 0 ≤ x) : x.signed = units 52 x.magnitude.toNat := by
  by_cases h0 : x.magnitude.toNat = 0
  · rw [signed_of_zero h0, h0, units_zero]
    rfl
  · rw [signed, isNegative_of_zero_le hx h0, if_neg Bool.false_ne_true]

/-- Values that are not below zero are ordered as their units are. -/
theorem le_of_units_le (hx : 0 ≤ x) (hy : 0 ≤ y)
    (h : units 52 x.magnitude.toNat ≤ units 52 y.magnitude.toNat) : x ≤ y := by
  rw [le_iff_signed, signed_of_zero_le hx, signed_of_zero_le hy]
  exact ⟨(zero_le_iff.mp hx).1, (zero_le_iff.mp hy).1, Int.ofNat_le.mpr h⟩

/-- The sum of two finite values above zero is the rounded sum of their units. -/
private theorem add_finite_finite (hx : 0 ≤ x) (hy : 0 ≤ y) (hx0 : x.magnitude.toNat ≠ 0)
    (hy0 : y.magnitude.toNat ≠ 0) (hxf : x.magnitude.toNat < 2047 * 2 ^ 52)
    (hyf : y.magnitude.toNat < 2047 * 2 ^ 52) :
    ∃ total low : Nat, 0 < total ∧ total * 2 ^ low =
        units 52 x.magnitude.toNat + units 52 y.magnitude.toNat ∧
      x + y = ofUnpacked (UnpackedFloat.round .binary64 .positive total ((low : Int) - 1074)) := by
  obtain ⟨hxs, hxu⟩ := unpack_of_finite hx0 hxf
  obtain ⟨hys, hyu⟩ := unpack_of_finite hy0 hyf
  obtain ⟨low, hlow⟩ : ∃ low, low = min x.scale y.scale := ⟨_, rfl⟩
  have hmin : min ((x.scale : Int) - 1074) ((y.scale : Int) - 1074) = (low : Int) - 1074 := by
    omega
  have hleft : ((x.scale : Int) - 1074 - ((low : Int) - 1074)).toNat = x.scale - low := by omega
  have hright : ((y.scale : Int) - 1074 - ((low : Int) - 1074)).toNat = y.scale - low := by omega
  have hpos : 0 < x.significand * 2 ^ (x.scale - low) + y.significand * 2 ^ (y.scale - low) :=
    Nat.add_pos_left (Nat.mul_pos hxs (Nat.two_pow_pos _)) _
  refine ⟨_, low, hpos, ?_, ?_⟩
  · rw [units_magnitude, units_magnitude, Nat.add_mul, Nat.mul_assoc, Nat.mul_assoc, ← pow_add,
      ← pow_add, Nat.sub_add_cancel (by omega), Nat.sub_add_cancel (by omega)]
  · rw [add_eq, hxu, hyu, sign_of_zero_le hx hx0, sign_of_zero_le hy hy0]
    simp only [UnpackedFloat.add, hmin, decreaseExponent, hleft, hright, Sign.apply,
      Nat.shiftLeft_eq, ← Nat.cast_add]
    rw [normalize_of_pos hpos]

/-- A sum with infinity is infinite. -/
private theorem add_infinite (hx : 0 ≤ x) (hy : 0 ≤ y)
    (h : x.magnitude.toNat = 2047 * 2 ^ 52 ∨ y.magnitude.toNat = 2047 * 2 ^ 52) :
    (x + y).magnitude.toNat = 2047 * 2 ^ 52 := by
  have hinfinite := (ofUnpacked_infinity .positive).2
  rw [add_eq]
  rcases h with hxi | hyi
  · rw [unpack_of_infinite hxi, sign_of_zero_le hx (by omega)]
    rcases unpack_cases (zero_le_iff.mp hy).1 with ⟨-, hyu⟩ | ⟨hyi, hyu⟩ | ⟨-, -, hys, hyu⟩
    · rw [hyu]
      exact hinfinite
    · rw [hyu, sign_of_zero_le hy (by omega)]
      exact hinfinite
    · rw [hyu]
      exact hinfinite
  · rw [unpack_of_infinite hyi, sign_of_zero_le hy (by omega)]
    rcases unpack_cases (zero_le_iff.mp hx).1 with ⟨-, hxu⟩ | ⟨hxi, hxu⟩ | ⟨-, -, hxs, hxu⟩
    · rw [hxu]
      exact hinfinite
    · rw [hxu, sign_of_zero_le hx (by omega)]
      exact hinfinite
    · rw [hxu]
      exact hinfinite

/-- A sum of two values that are not below zero is not below the first. -/
theorem le_add (hx : 0 ≤ x) (hy : 0 ≤ y) : x ≤ x + y := by
  have hxn := (zero_le_iff.mp hx).1
  have hyn := (zero_le_iff.mp hy).1
  have hxle := (isNaN_eq_false_iff x).mp hxn
  have hyle := (isNaN_eq_false_iff y).mp hyn
  refine le_of_units_le hx (zero_le_add hx hy) ?_
  by_cases hx0 : x.magnitude.toNat = 0
  · rw [hx0, units_zero]
    exact Nat.zero_le _
  by_cases hinfinite : x.magnitude.toNat = 2047 * 2 ^ 52 ∨ y.magnitude.toNat = 2047 * 2 ^ 52
  · rw [add_infinite hx hy hinfinite]
    exact (units_strictMono 52).monotone hxle
  by_cases hy0 : y.magnitude.toNat = 0
  · have hsame : x + y = x := by
      obtain ⟨hxs, hxu⟩ := unpack_of_finite hx0 (by omega)
      rw [add_eq, unpack_of_zero hy0, hxu]
      exact (congrArg ofUnpacked hxu.symm).trans (ofUnpacked_unpack hxn)
    rw [hsame]
  obtain ⟨total, low, hpos, htotal, hadd⟩ :=
    add_finite_finite hx hy hx0 hy0 (by omega) (by omega)
  obtain ⟨size, scale, h, hround, hsize, hfull, hreached⟩ := round_reaches hpos low
  have hunits := units_magnitude x
  rw [hadd, hround]
  rcases units_ofUnpacked h hsize hfull with hinf | hexact
  · rw [hinf]
    exact (units_strictMono 52).monotone hxle
  · rw [hexact, hunits]
    exact hreached _ _ (significand_lt x) (by omega)

/-- A sum is unordered if one of its terms is. -/
theorem isNaN_add (h : x.isNaN = true ∨ y.isNaN = true) : (x + y).isNaN = true := by
  rw [add_eq]
  rcases h with hx | hy
  · rw [unpack_of_isNaN hx]
    exact ofUnpacked_notANumber
  · rw [unpack_of_isNaN hy]
    cases x.unpack <;> exact ofUnpacked_notANumber

end Sums

section Squares

variable {acc : Binary64}

/-- A square is no number, or a value with the sign above zero. -/
theorem square_cases (x : Binary64) :
    x * x = ofUnpacked .notANumber ∨ 0 ≤ x * x ∧ (x * x).isNegative = false := by
  cases hx : x.isNaN with
  | true =>
    rw [mul_eq, unpack_of_isNaN hx]
    exact .inl rfl
  | false =>
    refine .inr ⟨zero_le_square hx, ?_⟩
    have hsign : x.sign * x.sign = .positive := by
      cases x.sign <;> rfl
    rw [mul_eq]
    rcases unpack_cases hx with ⟨-, hu⟩ | ⟨-, hu⟩ | ⟨-, -, hs, hu⟩ <;> rw [hu]
    · simp only [UnpackedFloat.mul, hsign]
      exact (ofUnpacked_zero .positive).1
    · simp only [UnpackedFloat.mul, hsign]
      exact (ofUnpacked_infinity .positive).1
    · simp only [UnpackedFloat.mul, hsign]
      rcases roundWithAccuracy_cases .positive (x.significand * x.significand)
        ((x.scale : Int) - 1074 + ((x.scale : Int) - 1074)) with hround | ⟨m, e, h, hround, hm, he⟩
      · rw [hround]
        exact (ofUnpacked_zero .positive).1
      · rw [hround]
        exact (ofUnpacked_finite h hm he).1

/-- Zero adds nothing to a square. -/
theorem zero_add_square (x : Binary64) : 0 + x * x = x * x := by
  rcases square_cases x with hnan | ⟨hnonneg, hsign⟩
  · rw [hnan]
    rfl
  · generalize x * x = square at hnonneg hsign ⊢
    have hordered := (zero_le_iff.mp hnonneg).1
    have hpositive : square.sign = .positive := by
      rw [sign, hsign, if_neg Bool.false_ne_true]
    have hzero : (0 : Binary64).unpack = .zero .positive := unpack_of_zero (by decide)
    conv_rhs => rw [← ofUnpacked_unpack hordered]
    rw [add_eq, hzero]
    rcases unpack_cases hordered with ⟨-, hu⟩ | ⟨-, hu⟩ | ⟨-, -, hs, hu⟩
    · rw [hu, hpositive]
      rfl
    · rw [hu]
      rfl
    · rw [hu]
      rfl

/-- Whether a sum has begun at zero and only grown since: it is not below zero, or no number. -/
def Grown (acc : Binary64) : Prop := acc.isNaN = true ∨ 0 ≤ acc

/-- Adding a square keeps a sum grown. -/
theorem Grown.add_square (h : acc.Grown) (x : Binary64) : (acc + x * x).Grown := by
  rcases h with hnan | hnonneg
  · exact .inl (isNaN_add (.inl hnan))
  · rcases square_cases x with hnan | ⟨hsquare, -⟩
    · exact .inl (isNaN_add (.inr (hnan ▸ ofUnpacked_notANumber)))
    · exact .inr (zero_le_add hnonneg hsquare)

/-- What a grown sum and a square are at most, the sum alone is at most. -/
theorem Grown.le_of_add_le (h : acc.Grown) {x worst : Binary64} (hle : acc + x * x ≤ worst) :
    acc ≤ worst := by
  obtain ⟨hordered, -, hsigned⟩ := (le_iff_signed _ _).mp hle
  have hacc : 0 ≤ acc := h.resolve_left fun hnan =>
    Bool.false_ne_true (hordered.symm.trans (isNaN_add (.inl hnan)))
  rcases square_cases x with hnan | ⟨hsquare, -⟩
  · exact absurd (hordered.symm.trans (isNaN_add (.inr (hnan ▸ ofUnpacked_notANumber))))
      Bool.false_ne_true
  · obtain ⟨hleft, -, hgrows⟩ := (le_iff_signed _ _).mp (le_add hacc hsquare)
    exact (le_iff_signed _ _).mpr ⟨hleft, ((le_iff_signed _ _).mp hle).2.1, hgrows.trans hsigned⟩

end Squares

end Proximity.Binary64

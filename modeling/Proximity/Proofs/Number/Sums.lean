import Mathlib
import Proximity.Proofs.Number.Difference

/-!
# Sums of squares

A difference is ordered unless it is one of two infinities of one sign, the square of an ordered
value is ordered and not below zero, and so is a sum of such values. Rounding may bring a square
to zero or to infinity, but not below zero.
-/

namespace Proximity.Binary64

open Float.Model Float.Model.UnpackedFloat

/-- A value is not below zero exactly if it is ordered and its units are not. -/
theorem zero_le_iff {x : Binary64} : 0 ≤ x ↔ x.isNaN = false ∧ 0 ≤ x.signed := by
  have hzero : (0 : Binary64).isNaN = false ∧ (0 : Binary64).signed = 0 := by decide
  rw [le_iff_signed, hzero.2]
  exact ⟨And.right, fun h => ⟨hzero.1, h⟩⟩

/-- A result with the sign of an exact number that is not below zero is not below zero. -/
theorem HasSign.zero_le {x : Binary64} {n : Int} (h : x.HasSign n) (hn : 0 ≤ n) : 0 ≤ x := by
  refine zero_le_iff.mpr ⟨h.1, ?_⟩
  rw [← Int.sign_nonneg_iff, h.2]
  exact Int.sign_nonneg_iff.mpr hn

/-- An ordered value is zero, infinite or some units away from zero. -/
theorem unpack_cases {x : Binary64} (h : x.isNaN = false) :
    (x.magnitude.toNat = 0 ∧ x.unpack = .zero x.sign) ∨
      (x.magnitude.toNat = 2047 * 2 ^ 52 ∧ x.unpack = .infinity x.sign) ∨
      (x.magnitude.toNat ≠ 0 ∧ x.magnitude.toNat < 2047 * 2 ^ 52 ∧
        ∃ hs, x.unpack = .finite x.sign x.significand ((x.scale : Int) - 1074) hs) := by
  have hle := (isNaN_eq_false_iff x).mp h
  by_cases h0 : x.magnitude.toNat = 0
  · exact .inl ⟨h0, unpack_of_zero h0⟩
  by_cases hinf : x.magnitude.toNat = 2047 * 2 ^ 52
  · exact .inr (.inl ⟨hinf, unpack_of_infinite hinf⟩)
  · exact .inr (.inr ⟨h0, by omega, unpack_of_finite h0 (by omega)⟩)

/-- A value that is not below zero has the sign above it, unless it is zero. -/
theorem sign_of_zero_le {x : Binary64} (h : 0 ≤ x) (h0 : x.magnitude.toNat ≠ 0) :
    x.sign = .positive := by
  have hsigned := sign_signed h0
  have hnonneg := Int.sign_nonneg_iff.mpr (zero_le_iff.mp h).2
  rw [sign]
  cases hneg : x.isNegative with
  | false => rfl
  | true =>
    rw [hneg, if_pos rfl] at hsigned
    omega

/-- A product is the one that arithmetic takes of the unpacked values. -/
theorem mul_eq (x y : Binary64) :
    x * y = ofUnpacked (UnpackedFloat.mul .binary64 x.unpack y.unpack) := by
  rw [← unpack_ofUnpacked_unpack x, ← unpack_ofUnpacked_unpack y]
  rfl

/-- The difference of two ordered values is ordered unless both are infinite and have one sign. -/
theorem isNaN_sub {x y : Binary64} (hx : x.isNaN = false) (hy : y.isNaN = false)
    (h : x.magnitude.toNat < 2047 * 2 ^ 52 ∨ y.magnitude.toNat < 2047 * 2 ^ 52 ∨
      x.isNegative ≠ y.isNegative) : (x - y).isNaN = false := by
  have hinfinite (s : Sign) : (ofUnpacked (.infinity s)).isNaN = false := (hasSign_infinity s).1
  rcases unpack_cases hx with ⟨-, hxu⟩ | ⟨hxi, hxu⟩ | ⟨-, hxi, hxs, hxu⟩ <;>
    rcases unpack_cases hy with ⟨-, hyu⟩ | ⟨hyi, hyu⟩ | ⟨-, hyi, hys, hyu⟩
  case inr.inl.inr.inl =>
    have hsign : (x.sign == -y.sign) = true := by
      have hne := (h.resolve_left (by omega)).resolve_left (by omega)
      rw [sign, sign]
      cases hxn : x.isNegative <;> cases hyn : y.isNegative
      · exact absurd (hxn.trans hyn.symm) hne
      · rfl
      · rfl
      · exact absurd (hxn.trans hyn.symm) hne
    rw [sub_eq, hxu, hyu]
    simp only [UnpackedFloat.sub, hsign, ite_true]
    exact hinfinite _
  case inr.inr.inr.inr => exact (hasSign_sub hx hy (fun _ => hxi) fun _ => hyi).1
  case inl.inl =>
    rw [sub_eq, hxu, hyu]
    simp only [UnpackedFloat.sub]
    split <;> exact (hasSign_zero _).1
  case inl.inr.inr =>
    rw [sub_eq, hxu, hyu]
    exact (hasSign_finite hys (significand_lt y) (by omega)).1
  case inr.inr.inl =>
    rw [sub_eq, hxu, hyu]
    exact (hasSign_finite hxs (significand_lt x) (by omega)).1
  all_goals
    rw [sub_eq, hxu, hyu]
    exact hinfinite _

/-- The difference of two values in order is ordered. -/
theorem isNaN_sub_of_lt {x y : Binary64} (h : x < y) :
    (x - y).isNaN = false ∧ (y - x).isNaN = false := by
  obtain ⟨hx, hy, hlt⟩ := (lt_iff_signed x y).mp h
  have hxle := (isNaN_eq_false_iff x).mp hx
  have hyle := (isNaN_eq_false_iff y).mp hy
  have hapart : x.magnitude.toNat < 2047 * 2 ^ 52 ∨ y.magnitude.toNat < 2047 * 2 ^ 52 ∨
      x.isNegative ≠ y.isNegative := by
    by_contra hnot
    rw [not_or, not_or, not_not] at hnot
    have hsame : x.magnitude.toNat = y.magnitude.toNat := by omega
    rw [signed, signed, hnot.2.2, hsame] at hlt
    exact Int.lt_irrefl _ hlt
  refine ⟨isNaN_sub hx hy hapart, isNaN_sub hy hx ?_⟩
  rcases hapart with hfinite | hfinite | hsign
  · exact .inr (.inl hfinite)
  · exact .inl hfinite
  · exact .inr (.inr hsign.symm)

/-- A number is shifted until its significand has at most 53 bits and its exponent is in range. -/
private theorem shift_bounds (m : Nat) (e : Int) :
    (shiftToTargetExponent .binary64 m e .exact).1.mantissa < 2 ^ 53 ∧
      -1074 ≤ (shiftToTargetExponent .binary64 m e .exact).2 := by
  obtain ⟨amount, hamount⟩ : ∃ amount : Nat,
      amount = (max ((m.log2 : Int) + 1 + e - 53) (-1074) - e).toNat := ⟨_, rfl⟩
  have hshift : shiftToTargetExponent .binary64 m e .exact =
      (ExtendedMantissa.mk m false false >>> amount, e + (amount : Int)) := by
    rw [hamount]
    rfl
  rw [hshift]
  constructor
  · show (ExtendedMantissa.mk m false false >>> amount).mantissa < 2 ^ 53
    rw [mantissa_shiftRight, Nat.div_lt_iff_lt_mul (by positivity), ← pow_add]
    show m < 2 ^ (53 + amount)
    exact Nat.lt_log2_self.trans_le (Nat.pow_le_pow_right (by decide) (by omega))
  · show -1074 ≤ e + (amount : Int)
    omega

/-- Rounding keeps the sign, but may come to zero or to what packs as infinity. -/
theorem roundWithAccuracy_cases (s : Sign) (m : Nat) (e : Int) :
    roundWithAccuracy .binary64 s m e .exact = .zero s ∨
      ∃ m' e' h, roundWithAccuracy .binary64 s m e .exact = .finite s m' e' h ∧
        m' < 2 ^ 53 ∧ -1074 ≤ e' := by
  unfold roundWithAccuracy
  generalize shiftToTargetExponent .binary64 m e .exact = first
  obtain ⟨em, e₁⟩ := first
  have hbounds := shift_bounds em.roundedMantissa e₁
  dsimp only
  generalize shiftToTargetExponent .binary64 em.roundedMantissa e₁ .exact = last at hbounds ⊢
  obtain ⟨final, e₂⟩ := last
  dsimp only at hbounds ⊢
  by_cases hzero : final.mantissa = 0
  · rw [dif_pos hzero]
    exact .inl rfl
  · rw [dif_neg hzero]
    exact .inr ⟨_, _, _, rfl, hbounds⟩

/-- The square of an ordered value is not below zero. -/
theorem zero_le_square {x : Binary64} (hx : x.isNaN = false) : 0 ≤ x * x := by
  have hsign : x.sign * x.sign = .positive := by
    cases x.sign <;> rfl
  rw [mul_eq]
  rcases unpack_cases hx with ⟨-, hu⟩ | ⟨-, hu⟩ | ⟨-, -, hs, hu⟩ <;> rw [hu]
  · exact (hasSign_zero _).zero_le (Int.le_refl 0)
  · simp only [UnpackedFloat.mul, hsign]
    exact (hasSign_infinity .positive).zero_le Int.one_nonneg
  · simp only [UnpackedFloat.mul, hsign]
    rcases roundWithAccuracy_cases .positive (x.significand * x.significand)
      ((x.scale : Int) - 1074 + ((x.scale : Int) - 1074)) with hround | ⟨m, e, h, hround, hm, he⟩
    · rw [hround]
      exact (hasSign_zero _).zero_le (Int.le_refl 0)
    · rw [hround]
      exact (hasSign_finite h hm he).zero_le Int.one_nonneg

/-- Without its sign an ordered value is not below zero. -/
theorem zero_le_abs {x : Binary64} (hx : x.isNaN = false) : 0 ≤ x.abs := by
  obtain ⟨hsign, hsize⟩ :
      x.abs.isNegative = false ∧ x.abs.magnitude.toNat = x.magnitude.toNat :=
    layout.parts_signed x.magnitude (magnitude_lt x) false
  refine zero_le_iff.mpr ⟨?_, ?_⟩
  · rwa [isNaN_eq_false_iff, hsize, ← isNaN_eq_false_iff]
  · rw [signed, hsign, if_neg Bool.false_ne_true]
    exact Int.natCast_nonneg _

/-- The sum of two values that are not below zero is not below zero. -/
theorem zero_le_add {x y : Binary64} (hx : 0 ≤ x) (hy : 0 ≤ y) : 0 ≤ x + y := by
  have hxn := (zero_le_iff.mp hx).1
  have hyn := (zero_le_iff.mp hy).1
  have hinfinite : 0 ≤ ofUnpacked (.infinity .positive) :=
    (hasSign_infinity .positive).zero_le Int.one_nonneg
  rw [add_eq]
  rcases unpack_cases hxn with ⟨hx0, hxu⟩ | ⟨hxi, hxu⟩ | ⟨hx0, -, hxs, hxu⟩
  · rcases unpack_cases hyn with ⟨-, hyu⟩ | ⟨hyi, hyu⟩ | ⟨hy0, -, hys, hyu⟩
    · rw [hxu, hyu]
      simp only [UnpackedFloat.add]
      split <;> exact (hasSign_zero _).zero_le (Int.le_refl 0)
    · rw [hxu, hyu, sign_of_zero_le hy (by omega)]
      exact hinfinite
    · rw [← ofUnpacked_unpack hyn, hyu] at hy
      rw [hxu, hyu]
      exact hy
  · rw [hxu, sign_of_zero_le hx (by omega)]
    rcases unpack_cases hyn with ⟨-, hyu⟩ | ⟨hyi, hyu⟩ | ⟨-, -, hys, hyu⟩
    · rw [hyu]
      exact hinfinite
    · rw [hyu, sign_of_zero_le hy (by omega)]
      exact hinfinite
    · rw [hyu]
      exact hinfinite
  · rcases unpack_cases hyn with ⟨-, hyu⟩ | ⟨hyi, hyu⟩ | ⟨hy0, -, hys, hyu⟩
    · rw [← ofUnpacked_unpack hxn, hxu] at hx
      rw [hxu, hyu]
      exact hx
    · rw [hxu, hyu, sign_of_zero_le hy (by omega)]
      exact hinfinite
    · have hmin : min ((x.scale : Int) - 1074) ((y.scale : Int) - 1074) =
          ((min x.scale y.scale : Nat) : Int) - 1074 := by omega
      rw [hxu, hyu, sign_of_zero_le hx hx0, sign_of_zero_le hy hy0]
      simp only [UnpackedFloat.add, hmin]
      exact (hasSign_normalize _ (by omega)).zero_le (by simp only [Sign.apply]; omega)

/-- The sign of zero does not matter to a sum with a value that is not zero. -/
theorem add_zero_congr {x : Binary64} (hx : x.magnitude.toNat ≠ 0) (s t : Sign) :
    ofUnpacked (UnpackedFloat.add .binary64 x.unpack (.zero s)) =
        ofUnpacked (UnpackedFloat.add .binary64 x.unpack (.zero t)) ∧
      ofUnpacked (UnpackedFloat.add .binary64 (.zero s) x.unpack) =
        ofUnpacked (UnpackedFloat.add .binary64 (.zero t) x.unpack) := by
  cases hnan : x.isNaN with
  | true =>
    rw [unpack_of_isNaN hnan]
    exact ⟨rfl, rfl⟩
  | false =>
    rcases unpack_cases hnan with ⟨hzero, -⟩ | ⟨-, hu⟩ | ⟨-, -, hs, hu⟩
    · exact absurd hzero hx
    · rw [hu]
      exact ⟨rfl, rfl⟩
    · rw [hu]
      exact ⟨rfl, rfl⟩

/-- The sum of two values of different units depends on their units alone. -/
theorem add_congr {x x' y y' : Binary64} (hx : x.signed = x'.signed) (hy : y.signed = y'.signed)
    (hne : x.signed ≠ y.signed) : x + y = x' + y' := by
  rcases eq_or_zero hx with rfl | ⟨h, h'⟩
  · rcases eq_or_zero hy with rfl | ⟨h, h'⟩
    · rfl
    · have hx0 : x.magnitude.toNat ≠ 0 := fun h0 =>
        hne ((signed_of_zero h0).trans (signed_of_zero h).symm)
      rw [add_eq, add_eq, unpack_of_zero h, unpack_of_zero h']
      exact (add_zero_congr hx0 _ _).1
  · have hy0 : y.magnitude.toNat ≠ 0 := fun h0 =>
      hne ((signed_of_zero h).trans (signed_of_zero h0).symm)
    rcases eq_or_zero hy with rfl | ⟨hzero, -⟩
    · rw [add_eq, add_eq, unpack_of_zero h, unpack_of_zero h']
      exact (add_zero_congr hy0 _ _).2
    · exact absurd hzero hy0

end Proximity.Binary64

import Mathlib
import Proximity.Proofs.Number.Sums

/-!
# Stretched values

A search with slack multiplies a bound by one more than the slack. One more than a finite value is
finite, however it is rounded, and a product of ordered values is ordered unless it is one of zero
and infinity. So a stretched bound is ordered unless it is zero and the slack infinite.
-/

namespace Proximity.Binary64

open Float.Model Float.Model.UnpackedFloat

section Products

variable {x y : Binary64}

end Products

section Rounding

end Rounding

section OneMore

variable {x : Binary64}

/-- A positive integer is normalized by rounding it. -/
theorem normalize_of_pos {m : Nat} (hm : 0 < m) (e : Int) (s : Sign) :
    UnpackedFloat.normalize .binary64 m e s = UnpackedFloat.round .binary64 .positive m e := by
  rw [UnpackedFloat.normalize, Int.compare_eq_gt.mpr (Int.natCast_pos.mpr hm), Int.toNat_natCast]

end OneMore

section Stretched

variable {x slack : Binary64}

theorem isNegative_of_zero_le (hx : 0 ≤ x) (h0 : x.magnitude.toNat ≠ 0) : x.isNegative = false := by
  rw [← isMinus_sign, sign_of_zero_le hx h0]
  rfl

end Stretched

end Proximity.Binary64

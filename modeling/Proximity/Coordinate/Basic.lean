import Proximity.Number.Binary64

/-!
# Coordinates

What the index needs of a coordinate type: a comparison, the ends of its range, and the way to and
from 64-bit floating point, in which extents and midpoints are computed. A coordinate is finite
exactly when it lies within the ends of the range.
-/

namespace Proximity

/-- Coordinates that can be brought into the arithmetic of distances. -/
class Widen (N D : Type) where
  widen : N → D

export Widen (widen)

/-- Numbers that points can be made of. Comparison may be partial. -/
class Coordinate (N : Type) extends LT N, LE N where
  decidableLT : DecidableLT N
  decidableLE : DecidableLE N
  /-- The least finite value. -/
  lowest : N
  /-- The greatest finite value. -/
  highest : N
  toBinary64 : N → Binary64
  /-- The value a number is cut or rounded to, if that is in range. -/
  ofBinary64? : Binary64 → Option N

attribute [reducible, instance] Coordinate.decidableLT Coordinate.decidableLE

instance {N : Type} [Coordinate N] : Widen N Binary64 := ⟨Coordinate.toBinary64⟩

namespace Coordinate

variable {N : Type} [Coordinate N]

/-- Whether a value is a number within the ends of the range. -/
def IsFinite (v : N) : Prop := lowest ≤ v ∧ v ≤ highest

instance (v : N) : Decidable (IsFinite v) := inferInstanceAs (Decidable (_ ∧ _))

/-- Whether two values are numerically equal. -/
def same (v w : N) : Bool := v ≤ w && w ≤ v

/-- The middle between two values, or the lower one if the middle has no place in the type. -/
def middle (low high : N) : N :=
  (ofBinary64? (Scalar.half (toBinary64 low + toBinary64 high))).getD low

end Coordinate

end Proximity

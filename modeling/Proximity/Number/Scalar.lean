/-!
# The arithmetic of distances

Metrics, search and collectors are written against these classes and not against one number type,
so the same definitions run on binary floating point and can be read in exact arithmetic.
Comparison may be partial: an unordered value is neither below nor at most anything.
-/

namespace Proximity

/-- Numbers that per-axis contributions are summed and compared in. -/
class Scalar (D : Type) extends Zero D, One D, Add D, Sub D, Mul D, Neg D, LT D, LE D where
  decidableLT : DecidableLT D
  decidableLE : DecidableLE D
  /-- Half of a value. -/
  half : D → D
  /-- The value without its sign. -/
  abs : D → D
  /-- The smaller of two values; an unordered one is passed over. -/
  least : D → D → D
  /-- The larger of two values; an unordered one is passed over. -/
  greatest : D → D → D
  /-- What is left of the first after taking away as many whole copies of the second as fit, with
  the sign of the first. -/
  rem : D → D → D

attribute [reducible, instance] Scalar.decidableLT Scalar.decidableLE

/-- Distances a search compares: they have a greatest and a least value and a total order, which
extends the comparison to unordered values and to the two zeros. -/
class Distance (D : Type) extends Scalar D where
  infinity : D
  negInfinity : D
  /-- The total order that neighbors are listed in. -/
  order : D → D → Ordering

/-- Scalars with the functions that angles need. -/
class Angular (D : Type) extends Scalar D where
  sqrt : D → D
  sin : D → D
  asin : D → D
  /-- The length of a full turn in radians. -/
  turn : D

namespace Scalar

variable {D : Type} [Scalar D]

/-- Twice a value. -/
def double (x : D) : D := x + x

/-- The square of a value. -/
def square (x : D) : D := x * x

/-- The sum of a list, added up from the left. -/
def total (xs : List D) : D := xs.foldl (· + ·) 0

/-- The remainder moved into the range from zero up to the size of the divisor. -/
def remUp (x y : D) : D :=
  let r := rem x y
  if r < 0 then r + abs y else r

end Scalar

end Proximity

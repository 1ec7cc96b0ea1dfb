import Proximity.Coordinate.Basic
import Proximity.Error

/-!
# Boxes

An axis-aligned box has one side per axis, each an interval with its ends. Boxes that cover points
are stretched point by point from an inverted box, which covers nothing; values that are unordered
stretch nothing.
-/

namespace Proximity

/-- The extent of a box along one axis, ends included. -/
structure Side (N : Type) where
  low : N
  high : N
  deriving DecidableEq

/-- An axis-aligned box. -/
structure Box (N : Type) where
  sides : List (Side N)
  deriving DecidableEq

namespace Side

variable {N : Type} [Coordinate N]

/-- The side that covers nothing. -/
def inverted : Side N := ⟨Coordinate.highest, Coordinate.lowest⟩

/-- The side stretched to cover a value. -/
def stretch (side : Side N) (v : N) : Side N :=
  ⟨if v < side.low then v else side.low, if side.high < v then v else side.high⟩

/-- Whether a value lies in the side. -/
def contains (side : Side N) (v : N) : Bool := side.low ≤ v && v ≤ side.high

/-- Whether another side lies in this one. -/
def covers (side other : Side N) : Bool := side.low ≤ other.low && other.high ≤ side.high

/-- Whether both ends are numerically equal. -/
def same (side other : Side N) : Bool :=
  Coordinate.same side.low other.low && Coordinate.same side.high other.high

/-- The length of the side. -/
def extent (side : Side N) : Binary64 :=
  Coordinate.toBinary64 side.high - Coordinate.toBinary64 side.low

/-- The side that reaches as far as either of two sides. -/
def join (side other : Side N) : Side N :=
  ⟨if other.low < side.low then other.low else side.low,
    if side.high < other.high then other.high else side.high⟩

end Side

namespace Box

/-- The number of axes. -/
def dims {N : Type} (box : Box N) : Nat := box.sides.length

/-- The corner with the low end of every side. -/
def low {N : Type} (box : Box N) : List N := box.sides.map Side.low

/-- The corner with the high end of every side. -/
def high {N : Type} (box : Box N) : List N := box.sides.map Side.high

/-- The box with its side along one axis changed. -/
def adjust {N : Type} (box : Box N) (axis : Nat) (f : Side N → Side N) : Box N :=
  ⟨box.sides.modify axis f⟩

/-- The part of a box below a value on an axis. -/
def lowerPart {N : Type} (box : Box N) (axis : Nat) (split : N) : Box N :=
  box.adjust axis fun side => { side with high := split }

/-- The part of a box above a value on an axis. -/
def upperPart {N : Type} (box : Box N) (axis : Nat) (split : N) : Box N :=
  box.adjust axis fun side => { side with low := split }

variable {N : Type} [Coordinate N]

/-- The box between two corners, unless they differ in size or cross on some axis. -/
def ofCorners (low high : List N) : Except Error (Box N) :=
  if low.length ≠ high.length then .error (.cornerSizes low.length high.length)
  else
    let sides := List.zipWith Side.mk low high
    if sides.any fun side => side.high < side.low then .error .cornersCrossed
    else .ok ⟨sides⟩

/-- The length along an axis. -/
def extent? (box : Box N) (axis : Nat) : Option Binary64 := box.sides[axis]?.map Side.extent

/-- The axis of the longest side, the first of them if several are; lengths that are unordered do
not count. -/
def widest (box : Box N) : Nat :=
  (box.sides.zipIdx.foldl
    (fun (best : Nat × Binary64) (side, axis) =>
      if best.2 < side.extent then (axis, side.extent) else best)
    (0, Distance.negInfinity)).1

/-- Whether a point lies in the box. -/
def contains (box : Box N) (point : List N) : Bool :=
  point.length = box.dims && (List.zipWith Side.contains box.sides point).all id

/-- Whether another box lies in this one. -/
def covers (box other : Box N) : Bool :=
  box.dims = other.dims && (List.zipWith Side.covers box.sides other.sides).all id

/-- Whether two boxes have numerically equal corners. -/
def same (box other : Box N) : Bool :=
  box.dims = other.dims && (List.zipWith Side.same box.sides other.sides).all id

/-- The box that reaches as far as either of two boxes of as many axes. -/
def join (box other : Box N) : Box N := ⟨List.zipWith Side.join box.sides other.sides⟩

end Box

end Proximity

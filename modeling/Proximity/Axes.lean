/-!
# Naming the axes of a coordinate

Coordinates of geographic data come with named axes: two or three of space, and a measure. Any
other number of axes goes without names.
-/

namespace Proximity

/-- The axes of one coordinate. -/
inductive Axes where
  | xy
  | xyz
  | xym
  | xyzm
  | unnamed (count : Nat)
  deriving DecidableEq, Repr

namespace Axes

/-- How many axes there are. -/
def count : Axes → Nat
  | xy => 2
  | xyz | xym => 3
  | xyzm => 4
  | unnamed n => n

/-- The axes of space for a number of them. -/
def spatial : Nat → Axes
  | 2 => xy
  | 3 => xyz
  | n => unnamed n

/-- A spatial source has an axis for each dimension. -/
@[simp] theorem count_spatial (n : Nat) : (spatial n).count = n := by
  unfold spatial
  split <;> rfl

/-- The text of the axes. -/
def text : Axes → String
  | xy => "Xy"
  | xyz => "Xyz"
  | xym => "Xym"
  | xyzm => "Xyzm"
  | unnamed n => s!"Unknown({n})"

end Axes

end Proximity

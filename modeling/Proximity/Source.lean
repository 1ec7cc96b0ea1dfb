import Proximity.Axes
import Proximity.Box

/-!
# Point sources

The index stores no coordinates. It reads them from a source by point and axis, and what a source
says of its size and its axes is taken as given: a coordinate that is not there is an error when
it is read, not before.
-/

namespace Proximity

/-- A collection of points that coordinates can be read from. -/
structure Source (N : Type) where
  /-- The number of points. -/
  size : Nat
  /-- The number of axes. -/
  dims : Nat
  /-- The coordinate of a point along an axis. -/
  coordinate? : Nat → Nat → Option N
  /-- A box that covers all points, if one is known beforehand. -/
  bounds : Option (Box N)

namespace Source

variable {N : Type}

/-- The coordinate of a point along an axis. -/
def read (source : Source N) (index axis : Nat) : Except Error N :=
  match source.coordinate? index axis with
  | some v => .ok v
  | none => .error (.missingCoordinate index axis)

/-- All coordinates of a point. -/
def point (source : Source N) (index : Nat) : Except Error (List N) :=
  (List.range source.dims).mapM (source.read index)

/-- The coordinate in a table of points. -/
def entry? (points : Array (Array N)) (index axis : Nat) : Option N := do
  let point ← points[index]?
  point[axis]?

/-- A source with a given number of axes. -/
def ofTable (dims : Nat) (points : Array (Array N)) : Source N :=
  ⟨points.size, dims, entry? points, none⟩

/-- A source whose first point says how many axes there are. -/
def ofRows (points : Array (Array N)) : Source N :=
  ofTable (points[0]?.elim 0 Array.size) points

/-- A source of coordinates with the given axes; it has none when there is no point. -/
def ofCoordinates (axes : Axes) (points : Array (Array N)) : Source N :=
  ofTable (if points.isEmpty then 0 else axes.count) points

/-- The tight box around some points. -/
def boxAround [Coordinate N] (source : Source N) (points : List Nat) : Except Error (Box N) :=
  return ⟨← (List.range source.dims).mapM fun axis =>
    points.foldlM (fun side index => return side.stretch (← source.read index axis)) Side.inverted⟩

end Source

/-- Points in one buffer, the coordinates of each side by side. -/
structure FlatPoints (N : Type) where
  values : Array N
  dims : Nat
  bounds : Option (Box N)

namespace FlatPoints

variable {N : Type}

/-- A buffer of whole points. -/
def ofBuffer (values : Array N) (dims : Nat) : Except Error (FlatPoints N) :=
  if dims = 0 then .error .noDimensions
  else if values.size % dims ≠ 0 then .error (.raggedBuffer values.size dims)
  else .ok ⟨values, dims, none⟩

/-- The same points with a box known to cover them. -/
def withBounds (points : FlatPoints N) (box : Box N) : Except Error (FlatPoints N) :=
  if box.dims ≠ points.dims then .error (.boxDimensions box.dims points.dims)
  else .ok { points with bounds := some box }

/-- The number of points. -/
def size (points : FlatPoints N) : Nat := points.values.size / points.dims

/-- The coordinates of one point. -/
def point (points : FlatPoints N) (index : Nat) : List N :=
  (points.values.extract (index * points.dims) ((index + 1) * points.dims)).toList

/-- The source that reads from the buffer. -/
def toSource (points : FlatPoints N) : Source N :=
  ⟨points.size, points.dims, fun index axis => points.values[index * points.dims + axis]?,
    points.bounds⟩

end FlatPoints

end Proximity

import Proximity.Source

/-!
# Splitting points

Points are split at the middle of the longest side of their box. Where that leaves one half empty
the split slides to the nearest value that parts the points; where the box is too loose for that
the tight box is tried; and where all points coincide they are halved by number.
-/

namespace Proximity

/-- A point and its coordinate on the axis in question. -/
structure Entry (N : Type) where
  index : Nat
  value : N

namespace Source

variable {N : Type}

/-- The coordinates of some points along an axis. -/
def column (source : Source N) (points : List Nat) (axis : Nat) :
    Except Error (List (Entry N)) :=
  points.mapM fun index => return ⟨index, ← source.read index axis⟩

end Source

namespace Entry

variable {N : Type} [Coordinate N]

/-- Brings the entries below a value to the front, looking at the `n` entries from place `i` on,
and says where the others begin. An entry that is not below changes places with the last one not
yet looked at. -/
def gather (split : N) : (n i : Nat) → Array (Entry N) → Array (Entry N) × Nat
  | 0, i, entries => (entries, i)
  | n + 1, i, entries =>
    if entries[i]?.any (·.value < split) then gather split n (i + 1) entries
    else gather split n i (entries.swapIfInBounds i (i + n))

/-- Brings the entries below a value to the front and says how many they are. -/
def partition (split : N) (entries : Array (Entry N)) : Array (Entry N) × Nat :=
  gather split entries.size 0 entries

/-- The least coordinate, or the greatest finite one if none is below that. -/
def least (entries : Array (Entry N)) : N :=
  entries.foldl (fun low entry => if entry.value < low then entry.value else low)
    Coordinate.highest

/-- The greatest coordinate, or the least finite one if none is above that. -/
def greatest (entries : Array (Entry N)) : N :=
  entries.foldl (fun high entry => if high < entry.value then entry.value else high)
    Coordinate.lowest

/-- The least coordinate above a value. -/
def next? (floor : N) (entries : Array (Entry N)) : Option N :=
  entries.foldl
    (fun next entry =>
      if floor < entry.value ∧ next.all (entry.value < ·) then some entry.value else next)
    none

/-- Parts entries at the middle of a side, or at the nearest value that parts them. Gives the
entries as they were left, and the value with the number of entries below it, if there is one. -/
def slide (side : Side N) (entries : Array (Entry N)) : Array (Entry N) × Option (N × Nat) :=
  let middle := Coordinate.middle side.low side.high
  let (entries, count) := partition middle entries
  if count = 0 then
    match next? (least entries) entries with
    | none => (entries, none)
    | some split =>
      let (entries, count) := partition split entries
      (entries, some (split, count))
  else if count = entries.size then
    let split := greatest entries
    let (entries, count) := partition split entries
    (entries, if count = 0 then none else some (split, count))
  else (entries, some (middle, count))

end Entry

/-- Points parted on an axis. -/
structure Cut (N : Type) where
  axis : Nat
  split : N
  /-- The points of the left part. -/
  below : List Nat
  /-- The points of the right part. -/
  above : List Nat

namespace Source

variable {N : Type} [Coordinate N]

/-- Parts points along the longest side of a box, if that has some length and they can be. Gives
the points as they were left. -/
def cutLongest (source : Source N) (box : Box N) (points : List Nat) :
    Except Error (List Nat × Option (Cut N)) :=
  let axis := box.widest
  match box.sides[axis]? with
  | none => .ok (points, none)
  | some side =>
    if side.low < side.high then do
      let (entries, found) := Entry.slide side (← source.column points axis).toArray
      let points := entries.toList.map Entry.index
      return (points, found.map fun (split, count) =>
        ⟨axis, split, points.take count, points.drop count⟩)
    else .ok (points, none)

/-- Parts points that lie in a box. -/
def cut (source : Source N) (box : Box N) (points : List Nat) : Except Error (Cut N) := do
  let (points, found) ← source.cutLongest box points
  if let some cut := found then return cut
  let (points, found) ← source.cutLongest (← source.boxAround points) points
  if let some cut := found then return cut
  match points with
  | [] => throw .noPoints
  | first :: _ =>
    let half := points.length / 2
    return ⟨0, ← source.read first 0, points.take half, points.drop half⟩

end Source

end Proximity

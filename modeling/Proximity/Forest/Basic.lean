import Proximity.Forest.Directory
import Proximity.Metric
import Proximity.Tree.Build

/-!
# Forests

A forest holds a changing set of points of one source in a row of trees. Its slots are the digits
of a binary counter of insertions: a slot is occupied when its digit is set, and an insertion
merges the trees of all slots that the carry runs through, together with the new point, into the
slot where the carry stops. Each point is therefore rebuilt only a logarithmic number of times.
A removed point stays in its tree until that tree is merged: it is noted beside the tree, and the
directory no longer names a slot for it.
-/

namespace Proximity

/-- The largest count of insertions. -/
def maxWord64 : Nat := 18446744073709551615

/-- The number of digits set at the low end of a number. -/
def carry : (digits n : Nat) → Nat
  | 0, _ => 0
  | digits + 1, n => if n % 2 = 1 then carry digits (n / 2) + 1 else 0

/-- What stands in an occupied slot: a tree, and those of its points that were removed since. -/
structure Plot (N : Type) where
  tree : Tree N
  /-- The points of the tree that are no longer alive in it, the last one removed first. -/
  removed : List Nat
  deriving DecidableEq

namespace Plot

variable {N : Type}

/-- A tree whose points are all alive. -/
def ofTree (tree : Tree N) : Plot N := ⟨tree, []⟩

/-- Whether a point of the tree is alive in it. -/
def isLive (plot : Plot N) (index : Nat) : Bool := !plot.removed.contains index

/-- The points alive, as the tree arranges them. -/
def livePoints (plot : Plot N) : List Nat := plot.tree.order.toList.filter plot.isLive

/-- The number of points alive. -/
def size (plot : Plot N) : Nat := plot.tree.size - plot.removed.length

/-- The plot after a point was removed. -/
def remove (plot : Plot N) (index : Nat) : Plot N :=
  { plot with removed := plot.removed.insert index }

end Plot

/-- A changing set of points in trees. -/
structure Forest (N D : Type) where
  /-- The number of axes. -/
  dims : Nat
  /-- How its trees are built. -/
  options : BuildOptions
  metric : Metric N D
  slots : List (Option (Plot N))
  /-- The number of insertions. -/
  counter : Nat
  directory : Directory
  /-- The number of points alive. -/
  size : Nat

namespace Forest

variable {N D : Type}

/-- A forest without points. -/
def empty (dims : Nat) (options : BuildOptions) (metric : Metric N D) :
    Except Error (Forest N D) := do
  options.validate
  if dims = 0 ∨ maxWord16 < dims then throw (.dimensionsOutside dims)
  return ⟨dims, options, metric, [], 0, .empty, 0⟩

/-- What stands in a slot, if it is occupied. -/
def plot? (forest : Forest N D) (slot : Nat) : Option (Plot N) := (forest.slots[slot]?).join

/-- Whether a point is alive. -/
def contains (forest : Forest N D) (index : Nat) : Bool := forest.directory.contains index

/-- The number of occupied slots. -/
def trees (forest : Forest N D) : Nat := forest.slots.countP Option.isSome

/-- The number of points alive in each slot. -/
def sizes (forest : Forest N D) : List Nat :=
  forest.slots.map fun plot => plot.elim 0 Plot.size

/-- Whether the forest takes up any memory of its own: it does from the first insertion on. -/
def usesMemory (forest : Forest N D) : Bool := 0 < forest.directory.size

/-- Refuses a source with other axes. -/
def requireSource (forest : Forest N D) (source : Source N) : Except Error Unit :=
  if source.dims ≠ forest.dims then .error (.sourceDimensions source.dims forest.dims) else .ok ()

/-- The points alive in the slots below one. -/
def pointsBelow (forest : Forest N D) (slot : Nat) : List Nat :=
  (forest.slots.take slot).flatMap fun plot => plot.elim [] Plot.livePoints

/-- The points that an insertion builds into a tree: those alive below the slot where the carry
stops, and the new one. -/
def merged (forest : Forest N D) (index : Nat) : List Nat :=
  forest.pointsBelow (carry 64 forest.counter) ++ [index]

/-- Refuses a point of a source that cannot be inserted. -/
def requireInsertable (forest : Forest N D) (source : Source N) (index : Nat) :
    Except Error Unit := do
  forest.requireSource source
  if source.size ≤ index ∨ maxWord32 < index then throw (.pointOutOfRange index source.size)
  if forest.contains index then throw (.pointPresent index)
  if maxWord64 ≤ forest.counter then throw .insertionsExhausted

/-- The forest with a tree in a slot that takes the place of all slots below. -/
def settle (forest : Forest N D) (slot : Nat) (tree : Tree N) : Forest N D :=
  { forest with
    slots := List.replicate slot none ++ some (.ofTree tree) :: forest.slots.drop (slot + 1)
    counter := forest.counter + 1
    directory := forest.directory.putAll slot tree.order.toList
    size := forest.size + 1 }

variable [Coordinate N]

/-- The forest with one more point of its source. -/
def insert (forest : Forest N D) (source : Source N) (index : Nat) :
    Except Error (Forest N D) := do
  forest.requireInsertable source index
  let tree ← Tree.build source forest.options (forest.merged index) none
  return forest.settle (carry 64 forest.counter) tree

/-- The forest with `count` more points from one on, or as many as could be inserted, and why the
next one could not. -/
def insertRange (source : Source N) :
    (count first : Nat) → Forest N D → Forest N D × Option Error
  | 0, _, forest => (forest, none)
  | count + 1, first, forest =>
    match forest.insert source first with
    | .error e => (forest, some e)
    | .ok forest => insertRange source count (first + 1) forest

omit [Coordinate N] in
/-- The forest without a point, and whether it was there. -/
def remove (forest : Forest N D) (index : Nat) : Forest N D × Bool :=
  match forest.directory.slot? index with
  | none => (forest, false)
  | some slot =>
    match forest.plot? slot with
    | none => (forest, false)
    | some plot =>
      ({ forest with
          slots := forest.slots.set slot (some (plot.remove index))
          directory := forest.directory.erase index
          size := forest.size - 1 }, true)

end Forest

end Proximity

import Proximity.Options
import Proximity.Tree.Basic
import Proximity.Tree.Split

/-!
# Building trees

A range of points becomes a leaf when it is small enough and is cut in two otherwise. The nodes of
a tree are counted as they are made, a branch's two children together and before anything below
them, so that a cap on their number stops the work as soon as it is reached. The ends of a leaf are
kept as words.
-/

namespace Proximity

/-- A subtree with the arrangement of its points and the number of nodes made so far. -/
structure Growth (N : Type) where
  node : Node N
  order : List Nat
  count : Nat

namespace Tree

variable {N : Type} [Coordinate N]

/-- The subtree over some points whose range begins at `first`, when `count` nodes, its own
included, are already made. Every level makes nodes, so `levels` need not be more than their cap. -/
def grow (source : Source N) (options : BuildOptions) :
    (levels count first : Nat) → Box N → List Nat → Except Error (Growth N)
  | 0, count, _, _, _ => .error (.nodesExhausted count)
  | levels + 1, count, first, box, points =>
    if points.length ≤ options.leafSize then
      .ok ⟨.leaf (toWord32 first) (toWord32 (first + points.length)), points, count⟩
    else do
      let cut ← source.cut box points
      options.requireRoom count
      options.requireRoom (count + 1)
      let lower ← source.boxAround cut.below
      let upper ← source.boxAround cut.above
      let left ← grow source options levels (count + 2) first lower cut.below
      let right ←
        grow source options levels left.count (first + cut.below.length) upper cut.above
      return ⟨.branch cut.axis cut.split left.node right.node, left.order ++ right.order,
        right.count⟩

/-- The tree over some points of a source. A box, if one is given, must cover them. -/
def build (source : Source N) (options : BuildOptions) (points : List Nat)
    (bounds : Option (Box N)) : Except Error (Tree N) := do
  options.validate
  if source.dims = 0 then throw .noDimensions
  if maxWord16 < source.dims then throw (.tooManyDimensions source.dims)
  if points.isEmpty then throw .noPoints
  let box ← match bounds with
    | none => source.boxAround points
    | some box =>
      if box.dims = source.dims then .ok box
      else .error (.boxDimensions box.dims source.dims)
  options.requireRoom 0
  let growth ← grow source options maxWord32 1 0 box points
  return ⟨source.dims, options.leafSize, growth.order.toArray, box, growth.node⟩

/-- The tree over all points of a source. -/
def ofSource (source : Source N) (options : BuildOptions) : Except Error (Tree N) :=
  if maxWord32 < source.size then .error (.tooManyPoints source.size)
  else build source options (List.range source.size) source.bounds

end Tree

end Proximity

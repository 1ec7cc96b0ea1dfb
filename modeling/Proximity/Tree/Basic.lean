import Proximity.Box
import Proximity.Error

/-!
# Trees

A tree arranges point indices in one array. Its leaves are ranges of that array, and a branch says
on which axis and at which value the points below it were parted: those below the value are on the
left. The box of a tree belongs to its root; the parts of space below are not stored.
-/

namespace Proximity

/-- A node of a tree. -/
inductive Node (N : Type) where
  /-- The points from one place of the arrangement up to another. -/
  | leaf (first last : Nat)
  /-- Points below `split` on an axis are on the left, the others on the right. -/
  | branch (axis : Nat) (split : N) (left right : Node N)
  deriving DecidableEq

/-- The number of nodes from a node on. -/
def Node.count {N : Type} : Node N → Nat
  | .leaf .. => 1
  | .branch _ _ left right => 1 + left.count + right.count

/-- A built tree. -/
structure Tree (N : Type) where
  /-- The number of axes. -/
  dims : Nat
  /-- The most points in a leaf. -/
  leafSize : Nat
  /-- The points, arranged so that every leaf is a range. -/
  order : Array Nat
  /-- A box around all points. -/
  box : Box N
  root : Node N
  deriving DecidableEq

namespace Tree

variable {N : Type}

/-- The number of points. -/
def size (tree : Tree N) : Nat := tree.order.size

/-- The number of nodes. -/
def nodes (tree : Tree N) : Nat := tree.root.count

/-- The points in a range of the arrangement. -/
def points (tree : Tree N) (first last : Nat) : Except Error (List Nat) :=
  if first ≤ last ∧ last ≤ tree.order.size then .ok (tree.order.extract first last).toList
  else .error (.missingPoints first last)

end Tree

end Proximity

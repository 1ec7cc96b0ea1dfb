import Proximity.Tree.Basic

/-!
# Regions

A node together with the part of space it covers. The root covers the box of the tree, and each
child the part of its parent on its side of the split.
-/

namespace Proximity

/-- A node and the box it covers. -/
structure Region (N : Type) where
  node : Node N
  box : Box N

namespace Region

variable {N : Type}

/-- The region of a whole tree. -/
def ofTree (tree : Tree N) : Region N := ⟨tree.root, tree.box⟩

/-- Whether the region is that of a leaf. -/
def isLeaf (region : Region N) : Bool :=
  match region.node with
  | .leaf .. => true
  | .branch .. => false

/-- The range of points of a leaf. -/
def range? (region : Region N) : Option (Nat × Nat) :=
  match region.node with
  | .leaf first last => some (first, last)
  | .branch .. => none

/-- The axis and the value of the split of a branch. -/
def split? (region : Region N) : Option (Nat × N) :=
  match region.node with
  | .leaf .. => none
  | .branch axis split _ _ => some (axis, split)

/-- The region below the split of a branch. -/
def left? (region : Region N) : Option (Region N) :=
  match region.node with
  | .leaf .. => none
  | .branch axis split left _ => some ⟨left, region.box.lowerPart axis split⟩

/-- The region at or above the split of a branch. -/
def right? (region : Region N) : Option (Region N) :=
  match region.node with
  | .leaf .. => none
  | .branch axis split _ right => some ⟨right, region.box.upperPart axis split⟩

/-- The regions from a node on, a branch before the regions on its left and those before the ones
on its right. -/
def below : Node N → Box N → List (Region N)
  | .leaf first last, box => [⟨.leaf first last, box⟩]
  | .branch axis split left right, box =>
    ⟨.branch axis split left right, box⟩ ::
      (below left (box.lowerPart axis split) ++ below right (box.upperPart axis split))

/-- All regions of a tree, every branch before its children. -/
def all (tree : Tree N) : List (Region N) := below tree.root tree.box

end Region

end Proximity

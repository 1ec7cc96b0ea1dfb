import Proximity.Forest.Basic

/-!
# The work of insertions

The same insertions with a note of every point that they hand over to be built into a tree. What a
run notes is kept only if it succeeds.
-/

namespace Proximity

/-- A run that may fail and notes points on the way. -/
abbrev Noting (α : Type) := StateT (List Nat) (Except Error) α

variable {N D : Type} [Coordinate N]

/-- The tree over some points of a source, which are noted. -/
def Tree.buildNoting (source : Source N) (options : BuildOptions) (points : List Nat) :
    Noting (Tree N) := do
  modify (· ++ points)
  Tree.build source options points none

/-- The forest with one more point of its source, with a note of all points that are built into a
tree for it. -/
def Forest.insertNoting (forest : Forest N D) (source : Source N) (index : Nat) :
    Noting (Forest N D) := do
  forest.requireInsertable source index
  let tree ← Tree.buildNoting source forest.options (forest.merged index)
  return forest.settle (carry 64 forest.counter) tree

end Proximity

import Proximity.Forest.Basic
import Proximity.Index

/-!
# Asking a forest

A forest is asked and stored together with its source, which may have grown since the points were
inserted but not shrunk below them.
-/

namespace Proximity

namespace Forest

variable {N D : Type}

/-- Refuses a source that the forest cannot be asked over. -/
def requireView (forest : Forest N D) (source : Source N) : Except Error Unit := do
  forest.requireSource source
  if source.size < forest.directory.size then
    throw (.pointBeyondSource (forest.directory.size - 1) source.size)

/-- The trees of a forest with what is alive in them. -/
def parts (forest : Forest N D) : List (Part N) :=
  forest.slots.filterMap fun plot => plot.map fun plot => ⟨plot.tree, plot.isLive⟩

/-- The forest ready to be asked. -/
def toIndex (forest : Forest N D) (source : Source N) : Except Error (Index N D) := do
  forest.requireView source
  return ⟨forest.dims, forest.size, source, forest.metric, forest.parts⟩

/-- The box of all trees, around points no longer alive too. -/
def box? [Coordinate N] (forest : Forest N D) : Option (Box N) :=
  match forest.slots.filterMap id with
  | [] => none
  | plot :: rest => some (rest.foldl (fun box plot => box.join plot.tree.box) plot.tree.box)

end Forest

end Proximity

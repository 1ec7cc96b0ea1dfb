import Proximity.Number.Scalar

/-!
# Neighbors

A point that a search found, with its distance. Neighbors are listed by distance in its total
order and then by index, so that points equally far away have a place of their own.
-/

namespace Proximity

/-- A found point and its distance from the query. -/
structure Neighbor (D : Type) where
  index : Nat
  distance : D
  deriving DecidableEq

namespace Neighbor

variable {D : Type} [Distance D]

/-- The order of neighbors. -/
def order (a b : Neighbor D) : Ordering :=
  (Distance.order a.distance b.distance).then (compare a.index b.index)

/-- Whether a neighbor comes strictly before another. -/
def before (a b : Neighbor D) : Bool := a.order b == .lt

/-- Neighbors in their order. -/
def sort (list : List (Neighbor D)) : List (Neighbor D) :=
  list.mergeSort fun a b => (a.order b).isLE

end Neighbor

end Proximity

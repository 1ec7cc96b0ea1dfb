import Proximity.Number.Scalar

/-!
# Collectors

A search hands every candidate to a collector, which says how far away a point may still be and
whether it wants more. What a collector does with its state in between is its own affair.
-/

namespace Proximity

/-- States that candidates of a search are offered to. -/
class Collector (σ : Type) (D : outParam Type) where
  /-- The largest distance that still counts. A part of the tree that is farther is left out. -/
  worst : σ → D
  /-- The state after an offer, and whether the search goes on. -/
  offer : σ → D → Nat → σ × Bool

end Proximity

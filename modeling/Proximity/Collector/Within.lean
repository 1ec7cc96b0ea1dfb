import Proximity.Collector.Basic
import Proximity.Neighbor

/-!
# All neighbors within a distance

Keeps every neighbor up to a fixed distance, in the order found.
-/

namespace Proximity

/-- The neighbors offered so far that lie within a distance. -/
structure Within (D : Type) where
  /-- The largest distance that is kept. -/
  radius : D
  /-- The neighbors kept, the last one first. -/
  found : List (Neighbor D)

namespace Within

/-- A collector for a distance. -/
def ofRadius {D : Type} (radius : D) : Within D := ⟨radius, []⟩

/-- How many neighbors are kept. -/
def size {D : Type} (set : Within D) : Nat := set.found.length

/-- The neighbors kept, in the order found. -/
def toList {D : Type} (set : Within D) : List (Neighbor D) := set.found.reverse

variable {D : Type} [Distance D]

/-- The collector after a neighbor was offered. -/
def insert (set : Within D) (neighbor : Neighbor D) : Within D :=
  if neighbor.distance ≤ set.radius then { set with found := neighbor :: set.found } else set

/-- The neighbors kept, nearest first. -/
def toSorted (set : Within D) : List (Neighbor D) := Neighbor.sort set.toList

instance : Collector (Within D) D where
  worst set := set.radius
  offer set distance index := (set.insert ⟨index, distance⟩, true)

end Within

end Proximity

import Proximity.Collector.Basic
import Proximity.Neighbor

/-!
# The nearest neighbors

Keeps as many neighbors as there is room for, the worst of them first, so that the one to give way
is at hand. Neighbors farther than a limit are never kept.
-/

namespace Proximity

/-- The nearest neighbors offered so far. -/
structure Nearest (D : Type) where
  /-- The largest distance that is kept. -/
  limit : D
  /-- How many neighbors there is still room for. -/
  room : Nat
  /-- The neighbors kept, in falling order. -/
  kept : List (Neighbor D)

namespace Nearest

/-- A collector with room for `k` neighbors up to a distance. -/
def upTo {D : Type} (k : Nat) (limit : D) : Nearest D := ⟨limit, k, []⟩

variable {D : Type} [Distance D]

/-- A collector with room for `k` neighbors at any distance. -/
def ofSize (k : Nat) : Nearest D := upTo k Distance.infinity

/-- How many neighbors are kept. -/
def size (set : Nearest D) : Nat := set.kept.length

/-- How many neighbors are kept at most. -/
def capacity (set : Nearest D) : Nat := set.room + set.size

/-- Whether there is no room left. -/
def isFull (set : Nearest D) : Bool := set.room = 0

/-- The largest distance that can still be kept. -/
def worst (set : Nearest D) : D :=
  if 0 < set.room then set.limit
  else
    match set.kept with
    | [] => Distance.negInfinity
    | last :: _ => last.distance

/-- Puts a neighbor in its place of a list in falling order. -/
def place (neighbor : Neighbor D) : List (Neighbor D) → List (Neighbor D)
  | [] => [neighbor]
  | first :: rest =>
    if neighbor.before first then first :: place neighbor rest else neighbor :: first :: rest

/-- The collector after a neighbor was offered. A full one gives up its worst neighbor for a
better one. -/
def insert (set : Nearest D) (neighbor : Neighbor D) : Nearest D :=
  if set.limit < neighbor.distance then set
  else if 0 < set.room then
    { set with room := set.room - 1, kept := place neighbor set.kept }
  else
    match set.kept with
    | [] => set
    | last :: rest =>
      if neighbor.before last then { set with kept := place neighbor rest } else set

/-- The neighbors kept, nearest first. -/
def toSorted (set : Nearest D) : List (Neighbor D) := set.kept.reverse

instance : Collector (Nearest D) D where
  worst := worst
  offer set distance index := (set.insert ⟨index, distance⟩, true)

end Nearest

end Proximity

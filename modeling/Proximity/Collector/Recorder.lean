import Proximity.Collector.Basic
import Proximity.Neighbor

/-!
# Recording a search

Keeps every offer in the order made, which shows what a search visits and when.
-/

namespace Proximity

/-- A record of the offers of a search. -/
structure Recorder (D : Type) where
  /-- The largest distance that still counts. -/
  worst : D
  /-- Whether every offer becomes the largest distance that still counts. -/
  shrinks : Bool
  /-- How many offers end the search, if any number does. -/
  limit : Option Nat
  /-- The offers made, the last one first. -/
  offers : List (Neighbor D)
  /-- How many offers were made. -/
  size : Nat

namespace Recorder

variable {D : Type}

/-- A record of no offers. -/
def start (worst : D) (shrinks : Bool) (limit : Option Nat) : Recorder D :=
  ⟨worst, shrinks, limit, [], 0⟩

/-- The offers, in the order made. -/
def toList (record : Recorder D) : List (Neighbor D) := record.offers.reverse

/-- The record after an offer, and whether more are wanted. -/
def add (record : Recorder D) (neighbor : Neighbor D) : Recorder D × Bool :=
  let size := record.size + 1
  ({ record with
      worst := if record.shrinks then neighbor.distance else record.worst
      offers := neighbor :: record.offers
      size },
    record.limit.all (size < ·))

instance : Collector (Recorder D) D where
  worst := worst
  offer record distance index := record.add ⟨index, distance⟩

end Recorder

end Proximity

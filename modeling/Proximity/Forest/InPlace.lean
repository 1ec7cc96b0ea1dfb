import Proximity.Forest.Basic

/-!
# Changing a forest in place

The same insertions as a run that changes a forest step by step: slots are emptied one after the
other, points move one after the other, and every step before a failure would stay. A run gives a
forest whether it succeeds or fails.
-/

namespace Proximity

/-- A run that changes a forest and may fail on the way. What was changed by then stays. -/
abbrev Change (N D α : Type) := ExceptT Error (StateM (Forest N D)) α

namespace Change

variable {N D α : Type}

/-- What a run gives, and the forest that it leaves. -/
def outcome (change : Change N D α) (forest : Forest N D) : Except Error α × Forest N D :=
  change.run.run forest

/-- A question that leaves the forest as it is. -/
def ask (question : Forest N D → Except Error α) : Change N D α :=
  .mk do return question (← get)

/-- A step that cannot fail. -/
def step (next : Forest N D → Forest N D) : Change N D PUnit := modify next

end Change

namespace Forest

variable {N D : Type}

/-- Empties a slot. -/
def clearSlot (forest : Forest N D) (slot : Nat) : Forest N D :=
  { forest with slots := forest.slots.set slot none }

/-- Notes in which slot a point lives. -/
def locate (forest : Forest N D) (slot index : Nat) : Forest N D :=
  { forest with directory := forest.directory.put slot index }

/-- Appends empty slots until there are so many. -/
def extendSlots (forest : Forest N D) (count : Nat) : Forest N D :=
  { forest with slots := forest.slots ++ List.replicate (count - forest.slots.length) none }

/-- Puts a tree into a slot. -/
def fillSlot (forest : Forest N D) (slot : Nat) (tree : Tree N) : Forest N D :=
  { forest with slots := forest.slots.set slot (some (.ofTree tree)) }

/-- Counts an insertion. -/
def countInsertion (forest : Forest N D) : Forest N D :=
  { forest with counter := forest.counter + 1 }

/-- Counts a point. -/
def countPoint (forest : Forest N D) : Forest N D := { forest with size := forest.size + 1 }

variable [Coordinate N]

/-- Inserts a point of the source. -/
def insertInPlace (source : Source N) (index : Nat) : Change N D PUnit := do
  .ask (·.requireInsertable source index)
  let slot ← .ask fun forest => .ok (carry 64 forest.counter)
  let tree ← .ask fun forest => Tree.build source forest.options (forest.merged index) none
  (List.range slot).forM fun lower => .step (·.clearSlot lower)
  tree.order.toList.forM fun point => .step (·.locate slot point)
  .step (·.extendSlots (slot + 1))
  .step (·.fillSlot slot tree)
  .step countInsertion
  .step countPoint

/-- Inserts the points from `first` to before `last` in order, until one cannot be inserted. -/
def insertRangeInPlace (source : Source N) (first last : Nat) : Change N D PUnit :=
  (List.range' first (last - first)).forM (insertInPlace source)

end Forest

end Proximity

import Proximity.Tree.Table

/-!
# Changing a table in place

The same table as storage that is changed step by step: a chunk is begun if all are full, the cell
goes behind those of the last chunk, and only then it is counted. Every step before a failure would
stay. Nothing is read from a place that no chunk reaches, and nothing is stored there.
-/

namespace Proximity

namespace Table

/-- A run that changes a table and may fail on the way. What was changed by then stays. -/
abbrev Change (α β : Type) := ExceptT Error (StateM (Table α)) β

variable {α β : Type}

/-- What a run gives, and the table that it leaves. -/
def Change.outcome (change : Change α β) (table : Table α) : Except Error β × Table α :=
  change.run.run table

/-- Begins a chunk. -/
def beginChunk (table : Table α) : Table α := { table with chunks := table.chunks.push #[] }

/-- Puts a cell behind those of the last chunk, if there is one. -/
def fillChunk (table : Table α) (cell : α) : Table α :=
  { table with chunks := table.chunks.modify (table.chunks.size - 1) (·.push cell) }

/-- Counts a cell. -/
def countCell (table : Table α) : Table α := { table with size := table.size + 1 }

/-- Stores one more cell and gives the place that it gets. -/
def pushInPlace (cell : α) : Change α Nat := do
  let table ← get
  requireRoomUnder table.cap table.size
  if table.size = table.chunks.size * table.chunkLength then
    modify beginChunk
  modify (·.fillChunk cell)
  let place := (← get).size
  modify countCell
  return place

/-- The cell at a place. -/
def getInPlace (place : Nat) : Change α α := do
  match (← get).get? place with
  | none => throw (.missingNode place)
  | some cell => return cell

/-- Stores another cell at a place that is in use. -/
def setInPlace (place : Nat) (cell : α) : Change α PUnit := do
  let _ ← getInPlace place
  modify (·.set place cell)

end Table

end Proximity

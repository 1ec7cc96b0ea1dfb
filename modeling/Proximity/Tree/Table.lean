import Proximity.Options
import Proximity.Tree.Basic

/-!
# Trees as tables

The same tree without nesting: a table of cells, in which a branch names the places of its
children. A table hands out the places 0, 1, 2, … in this order and keeps its cells in chunks of
one length, so that it grows without moving any. The root has the first place, and the children of
a branch get theirs together, before anything below them, as they are counted when a tree is built.
-/

namespace Proximity

/-- Cells by place. -/
structure Table (α : Type) where
  /-- The number of cells in a chunk. -/
  chunkLength : Nat
  /-- The most cells, if there is a cap. -/
  cap : Option Nat
  /-- The cells; every chunk but the last one is full. -/
  chunks : Array (Array α)
  /-- The number of cells. -/
  size : Nat
  deriving DecidableEq, Repr

namespace Table

variable {α : Type}

/-- A table without cells. -/
def empty (chunkLength : Nat) (cap : Option Nat) : Table α := ⟨chunkLength, cap, #[], 0⟩

/-- The table with one more cell, which gets the next place. A chunk is begun when all are full. -/
def push (table : Table α) (cell : α) : Except Error (Table α) := do
  requireRoomUnder table.cap table.size
  let chunks :=
    if table.size = table.chunks.size * table.chunkLength then table.chunks.push #[]
    else table.chunks
  return { table with
    chunks := chunks.modify (chunks.size - 1) (·.push cell)
    size := table.size + 1 }

/-- The cell at a place. -/
def get? (table : Table α) (place : Nat) : Option α := do
  let chunk ← table.chunks[place / table.chunkLength]?
  chunk[place % table.chunkLength]?

/-- The table with another cell at a place. -/
def set (table : Table α) (place : Nat) (cell : α) : Table α :=
  { table with
    chunks := table.chunks.modify (place / table.chunkLength)
      (·.setIfInBounds (place % table.chunkLength) cell) }

/-- The cells in the order of their places. -/
def toList (table : Table α) : List α := table.chunks.toList.flatMap Array.toList

end Table

/-- A node that names its children by place. -/
inductive Cell (N : Type) where
  | leaf (first last : Nat)
  | branch (axis : Nat) (split : N) (left right : Nat)
  deriving DecidableEq, Repr

/-- What stands at a place until the node for it is known. -/
def Cell.vacant {N : Type} : Cell N := .leaf 0 0

/-- Puts a node and all below it into a table that has a place for it. -/
def Node.layOut {N : Type} : Node N → (place : Nat) → Table (Cell N) →
    Except Error (Table (Cell N))
  | .leaf first last, place, table => .ok (table.set place (.leaf first last))
  | .branch axis split left right, place, table => do
    let leftPlace := table.size
    let table ← table.push .vacant
    let rightPlace := table.size
    let table ← table.push .vacant
    let table := table.set place (.branch axis split leftPlace rightPlace)
    right.layOut rightPlace (← left.layOut leftPlace table)

/-- The table of a tree. -/
def Tree.table {N : Type} (tree : Tree N) (chunkLength : Nat) (cap : Option Nat) :
    Except Error (Table (Cell N)) := do
  tree.root.layOut 0 (← (Table.empty chunkLength cap).push .vacant)

end Proximity

import Proximity.Tree.Build
import Proximity.Tree.Format
import Proximity.Tree.Table

/-!
# Trees step by step

Building, writing and reading a tree without recursion: each step takes one node from a stack,
finishes it in the table of the tree and puts its children on the stack, the left one on top. So
nodes are finished from the left, each before those below it.
-/

namespace Proximity

/-- So many steps. -/
def steps {m : Type → Type} [Monad m] {σ : Type} (step : σ → m σ) : Nat → σ → m σ
  | 0, state => pure state
  | count + 1, state => step state >>= steps step count

namespace Tree

variable {N : Type}

/-- A subtree that is still to be built over a range of the arrangement. -/
structure Task (N : Type) where
  place : Nat
  first : Nat
  last : Nat
  box : Box N

/-- A tree that is being built. -/
structure Site (N : Type) where
  table : Table (Cell N)
  /-- The points, arranged so far. -/
  order : List Nat
  tasks : List (Task N)

/-- Builds the node on top of the stack. -/
def buildStep [Coordinate N] (source : Source N) (options : BuildOptions) (site : Site N) :
    Except Error (Site N) :=
  match site.tasks with
  | [] => .ok site
  | ⟨place, first, last, box⟩ :: tasks =>
    if last - first ≤ options.leafSize then
      .ok { site with
        table := site.table.set place (.leaf (toWord32 first) (toWord32 last))
        tasks }
    else do
      let cut ← source.cut box ((site.order.take last).drop first)
      let middle := first + cut.below.length
      let leftPlace := site.table.size
      let table ← site.table.push .vacant
      let rightPlace := table.size
      let table ← table.push .vacant
      let lower ← source.boxAround cut.below
      let upper ← source.boxAround cut.above
      return {
        table := table.set place (.branch cut.axis cut.split leftPlace rightPlace)
        order := site.order.take first ++ (cut.below ++ cut.above) ++ site.order.drop last
        tasks := ⟨leftPlace, first, middle, lower⟩ :: ⟨rightPlace, middle, last, upper⟩ :: tasks }

/-- A tree that is being written: the bytes so far, and the places still to be written. -/
structure Writing where
  bytes : List UInt8
  places : List Nat

/-- Writes the node on top of the stack, unless the table has no such place. -/
def writeStep [Storable N] (table : Table (Cell N)) (writing : Writing) : Option Writing :=
  match writing.places with
  | [] => some writing
  | place :: places =>
    match table.get? place with
    | none => none
    | some (.leaf first last) =>
      some ⟨writing.bytes ++ (LittleEndian.toBytes 1 0 ++ LittleEndian.toBytes 4 first ++
        LittleEndian.toBytes 4 last), places⟩
    | some (.branch axis split left right) =>
      some ⟨writing.bytes ++ (LittleEndian.toBytes 1 1 ++ LittleEndian.toBytes 2 axis ++
        Storable.toBytes split), left :: right :: places⟩

/-- A tree that is being read: the nodes so far, and the places of those still to be read. -/
structure Reading (N : Type) where
  table : Table (Cell N)
  places : List Nat

/-- Reads the node for the place on top of the stack. -/
def readStep [Storable N] (dims points announced : Nat) (reading : Reading N) :
    Reader (Reading N) :=
  match reading.places with
  | [] => return reading
  | place :: places => do
    match ← Reader.word 1 with
    | 0 =>
      let first ← Reader.word 4
      let last ← Reader.word 4
      if last < first ∨ points < last then throw (.leafRange first last points)
      return ⟨reading.table.set place (.leaf first last), places⟩
    | 1 =>
      let axis ← Reader.word 2
      let split ← Reader.coordinate N
      if dims ≤ axis then throw (.splitDimension axis dims)
      if announced < reading.table.size + 2 then throw (.moreNodesThanAnnounced announced)
      let leftPlace := reading.table.size
      let table ← reading.table.push .vacant
      let rightPlace := table.size
      let table ← table.push .vacant
      return ⟨table.set place (.branch axis split leftPlace rightPlace),
        leftPlace :: rightPlace :: places⟩
    | tag => throw (.unknownNode tag)

end Tree

end Proximity

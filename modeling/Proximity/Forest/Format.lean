import Proximity.Forest.Basic
import Proximity.Tree.Format

/-!
# Forests as bytes

A stored forest is a header of 21 bytes and one byte per slot that says whether a tree follows.
Points no longer alive are never stored: a tree that has any is built anew over the others, and
left out if there are none. The counter is kept all the same, so that later insertions merge as they
would have.
-/

namespace Proximity

namespace Forest

variable {N D : Type} [Coordinate N] [Storable N]

/-- The number of bytes of the header. -/
def headerSize : Nat := 21

/-- The most slots a forest can have. -/
def maxSlots : Nat := 64

/-- The bytes of the header. -/
def encodeHeader (forest : Forest N D) (sourceSize : Nat) : List UInt8 :=
  LittleEndian.toBytes 1 forestMark ++ LittleEndian.toBytes 1 (formatByte N) ++
    LittleEndian.toBytes 2 forest.dims ++ LittleEndian.toBytes 4 forest.options.leafSize ++
    LittleEndian.toBytes 4 sourceSize ++ LittleEndian.toBytes 8 forest.counter ++
    LittleEndian.toBytes 1 forest.slots.length

/-- The bytes of a slot without a tree. -/
def vacant : List UInt8 := LittleEndian.toBytes 1 0

/-- The bytes of a slot with a tree. -/
def occupied (tree : Tree N) (sourceSize : Nat) : List UInt8 :=
  LittleEndian.toBytes 1 1 ++ tree.encode sourceSize

/-- The bytes of a slot. -/
def encodeSlot (options : BuildOptions) (source : Source N) :
    Option (Plot N) → Except Error (List UInt8)
  | none => .ok vacant
  | some plot =>
    if plot.removed.isEmpty then .ok (occupied plot.tree source.size)
    else if plot.livePoints.isEmpty then .ok vacant
    else do
      let tree ← Tree.build source options plot.livePoints none
      return occupied tree source.size

/-- What is written of a forest over its source. -/
def save (forest : Forest N D) (source : Source N) : Emission :=
  .andThen (.ok (forest.encodeHeader source.size))
    (forest.slots.foldr
      (fun plot rest => .andThen (encodeSlot forest.options source plot) rest)
      (.ofBytes []))

/-- Puts the points of a stored tree into a directory, none of them twice. -/
def putDistinct (slot : Nat) : List Nat → Directory → Except Error Directory
  | [], directory => .ok directory
  | index :: rest, directory =>
    if directory.contains index then .error (.pointTwice index)
    else putDistinct slot rest (directory.put slot index)

/-- Reads `count` more slots of a forest, after those it already has. -/
def readSlots (sourceSize : Nat) : (count : Nat) → Forest N D → Reader (Forest N D)
  | 0, forest => pure forest
  | count + 1, forest => do
    let slot := forest.slots.length
    let present ← Reader.word 1
    if present = 0 then
      readSlots sourceSize count { forest with slots := forest.slots ++ [none] }
    else
      if !forest.counter.testBit slot then throw (.slotNotCounted slot)
      let (tree, treeSource) ← Tree.read
      if treeSource ≠ sourceSize ∨ tree.dims ≠ forest.dims then throw (.slotMismatch slot)
      if let some limit := forest.options.maxNodes then
        if limit < tree.nodes then throw (.slotTooLarge slot tree.nodes limit)
      let directory ← putDistinct slot tree.order.toList forest.directory
      readSlots sourceSize count
        { forest with
          slots := forest.slots ++ [some (.ofTree tree)]
          directory
          size := forest.size + tree.size }

/-- Reads a forest over a source. Its trees and all later ones have at most `maxNodes` nodes. -/
def load (source : Source N) (maxNodes : Option Nat) (metric : Metric N D) :
    Reader (Forest N D) := do
  let header ← Reader.take headerSize
  checkHeader N forestMark .noForestFormat header
  let dims := wordAt header 2 2
  let leafSize := wordAt header 4 4
  let sourceSize := wordAt header 8 4
  let counter := wordAt header 12 8
  let slots := wordAt header 20 1
  if dims ≠ source.dims then throw (.savedDimensions dims source.dims)
  if sourceSize ≠ source.size then throw (.savedPoints sourceSize source.size)
  if maxSlots < slots ∨ counter >>> slots ≠ 0 then throw (.counterTooWide counter slots)
  let forest ← match empty dims ⟨leafSize, maxNodes⟩ metric with
    | .error e => throw (.storedPart e)
    | .ok forest => pure forest
  readSlots sourceSize slots { forest with counter }

end Forest

end Proximity

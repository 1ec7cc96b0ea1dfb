import Proximity.Bytes.Stream
import Proximity.Coordinate.Storable
import Proximity.Source
import Proximity.Options
import Proximity.Tree.Basic

/-!
# Trees as bytes

A stored tree is a header of 20 bytes, the ends of each side of its box, the arrangement of its
points and its nodes, every branch before its children. Point indices take two bytes each while
the source has fewer than 65536 points, and four otherwise. Coordinates of the points are not
stored. Reading checks each part as soon as it has it.
-/

namespace Proximity

/-- The second byte of a stored index: the version above the tag of the coordinate type. -/
def formatByte (N : Type) [Storable N] : Nat :=
  formatVersion * 16 + (Storable.kind N).tag

/-- The word in some bytes at an offset. -/
def wordAt (bytes : List UInt8) (offset width : Nat) : Nat :=
  LittleEndian.ofBytes ((bytes.drop offset).take width)

/-- Refuses a header that does not begin like a stored index of this coordinate type. -/
def checkHeader (N : Type) [Storable N] (mark : Nat) (otherwise : Error)
    (header : List UInt8) : Except Error Unit :=
  let kind := wordAt header 1 1
  if wordAt header 0 1 ≠ mark then .error otherwise
  else if kind / 16 ≠ formatVersion then .error (.wrongVersion (kind / 16))
  else if kind % 16 ≠ (Storable.kind N).tag then
    .error (.wrongType (kind % 16) (Storable.kind N).tag)
  else .ok ()

/-- The bytes of a point index in a tree over a source of some size. -/
def indexWidth (sourceSize : Nat) : Nat := if 65536 ≤ sourceSize then 4 else 2

namespace Reader

/-- The next coordinate of a stream. -/
def coordinate (N : Type) [Storable N] : Reader N :=
  Storable.ofBytes <$> take (Storable.width N)

/-- The most point indices that are read at a time. -/
def chunkLength : Nat := 4096

/-- The words of one width in some bytes. -/
def wordsOf (width : Nat) : (count : Nat) → List UInt8 → List Nat
  | 0, _ => []
  | count + 1, bytes =>
    LittleEndian.ofBytes (bytes.take width) :: wordsOf width count (bytes.drop width)

/-- So many words of one width, put after those already read and read in that many chunks. -/
def words (width : Nat) : (chunks count : Nat) → Array Nat → Reader (Array Nat)
  | 0, _, read => return read
  | chunks + 1, count, read => do
    let length := min count chunkLength
    let bytes ← take (length * width)
    words width chunks (count - length) (read ++ wordsOf width length bytes)

/-- The next side of a stream. -/
def side (N : Type) [Storable N] : Reader (Side N) := do
  let low ← coordinate N
  let high ← coordinate N
  return ⟨low, high⟩

end Reader

namespace Node

variable {N : Type} [Storable N]

/-- The bytes of a node and all below it. -/
def encode : Node N → List UInt8
  | .leaf first last =>
    LittleEndian.toBytes 1 0 ++ LittleEndian.toBytes 4 first ++ LittleEndian.toBytes 4 last
  | .branch axis split left right =>
    LittleEndian.toBytes 1 1 ++ LittleEndian.toBytes 2 axis ++ Storable.toBytes split ++
      left.encode ++ right.encode

/-- Reads a node and all below it, when `count` nodes, its own included, are already known of.
Every level makes nodes known, so `levels` need not be more than the number announced. -/
def read (dims points announced : Nat) : (levels count : Nat) → Reader (Node N × Nat)
  | 0, _ => throw (.moreNodesThanAnnounced announced)
  | levels + 1, count => do
    match ← Reader.word 1 with
    | 0 =>
      let first ← Reader.word 4
      let last ← Reader.word 4
      if last < first ∨ points < last then throw (.leafRange first last points)
      return (.leaf first last, count)
    | 1 =>
      let axis ← Reader.word 2
      let split ← Reader.coordinate N
      if dims ≤ axis then throw (.splitDimension axis dims)
      if announced < count + 2 then throw (.moreNodesThanAnnounced announced)
      let (left, count) ← read dims points announced levels (count + 2)
      let (right, count) ← read dims points announced levels count
      return (.branch axis split left right, count)
    | tag => throw (.unknownNode tag)

end Node

namespace Tree

variable {N : Type} [Storable N]

/-- The number of bytes of the header. -/
def headerSize : Nat := 20

/-- The bytes of a tree over a source of some size. -/
def encode (tree : Tree N) (sourceSize : Nat) : List UInt8 :=
  LittleEndian.toBytes 1 treeMark ++ LittleEndian.toBytes 1 (formatByte N) ++
    LittleEndian.toBytes 2 tree.dims ++ LittleEndian.toBytes 4 tree.leafSize ++
    LittleEndian.toBytes 4 sourceSize ++ LittleEndian.toBytes 4 tree.size ++
    LittleEndian.toBytes 4 tree.nodes ++
    tree.box.sides.flatMap (fun side => Storable.toBytes side.low ++ Storable.toBytes side.high) ++
    tree.order.toList.flatMap (LittleEndian.toBytes (indexWidth sourceSize)) ++
    tree.root.encode

/-- Reads a tree, and the size of the source that it was stored for. -/
def read [Coordinate N] : Reader (Tree N × Nat) := do
  let header ← Reader.take headerSize
  checkHeader N treeMark .noTreeFormat header
  let dims := wordAt header 2 2
  let leafSize := wordAt header 4 4
  let sourceSize := wordAt header 8 4
  let points := wordAt header 12 4
  let announced := wordAt header 16 4
  if dims = 0 ∨ leafSize = 0 ∨ points = 0 then throw (.invalidHeader dims leafSize points)
  if sourceSize < points then throw (.morePointsThanSource points sourceSize)
  if announced = 0 ∨ 2 * points < announced then throw (.impossibleNodeCount announced points)
  let sides ← Array.toList <$> Reader.many (Reader.side N) dims #[]
  if sides.any fun side => side.high < side.low then throw (.storedPart .cornersCrossed)
  let chunks := (points + Reader.chunkLength - 1) / Reader.chunkLength
  let order ← Reader.words (indexWidth sourceSize) chunks points #[]
  if let some bad := order.find? (sourceSize ≤ ·) then throw (.storedIndex bad sourceSize)
  let (root, count) ← Node.read dims points announced announced 1
  if count ≠ announced then throw (.fewerNodesThanAnnounced count announced)
  return (⟨dims, leafSize, order, ⟨sides⟩, root⟩, sourceSize)

/-- Reads a tree over all points of a source. -/
def load [Coordinate N] (source : Source N) : Reader (Tree N) := do
  let (tree, sourceSize) ← read
  if sourceSize ≠ source.size then throw (.savedPoints sourceSize source.size)
  if tree.size ≠ sourceSize then throw (.savedCoverage tree.size sourceSize)
  if tree.dims ≠ source.dims then throw (.savedDimensions tree.dims source.dims)
  return tree

end Tree

end Proximity

/-!
# Causes of failure

Every operation that can fail says why by one of these causes. `Error.kind` groups them by what
was being done, and `Error.message` is their text.
-/

namespace Proximity

/-- Why an operation failed. -/
inductive Error where
  -- boxes and sources
  | cornerSizes (low high : Nat)
  | cornersCrossed
  | noDimensions
  | raggedBuffer (values dims : Nat)
  | boxDimensions (box points : Nat)
  -- building
  | leafSizeZero
  | leafSizeTooLarge (size : Nat)
  | tooManyDimensions (dims : Nat)
  | noPoints
  | tooManyPoints (count : Nat)
  | dimensionsOutside (dims : Nat)
  | pointOutOfRange (index count : Nat)
  | pointPresent (index : Nat)
  | nodesExhausted (count : Nat)
  | insertionsExhausted
  -- asking
  | negativeSlack (written : String)
  | noNeighborsAsked
  | negativeRadius (written : String)
  | queryDimensions (query index : Nat)
  | sourceDimensions (source tree : Nat)
  | pointBeyondSource (index count : Nat)
  -- reading stored bytes
  | headerTooShort
  | noIndexFormat
  | unknownType (tag : Nat)
  | noTreeFormat
  | noForestFormat
  | wrongVersion (found : Nat)
  | wrongType (found expected : Nat)
  | invalidHeader (dims leafSize points : Nat)
  | morePointsThanSource (points source : Nat)
  | impossibleNodeCount (nodes points : Nat)
  | storedPart (cause : Error)
  | storedIndex (index count : Nat)
  | leafRange (first last points : Nat)
  | splitDimension (axis dims : Nat)
  | moreNodesThanAnnounced (announced : Nat)
  | unknownNode (tag : Nat)
  | fewerNodesThanAnnounced (read announced : Nat)
  | incomplete
  | savedPoints (saved source : Nat)
  | savedCoverage (covered points : Nat)
  | savedDimensions (saved source : Nat)
  | counterTooWide (counter slots : Nat)
  | slotNotCounted (slot : Nat)
  | slotMismatch (slot : Nat)
  | pointTwice (index : Nat)
  | slotTooLarge (slot nodes limit : Nat)
  -- streams
  | readFailed
  | writeFailed
  -- a coordinate, a range of points, an axis or a node that is not there
  | missingCoordinate (index axis : Nat)
  | missingPoints (first last : Nat)
  | missingAxis (axis : Nat)
  | missingNode (place : Nat)
  deriving DecidableEq, Repr

namespace Error

/-- What was being done when an operation failed. -/
inductive Kind where
  | construction
  | query
  | serialization
  | allocation
  | stream
  /-- Something was read that does not exist. -/
  | access
  deriving DecidableEq, Repr

/-- The kind of each cause. -/
def kind : Error → Kind
  | cornerSizes .. | cornersCrossed | noDimensions | raggedBuffer .. | boxDimensions ..
  | leafSizeZero | leafSizeTooLarge .. | tooManyDimensions .. | noPoints | tooManyPoints ..
  | dimensionsOutside .. | pointOutOfRange .. | pointPresent .. => .construction
  | nodesExhausted .. | insertionsExhausted | slotTooLarge .. => .allocation
  | negativeSlack .. | noNeighborsAsked | negativeRadius .. | queryDimensions ..
  | sourceDimensions .. | pointBeyondSource .. => .query
  | headerTooShort | noIndexFormat | unknownType .. | noTreeFormat | noForestFormat
  | wrongVersion .. | wrongType .. | invalidHeader .. | morePointsThanSource ..
  | impossibleNodeCount .. | storedPart .. | storedIndex .. | leafRange .. | splitDimension ..
  | moreNodesThanAnnounced .. | unknownNode .. | fewerNodesThanAnnounced .. | incomplete
  | savedPoints .. | savedCoverage .. | savedDimensions .. | counterTooWide ..
  | slotNotCounted .. | slotMismatch .. | pointTwice .. => .serialization
  | readFailed | writeFailed => .stream
  | missingCoordinate .. | missingPoints .. | missingAxis .. | missingNode .. => .access

/-- How the messages of a kind begin. -/
def Kind.lead : Kind → String
  | construction => "Construction error: "
  | query => "Query error: "
  | serialization => "Serialization error: "
  | allocation => "Allocation error: "
  | stream => ""
  | access => "Access error: "

/-- The text of a cause, led in by its kind. -/
def message (e : Error) : String :=
  e.kind.lead ++ match e with
  | cornerSizes low high => s!"Bounding box corners have {low} and {high} dimensions."
  | cornersCrossed => "Bounding box low corner exceeds high corner."
  | noDimensions => "Dimensionality must be at least 1."
  | raggedBuffer values dims =>
    s!"Buffer of {values} values is not a multiple of {dims} dimensions."
  | boxDimensions box points => s!"Bounding box has {box} dimensions, points have {points}."
  | leafSizeZero => "leaf_max_size must be at least 1."
  | leafSizeTooLarge size => s!"leaf_max_size {size} does not fit in u32."
  | tooManyDimensions dims => s!"Dimensionality {dims} does not fit in u16."
  | noPoints => "Cannot build a tree over zero points."
  | tooManyPoints count => s!"{count} points exceed the u32 index range."
  | dimensionsOutside dims => s!"Dimensionality {dims} is outside 1..=65535."
  | pointOutOfRange index count => s!"Point {index} is out of range for a source of {count} points."
  | pointPresent index => s!"Point {index} is already in the tree."
  | nodesExhausted count => s!"Node arena is full after {count} nodes."
  | insertionsExhausted => "Insertion counter overflow."
  | negativeSlack written => s!"eps must be non-negative, got {written}."
  | noNeighborsAsked => "k must be at least 1."
  | negativeRadius written => s!"Radius must be non-negative, got {written}."
  | queryDimensions query index => s!"Query has {query} dimensions, index has {index}."
  | sourceDimensions source tree => s!"Source has {source} dimensions, tree has {tree}."
  | pointBeyondSource index count =>
    s!"Tree references point {index} but the source has {count} points."
  | headerTooShort => "Header shorter than two bytes."
  | noIndexFormat => "Data not in kd-index format."
  | unknownType tag => s!"Unexpected type {tag}."
  | noTreeFormat => "Data not in kd-index tree format."
  | noForestFormat => "Data not in kd-index dynamic tree format."
  | wrongVersion found => s!"Got v{found} data when expected v1."
  | wrongType found expected => s!"Got type {found} data when expected type {expected}."
  | invalidHeader dims leafSize points =>
    s!"Invalid header: {dims} dimensions, leaf size {leafSize}, {points} points."
  | morePointsThanSource points source =>
    s!"Tree references {points} points but its source had {source}."
  | impossibleNodeCount nodes points => s!"{nodes} nodes is impossible for {points} points."
  | storedPart cause => cause.message
  | storedIndex index count => s!"Point index {index} out of {count}."
  | leafRange first last points => s!"Leaf range {first}..{last} is outside 0..{points}."
  | splitDimension axis dims => s!"Split dimension {axis} out of {dims}."
  | moreNodesThanAnnounced announced => s!"More than the {announced} nodes announced in the header."
  | unknownNode tag => s!"Unexpected node tag {tag}."
  | fewerNodesThanAnnounced read announced =>
    s!"Read {read} nodes when the header announced {announced}."
  | incomplete => "Stream ended before the index was complete."
  | savedPoints saved source =>
    s!"Saved tree was built over {saved} points, source has {source}."
  | savedCoverage covered points => s!"Saved tree covers {covered} of its {points} points."
  | savedDimensions saved source => s!"Saved tree has {saved} dimensions, source has {source}."
  | counterTooWide counter slots => s!"Counter {counter} does not fit in {slots} slots."
  | slotNotCounted slot => s!"Slot {slot} is stored but empty according to the counter."
  | slotMismatch slot => s!"Sub-tree {slot} does not match the dynamic tree header."
  | pointTwice index => s!"Point {index} is stored twice."
  | slotTooLarge slot nodes limit =>
    s!"Sub-tree {slot} has {nodes} nodes, more than the cap of Some({limit})."
  | readFailed => "read failed"
  | writeFailed => "write failed"
  | missingCoordinate index axis => s!"Point {index} has no coordinate {axis}."
  | missingPoints first last => s!"Points {first}..{last} are not stored."
  | missingAxis axis => s!"There is no axis {axis}."
  | missingNode place => s!"There is no node {place}."

end Error

end Proximity

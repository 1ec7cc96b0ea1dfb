import Proximity.Error

/-!
# Kinds of coordinates

The eight coordinate types of stored indexes, each with the tag that stands in a header and the
bytes one coordinate takes. `CoordinateKind.ofHeader` tells the type from the first two bytes of a
stored index of either format.
-/

namespace Proximity

/-- The coordinate types that an index can be stored with. -/
inductive CoordinateKind where
  | int8
  | uint8
  | int16
  | uint16
  | int32
  | uint32
  | float32
  | float64
  deriving DecidableEq, Repr

namespace CoordinateKind

/-- The tag of a type, in the low half of the second header byte. -/
def tag : CoordinateKind → Nat
  | int8 => 0
  | uint8 => 1
  | int16 => 3
  | uint16 => 4
  | int32 => 5
  | uint32 => 6
  | float32 => 7
  | float64 => 8

/-- The number of bytes of one coordinate. -/
def width : CoordinateKind → Nat
  | int8 | uint8 => 1
  | int16 | uint16 => 2
  | int32 | uint32 | float32 => 4
  | float64 => 8

/-- The name of a type. -/
def name : CoordinateKind → String
  | int8 => "Int8"
  | uint8 => "UInt8"
  | int16 => "Int16"
  | uint16 => "UInt16"
  | int32 => "Int32"
  | uint32 => "UInt32"
  | float32 => "Float32"
  | float64 => "Float64"

/-- All coordinate types. -/
def all : List CoordinateKind :=
  [int8, uint8, int16, uint16, int32, uint32, float32, float64]

/-- The type with a given tag. -/
def ofTag? (tag : Nat) : Option CoordinateKind := all.find? fun kind => kind.tag = tag

/-- The tag of a type is read back as that type. -/
@[simp] theorem ofTag?_tag (kind : CoordinateKind) : ofTag? kind.tag = some kind := by
  cases kind <;> rfl

/-- Every tag fits the lower half of a byte. -/
theorem tag_lt (kind : CoordinateKind) : kind.tag < 16 := by
  cases kind <;> decide

end CoordinateKind

/-- The first byte of a stored tree. -/
def treeMark : Nat := 0xdf

/-- The first byte of a stored forest. -/
def forestMark : Nat := 0xde

/-- The version of both formats, in the high half of the second byte. -/
def formatVersion : Nat := 1

/-- The coordinate type of a stored index, from its first two bytes. -/
def CoordinateKind.ofHeader : List UInt8 → Except Error CoordinateKind
  | mark :: version :: _ =>
    if mark.toNat ≠ treeMark ∧ mark.toNat ≠ forestMark then .error .noIndexFormat
    else
      let tag := version.toNat % 16
      match ofTag? tag with
      | some kind => .ok kind
      | none => .error (.unknownType tag)
  | _ => .error .headerTooShort

end Proximity

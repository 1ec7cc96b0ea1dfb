import Proximity.Bytes.LittleEndian
import Proximity.Coordinate.Kind
import Proximity.Number.Binary32

/-!
# Coordinates as bytes

A stored coordinate is a word of the width of its type, least significant byte first. The laws say
that values and words of that width correspond one to one, so nothing is lost either way.
-/

namespace Proximity

/-- Coordinates that can be stored. -/
class Storable (N : Type) where
  kind : CoordinateKind
  toWord : N → Nat
  ofWord : Nat → N
  toWord_lt : ∀ v, toWord v < LittleEndian.capacity kind.width
  ofWord_toWord : ∀ v, ofWord (toWord v) = v
  toWord_ofWord : ∀ w, w < LittleEndian.capacity kind.width → toWord (ofWord w) = w

namespace Storable

variable {N : Type} [Storable N]

/-- The number of bytes of one coordinate. -/
abbrev width (N : Type) [Storable N] : Nat := (kind N).width

/-- The bytes of a coordinate. -/
def toBytes (v : N) : List UInt8 := LittleEndian.toBytes (width N) (toWord v)

/-- The coordinate with the given bytes. -/
def ofBytes (bs : List UInt8) : N := ofWord (LittleEndian.ofBytes bs)

@[simp] theorem length_toBytes (v : N) : (toBytes v).length = width N :=
  LittleEndian.length_toBytes ..

@[simp] theorem ofBytes_toBytes (v : N) : ofBytes (toBytes v) = v := by
  rw [ofBytes, toBytes, LittleEndian.ofBytes_toBytes (toWord_lt v), ofWord_toWord]

/-- A value is stored as the very bytes it was read from. -/
theorem toBytes_ofBytes {bs : List UInt8} (h : bs.length = width N) :
    toBytes (ofBytes bs : N) = bs := by
  have hw := LittleEndian.ofBytes_lt bs
  rw [h] at hw
  rw [toBytes, ofBytes, toWord_ofWord _ hw, ← h, LittleEndian.toBytes_ofBytes]

end Storable

instance : Storable UInt8 where
  kind := .uint8
  toWord v := v.toNat
  ofWord := UInt8.ofNat
  toWord_lt v := v.toNat_lt
  ofWord_toWord _ := UInt8.ofNat_toNat
  toWord_ofWord _ h := UInt8.toNat_ofNat_of_lt' h

instance : Storable UInt16 where
  kind := .uint16
  toWord v := v.toNat
  ofWord := UInt16.ofNat
  toWord_lt v := v.toNat_lt
  ofWord_toWord _ := UInt16.ofNat_toNat
  toWord_ofWord _ h := UInt16.toNat_ofNat_of_lt' h

instance : Storable UInt32 where
  kind := .uint32
  toWord v := v.toNat
  ofWord := UInt32.ofNat
  toWord_lt v := v.toNat_lt
  ofWord_toWord _ := UInt32.ofNat_toNat
  toWord_ofWord _ h := UInt32.toNat_ofNat_of_lt' h

instance : Storable Int8 where
  kind := .int8
  toWord v := v.toUInt8.toNat
  ofWord w := (UInt8.ofNat w).toInt8
  toWord_lt v := v.toUInt8.toNat_lt
  ofWord_toWord v := by rw [UInt8.ofNat_toNat]; rfl
  toWord_ofWord _ h := UInt8.toNat_ofNat_of_lt' h

instance : Storable Int16 where
  kind := .int16
  toWord v := v.toUInt16.toNat
  ofWord w := (UInt16.ofNat w).toInt16
  toWord_lt v := v.toUInt16.toNat_lt
  ofWord_toWord v := by rw [UInt16.ofNat_toNat]; rfl
  toWord_ofWord _ h := UInt16.toNat_ofNat_of_lt' h

instance : Storable Int32 where
  kind := .int32
  toWord v := v.toUInt32.toNat
  ofWord w := (UInt32.ofNat w).toInt32
  toWord_lt v := v.toUInt32.toNat_lt
  ofWord_toWord v := by rw [UInt32.ofNat_toNat]; rfl
  toWord_ofWord _ h := UInt32.toNat_ofNat_of_lt' h

instance : Storable Binary32 where
  kind := .float32
  toWord v := v.bits.toNat
  ofWord w := ⟨UInt32.ofNat w⟩
  toWord_lt v := v.bits.toNat_lt
  ofWord_toWord v := by rw [UInt32.ofNat_toNat]
  toWord_ofWord _ h := UInt32.toNat_ofNat_of_lt' h

instance : Storable Binary64 where
  kind := .float64
  toWord v := v.bits.toNat
  ofWord w := ⟨UInt64.ofNat w⟩
  toWord_lt v := v.bits.toNat_lt
  ofWord_toWord v := by rw [UInt64.ofNat_toNat]
  toWord_ofWord _ h := UInt64.toNat_ofNat_of_lt' h

end Proximity

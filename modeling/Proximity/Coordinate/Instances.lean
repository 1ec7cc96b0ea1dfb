import Proximity.Coordinate.Basic
import Proximity.Number.Binary32

/-!
# The eight coordinate types

Integers of 8, 16 and 32 bits, signed and unsigned, are widened exactly; a number becomes an
integer by cutting its fraction. The ends of the range of the floating types are their finite
extremes, so infinities lie outside.
-/

namespace Proximity

/-- The integer part of a number, if it lies between the two ends. -/
def Binary64.truncateWithin? (low high : Int) (x : Binary64) : Option Int :=
  x.truncate?.filter fun n => low ≤ n && n ≤ high

instance : Coordinate UInt8 where
  decidableLT := inferInstance
  decidableLE := inferInstance
  lowest := 0
  highest := 255
  toBinary64 v := .ofInt v.toNat
  ofBinary64? x := (x.truncateWithin? 0 255).map fun n => UInt8.ofNat n.toNat

instance : Coordinate UInt16 where
  decidableLT := inferInstance
  decidableLE := inferInstance
  lowest := 0
  highest := 65535
  toBinary64 v := .ofInt v.toNat
  ofBinary64? x := (x.truncateWithin? 0 65535).map fun n => UInt16.ofNat n.toNat

instance : Coordinate UInt32 where
  decidableLT := inferInstance
  decidableLE := inferInstance
  lowest := 0
  highest := 4294967295
  toBinary64 v := .ofInt v.toNat
  ofBinary64? x := (x.truncateWithin? 0 4294967295).map fun n => UInt32.ofNat n.toNat

instance : Coordinate Int8 where
  decidableLT := inferInstance
  decidableLE := inferInstance
  lowest := Int8.minValue
  highest := Int8.maxValue
  toBinary64 v := .ofInt v.toInt
  ofBinary64? x := (x.truncateWithin? (-128) 127).map Int8.ofInt

instance : Coordinate Int16 where
  decidableLT := inferInstance
  decidableLE := inferInstance
  lowest := Int16.minValue
  highest := Int16.maxValue
  toBinary64 v := .ofInt v.toInt
  ofBinary64? x := (x.truncateWithin? (-32768) 32767).map Int16.ofInt

instance : Coordinate Int32 where
  decidableLT := inferInstance
  decidableLE := inferInstance
  lowest := Int32.minValue
  highest := Int32.maxValue
  toBinary64 v := .ofInt v.toInt
  ofBinary64? x := (x.truncateWithin? (-2147483648) 2147483647).map Int32.ofInt

instance : Coordinate Binary32 where
  decidableLT := inferInstance
  decidableLE := inferInstance
  lowest := .minFinite
  highest := .maxFinite
  toBinary64 := Binary32.widen
  ofBinary64? x := some (.narrow x)

instance : Coordinate Binary64 where
  decidableLT := inferInstance
  decidableLE := inferInstance
  lowest := .neg .maxFinite
  highest := .maxFinite
  toBinary64 v := v
  ofBinary64? x := some x

end Proximity

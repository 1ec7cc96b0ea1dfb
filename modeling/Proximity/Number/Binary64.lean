import Proximity.Number.Scalar

/-!
# Binary floating point in 64 bits

A value is its bit pattern, so no payload of an unordered value is lost between reading and
writing. Order is defined on the patterns alone: `key` sends equal values, the two zeros among
them, to equal words and larger values to larger words, and `rank` does the same for the total
order, in which the zeros differ and every pattern has its place.
-/

namespace Proximity

/-- An IEEE 754 binary64 value, kept as its bits. -/
structure Binary64 where
  bits : UInt64
  deriving DecidableEq

namespace Binary64

/-- The bit that holds the sign, and the first word of the upper half of `key`. -/
def signBit : UInt64 := 0x8000000000000000

/-- The pattern of positive infinity; a larger magnitude is no number. -/
def infinityBits : UInt64 := 0x7ff0000000000000

/-- Whether the sign bit is set. -/
def isNegative (x : Binary64) : Bool := signBit ≤ x.bits

/-- The bits below the sign. -/
def magnitude (x : Binary64) : UInt64 := if x.isNegative then x.bits - signBit else x.bits

/-- Whether the value is no number, hence unordered. -/
def isNaN (x : Binary64) : Bool := infinityBits < x.magnitude

/-- A word that grows with the value and is the same for both zeros. -/
def key (x : Binary64) : UInt64 :=
  if x.isNegative then signBit - x.magnitude else signBit + x.magnitude

/-- A word that grows along the total order of all bit patterns. -/
def rank (x : Binary64) : UInt64 :=
  if x.isNegative then signBit - 1 - x.magnitude else signBit + x.magnitude

/-- Whether the first value is below the second; false if either is unordered. -/
def below (x y : Binary64) : Bool := !x.isNaN && !y.isNaN && x.key < y.key

/-- Whether the first value is at most the second; false if either is unordered. -/
def atMost (x y : Binary64) : Bool := !x.isNaN && !y.isNaN && x.key ≤ y.key

instance : LT Binary64 := ⟨fun x y => x.below y = true⟩
instance : LE Binary64 := ⟨fun x y => x.atMost y = true⟩

instance : DecidableLT Binary64 := fun x y => inferInstanceAs (Decidable (x.below y = true))
instance : DecidableLE Binary64 := fun x y => inferInstanceAs (Decidable (x.atMost y = true))

/-- Two values compare as their keys do, unless one of them is unordered. -/
theorem lt_iff (x y : Binary64) :
    x < y ↔ x.isNaN = false ∧ y.isNaN = false ∧ x.key < y.key := by
  show x.below y = true ↔ _
  simp [below, and_assoc]

theorem le_iff (x y : Binary64) :
    x ≤ y ↔ x.isNaN = false ∧ y.isNaN = false ∧ x.key ≤ y.key := by
  show x.atMost y = true ↔ _
  simp [atMost, and_assoc]

/-- The total order of the bit patterns. -/
def order (x y : Binary64) : Ordering := compare x.rank y.rank

/-- The value as a machine float; all values that are no number become one. -/
def toFloat (x : Binary64) : Float := Float.ofBits x.bits

/-- The bits of a machine float. -/
def ofFloat (x : Float) : Binary64 := ⟨x.toBits⟩

/-- The value above all finite ones. -/
def infinity : Binary64 := ⟨infinityBits⟩

/-- The value below all finite ones. -/
def negInfinity : Binary64 := ⟨signBit + infinityBits⟩

/-- The unordered value that an undefined operation yields. -/
def undefined : Binary64 := ⟨0x7ff8000000000000⟩

/-- The largest finite value. -/
def maxFinite : Binary64 := ⟨infinityBits - 1⟩

/-- The value with its sign turned. -/
def neg (x : Binary64) : Binary64 :=
  if x.isNegative then ⟨x.bits - signBit⟩ else ⟨x.bits + signBit⟩

/-- The value without its sign. -/
def abs (x : Binary64) : Binary64 := ⟨x.magnitude⟩

/-- The smaller of two values; an unordered one is passed over. -/
def least (x y : Binary64) : Binary64 :=
  if x.isNaN then y else if y < x then y else x

/-- The larger of two values; an unordered one is passed over. -/
def greatest (x y : Binary64) : Binary64 :=
  if x.isNaN then y else if x ≤ y then y else x

/-- The exponent field. -/
def exponentField (x : Binary64) : Nat := (x.magnitude >>> 52).toNat

/-- The fraction field. -/
def fractionField (x : Binary64) : Nat := (x.magnitude % 0x10000000000000).toNat

/-- The leading bit of a significand, which is not stored. -/
def leadingBit : Nat := 0x10000000000000

/-- The integer that a finite value is a power of two times; see `scale`. -/
def significand (x : Binary64) : Nat :=
  if x.exponentField = 0 then x.fractionField else leadingBit + x.fractionField

/-- A finite value has the size `significand * 2 ^ (scale - 1074)`. -/
def scale (x : Binary64) : Nat := x.exponentField - 1

/-- The magnitude bits of `m * 2 ^ (scale - 1074)`, for `m` below `2 ^ 53`. -/
def pack (m scale : Nat) : Nat :=
  if m = 0 then 0
  else
    let shift := min (52 - m.log2) scale
    let m := m <<< shift
    if m < leadingBit then m
    else ((scale - shift) + 1) * leadingBit + (m - leadingBit)

/-- The value of an integer of at most 53 bits. -/
def ofInt (n : Int) : Binary64 :=
  let size := UInt64.ofNat (pack n.natAbs 1074)
  if n < 0 then ⟨signBit + size⟩ else ⟨size⟩

/-- What is left of `x` after taking away as many whole copies of `y` as fit, exactly, with the
sign of `x`. -/
def rem (x y : Binary64) : Binary64 :=
  if x.isNaN || y.isNaN || x.magnitude == infinityBits || y.magnitude == 0 then undefined
  else if x.magnitude < y.magnitude then x
  else
    let left := (x.significand <<< (x.scale - y.scale)) % y.significand
    let size := UInt64.ofNat (pack left y.scale)
    if x.isNegative then ⟨signBit + size⟩ else ⟨size⟩

/-- The integer part, if the value is finite. -/
def truncate? (x : Binary64) : Option Int :=
  if infinityBits ≤ x.magnitude then none
  else
    let size :=
      if 1074 ≤ x.scale then x.significand <<< (x.scale - 1074)
      else x.significand >>> (1074 - x.scale)
    some (if x.isNegative then -(size : Int) else size)

instance : Scalar Binary64 where
  zero := ⟨0⟩
  one := ⟨0x3ff0000000000000⟩
  add x y := ofFloat (x.toFloat + y.toFloat)
  sub x y := ofFloat (x.toFloat - y.toFloat)
  mul x y := ofFloat (x.toFloat * y.toFloat)
  neg := neg
  decidableLT := inferInstance
  decidableLE := inferInstance
  half x := ofFloat (x.toFloat * Float.ofBits 0x3fe0000000000000)
  abs := abs
  least := least
  greatest := greatest
  rem := rem

instance : Angular Binary64 where
  sqrt x := ofFloat x.toFloat.sqrt
  sin x := ofFloat x.toFloat.sin
  asin x := ofFloat x.toFloat.asin
  turn := ⟨0x401921fb54442d18⟩

instance : Distance Binary64 where
  infinity := infinity
  negInfinity := negInfinity
  order := order

end Binary64

end Proximity

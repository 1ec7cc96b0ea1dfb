import Proximity.Number.Binary64

/-!
# Binary floating point in 32 bits

Coordinates of half the width, kept as their bits and ordered like `Binary64`. They are widened to
64 bits for every computation; narrowing rounds to nearest and keeps what fits of the payload of
an unordered value.
-/

namespace Proximity

/-- An IEEE 754 binary32 value, kept as its bits. -/
structure Binary32 where
  bits : UInt32
  deriving DecidableEq

namespace Binary32

/-- The bit that holds the sign. -/
def signBit : UInt32 := 0x80000000

/-- The pattern of positive infinity; a larger magnitude is no number. -/
def infinityBits : UInt32 := 0x7f800000

/-- Whether the sign bit is set. -/
def isNegative (x : Binary32) : Bool := signBit ≤ x.bits

/-- The bits below the sign. -/
def magnitude (x : Binary32) : UInt32 := if x.isNegative then x.bits - signBit else x.bits

/-- Whether the value is no number, hence unordered. -/
def isNaN (x : Binary32) : Bool := infinityBits < x.magnitude

/-- A word that grows with the value and is the same for both zeros. -/
def key (x : Binary32) : UInt32 :=
  if x.isNegative then signBit - x.magnitude else signBit + x.magnitude

/-- Whether the first value is below the second; false if either is unordered. -/
def below (x y : Binary32) : Bool := !x.isNaN && !y.isNaN && x.key < y.key

/-- Whether the first value is at most the second; false if either is unordered. -/
def atMost (x y : Binary32) : Bool := !x.isNaN && !y.isNaN && x.key ≤ y.key

instance : LT Binary32 := ⟨fun x y => x.below y = true⟩
instance : LE Binary32 := ⟨fun x y => x.atMost y = true⟩

instance : DecidableLT Binary32 := fun x y => inferInstanceAs (Decidable (x.below y = true))
instance : DecidableLE Binary32 := fun x y => inferInstanceAs (Decidable (x.atMost y = true))

/-- Two values compare as their keys do, unless one of them is unordered. -/
theorem lt_iff (x y : Binary32) :
    x < y ↔ x.isNaN = false ∧ y.isNaN = false ∧ x.key < y.key := by
  show x.below y = true ↔ _
  simp [below, and_assoc]

theorem le_iff (x y : Binary32) :
    x ≤ y ↔ x.isNaN = false ∧ y.isNaN = false ∧ x.key ≤ y.key := by
  show x.atMost y = true ↔ _
  simp [atMost, and_assoc]

/-- The largest finite value. -/
def maxFinite : Binary32 := ⟨infinityBits - 1⟩

/-- The least finite value. -/
def minFinite : Binary32 := ⟨signBit + (infinityBits - 1)⟩

/-- The exponent field. -/
def exponentField (x : Binary32) : Nat := (x.magnitude >>> 23).toNat

/-- The fraction field. -/
def fractionField (x : Binary32) : Nat := (x.magnitude % 0x800000).toNat

/-- The leading bit of a significand, which is not stored. -/
def leadingBit : Nat := 0x800000

/-- The integer that a finite value is a power of two times; see `scale`. -/
def significand (x : Binary32) : Nat :=
  if x.exponentField = 0 then x.fractionField else leadingBit + x.fractionField

/-- A finite value has the size `significand * 2 ^ (scale - 149)`. -/
def scale (x : Binary32) : Nat := x.exponentField - 1

/-- The magnitude bits of `m * 2 ^ (scale - 149)`, for `m` up to `2 ^ 24`; those of infinity if
that is too large. -/
def pack (m scale : Nat) : Nat :=
  if m = 0 then 0
  else
    let shift := min (23 - m.log2) scale
    let m := m <<< shift
    if m < leadingBit then m
    else min infinityBits.toNat (((scale - shift) + 1) * leadingBit + (m - leadingBit))

/-- What the exponents of the smallest values of both widths differ by. -/
def scaleGap : Nat := 1074 - 149

/-- A number without its lowest bits, rounded to nearest; a tie goes to the even number. -/
def dropBits (m count : Nat) : Nat :=
  let kept := m >>> count
  let dropped := m % (1 <<< count)
  if 2 * dropped < 1 <<< count then kept
  else if 1 <<< count < 2 * dropped then kept + 1
  else kept + kept % 2

/-- The same value in 64 bits. All values that are no number become one. -/
def widen (x : Binary32) : Binary64 :=
  if x.isNaN then .undefined
  else
    let size :=
      if x.magnitude = infinityBits then Binary64.infinityBits
      else UInt64.ofNat (Binary64.pack x.significand (x.scale + scaleGap))
    if x.isNegative then ⟨Binary64.signBit + size⟩ else ⟨size⟩

/-- The nearest value in 32 bits. An unordered value stays unordered, with its sign and the upper
bits of its payload. -/
def narrow (x : Binary64) : Binary32 :=
  let size :=
    if x.isNaN then UInt32.ofNat (0x7fc00000 ||| (x.fractionField >>> 29))
    else if x.magnitude = Binary64.infinityBits then infinityBits
    else
      let count := max (x.significand.log2 - 23) (scaleGap - x.scale)
      UInt32.ofNat (pack (dropBits x.significand count) (x.scale + count - scaleGap))
  if x.isNegative then ⟨signBit + size⟩ else ⟨size⟩

end Binary32

end Proximity

import Mathlib
import Proximity.Number.Binary32

/-!
# Layouts of binary floating point

Patterns of 32 and of 64 bits are read by the same rules: the sign stands above the magnitude, and
in the magnitude the exponent stands above the fraction. The rules are stated here once, over any
words with the arithmetic of numbers; a width supplies its words and the places of its fields.
-/

namespace Proximity

/-- Words of `wordSize` bits, whose operations are those of the numbers they stand for as long as
nothing overflows. -/
class Word (W : Type) extends LE W, LT W, Add W, Sub W, Mod W, ShiftRight W where
  decidableLE : DecidableLE W
  decidableLT : DecidableLT W
  wordSize : Nat
  toNat : W → Nat
  toNat_lt (a : W) : toNat a < 2 ^ wordSize
  le_iff {a b : W} : a ≤ b ↔ toNat a ≤ toNat b
  lt_iff {a b : W} : a < b ↔ toNat a < toNat b
  toNat_add (a b : W) : toNat (a + b) = (toNat a + toNat b) % 2 ^ wordSize
  toNat_sub (a b : W) : b ≤ a → toNat (a - b) = toNat a - toNat b
  toNat_mod (a b : W) : toNat (a % b) = toNat a % toNat b
  toNat_shiftRight (a b : W) : toNat (a >>> b) = toNat a >>> (toNat b % wordSize)

attribute [reducible, instance] Word.decidableLE Word.decidableLT

instance : Word UInt32 where
  decidableLE := inferInstance
  decidableLT := inferInstance
  wordSize := 32
  toNat := UInt32.toNat
  toNat_lt := UInt32.toNat_lt
  le_iff := UInt32.le_iff_toNat_le
  lt_iff := UInt32.lt_iff_toNat_lt
  toNat_add := UInt32.toNat_add
  toNat_sub := UInt32.toNat_sub_of_le
  toNat_mod := UInt32.toNat_mod
  toNat_shiftRight := UInt32.toNat_shiftRight

instance : Word UInt64 where
  decidableLE := inferInstance
  decidableLT := inferInstance
  wordSize := 64
  toNat := UInt64.toNat
  toNat_lt := UInt64.toNat_lt
  le_iff := UInt64.le_iff_toNat_le
  lt_iff := UInt64.lt_iff_toNat_lt
  toNat_add := UInt64.toNat_add
  toNat_sub := UInt64.toNat_sub_of_le
  toNat_mod := UInt64.toNat_mod
  toNat_shiftRight := UInt64.toNat_shiftRight

/-- Where the fields of a pattern stand: the sign above `size` bits of magnitude, the lowest
`width` of which are the fraction. -/
structure Layout (W : Type) [Word W] where
  size : Nat
  width : Nat
  /-- The bit that holds the sign. -/
  signBit : W
  /-- The magnitude of infinity; a larger one is no number. -/
  infinity : W
  /-- How far the magnitude is shifted to leave its exponent. -/
  shift : W
  /-- What the magnitude is divided by to leave its fraction. -/
  fractions : W
  wordSize_eq : Word.wordSize W = size + 1
  width_lt : width < size
  toNat_signBit : Word.toNat signBit = 2 ^ size
  toNat_shift : Word.toNat shift = width
  toNat_fractions : Word.toNat fractions = 2 ^ width

namespace Layout

variable {W : Type} [Word W] (layout : Layout W) (bits : W)

/-- Whether the sign bit is set. -/
def isNegative : Bool := layout.signBit ≤ bits

/-- The bits below the sign. -/
def magnitude : W := if layout.isNegative bits then bits - layout.signBit else bits

/-- Whether the value is no number. -/
def isNaN : Bool := layout.infinity < layout.magnitude bits

/-- A word that grows with the value and is the same for both zeros. -/
def key : W :=
  if layout.isNegative bits then layout.signBit - layout.magnitude bits
  else layout.signBit + layout.magnitude bits

/-- The exponent field. -/
def exponentField : Nat := Word.toNat (layout.magnitude bits >>> layout.shift)

/-- The fraction field. -/
def fractionField : Nat := Word.toNat (layout.magnitude bits % layout.fractions)

/-- The fraction with the bit that is not stored. -/
def significand : Nat :=
  if layout.exponentField bits = 0 then layout.fractionField bits
  else 2 ^ layout.width + layout.fractionField bits

/-- The power of two that the significand is multiplied by. -/
def scale : Nat := layout.exponentField bits - 1

/-- The sign is set exactly in the upper half of the words. -/
theorem isNegative_iff : layout.isNegative bits = true ↔ 2 ^ layout.size ≤ Word.toNat bits := by
  rw [isNegative, decide_eq_true_eq, Word.le_iff, layout.toNat_signBit]

/-- The pattern is the magnitude with the sign above it. -/
theorem toNat_bits : Word.toNat bits =
    (if layout.isNegative bits then 2 ^ layout.size else 0) +
      Word.toNat (layout.magnitude bits) := by
  unfold magnitude
  by_cases h : layout.isNegative bits
  · have hle := (layout.isNegative_iff bits).mp h
    rw [if_pos h, if_pos h, Word.toNat_sub _ _ (by rwa [Word.le_iff, layout.toNat_signBit]),
      layout.toNat_signBit]
    omega
  · rw [if_neg h, if_neg h, Nat.zero_add]

/-- The magnitude leaves the sign free. -/
theorem magnitude_lt : Word.toNat (layout.magnitude bits) < 2 ^ layout.size := by
  have hlt := Word.toNat_lt bits
  have heq := layout.toNat_bits bits
  rw [layout.wordSize_eq, pow_succ] at hlt
  by_cases h : layout.isNegative bits
  · rw [if_pos h] at heq
    omega
  · have hn := mt (layout.isNegative_iff bits).mpr h
    rw [if_neg h] at heq
    omega

variable {bits} in
/-- A pattern is read as the sign and the magnitude it is put together from. -/
theorem parts_of_bits {negative : Bool} {size : Nat} (hsize : size < 2 ^ layout.size)
    (h : Word.toNat bits = (if negative then 2 ^ layout.size else 0) + size) :
    layout.isNegative bits = negative ∧ Word.toNat (layout.magnitude bits) = size := by
  have heq := layout.toNat_bits bits
  have hneg : layout.isNegative bits = negative := by
    rw [Bool.eq_iff_iff, isNegative_iff, h]
    cases negative <;> simp only [Bool.false_eq_true, ite_false, ite_true, iff_false, iff_true] <;>
      omega
  rw [hneg] at heq
  exact ⟨hneg, by omega⟩

/-- A sign bit is put on a word that leaves room for it. -/
theorem parts_signed (size : W) (hsize : Word.toNat size < 2 ^ layout.size) (negative : Bool) :
    layout.isNegative (if negative then layout.signBit + size else size) = negative ∧
      Word.toNat (layout.magnitude (if negative then layout.signBit + size else size)) =
        Word.toNat size := by
  apply layout.parts_of_bits hsize
  cases negative with
  | false => simp only [Bool.false_eq_true, ite_false, Nat.zero_add]
  | true =>
    simp only [ite_true, Word.toNat_add, layout.toNat_signBit, layout.wordSize_eq, pow_succ]
    exact Nat.mod_eq_of_lt (by omega)

/-- The order of values is that of their magnitudes, turned around below zero. -/
theorem toNat_key : Word.toNat (layout.key bits) =
    if layout.isNegative bits then 2 ^ layout.size - Word.toNat (layout.magnitude bits)
    else 2 ^ layout.size + Word.toNat (layout.magnitude bits) := by
  have hm := layout.magnitude_lt bits
  unfold key
  by_cases h : layout.isNegative bits
  · rw [if_pos h, if_pos h,
      Word.toNat_sub _ _ (by rw [Word.le_iff, layout.toNat_signBit]; exact hm.le),
      layout.toNat_signBit]
  · rw [if_neg h, if_neg h, Word.toNat_add, layout.toNat_signBit, layout.wordSize_eq, pow_succ]
    exact Nat.mod_eq_of_lt (by omega)

/-- A number has at most the magnitude of infinity. -/
theorem isNaN_eq_false_iff :
    layout.isNaN bits = false ↔
      Word.toNat (layout.magnitude bits) ≤ Word.toNat layout.infinity := by
  rw [isNaN, decide_eq_false_iff_not, Word.lt_iff, Nat.not_lt]

/-- The keys of ordered values lie between those of the two infinities. -/
theorem key_between (h : layout.isNaN bits = false) :
    2 ^ layout.size - Word.toNat layout.infinity ≤ Word.toNat (layout.key bits) ∧
      Word.toNat (layout.key bits) ≤ 2 ^ layout.size + Word.toNat layout.infinity := by
  have hle := (layout.isNaN_eq_false_iff bits).mp h
  have hm := layout.magnitude_lt bits
  rw [toNat_key]
  split <;> omega

/-- The exponent is what is left above the fraction. -/
theorem exponentField_eq :
    layout.exponentField bits = Word.toNat (layout.magnitude bits) / 2 ^ layout.width := by
  have hlt : layout.width < Word.wordSize W := by
    have hwidth := layout.width_lt
    rw [layout.wordSize_eq]
    omega
  rw [exponentField, Word.toNat_shiftRight, layout.toNat_shift, Nat.mod_eq_of_lt hlt,
    Nat.shiftRight_eq_div_pow]

/-- The fraction is what is left below the exponent. -/
theorem fractionField_eq :
    layout.fractionField bits = Word.toNat (layout.magnitude bits) % 2 ^ layout.width := by
  rw [fractionField, Word.toNat_mod, layout.toNat_fractions]

/-- A significand has one bit more than the fraction. -/
theorem significand_lt : layout.significand bits < 2 ^ (layout.width + 1) := by
  have hlt : layout.fractionField bits < 2 ^ layout.width := by
    rw [fractionField_eq]
    exact Nat.mod_lt _ (by positivity)
  rw [significand, pow_succ]
  split <;> omega

end Layout

namespace Binary32

/-- The fields of 32 bits. -/
def layout : Layout UInt32 where
  size := 31
  width := 23
  signBit := signBit
  infinity := infinityBits
  shift := 23
  fractions := 0x800000
  wordSize_eq := rfl
  width_lt := by decide
  toNat_signBit := rfl
  toNat_shift := rfl
  toNat_fractions := rfl

theorem magnitude_lt (x : Binary32) : x.magnitude.toNat < 2 ^ 31 := layout.magnitude_lt x.bits

theorem isNaN_eq_false_iff (x : Binary32) :
    x.isNaN = false ↔ x.magnitude.toNat ≤ 255 * 2 ^ 23 :=
  layout.isNaN_eq_false_iff x.bits

/-- The order of values is that of their magnitudes, turned around below zero. -/
theorem toNat_key (x : Binary32) :
    x.key.toNat =
      if x.isNegative then 2 ^ 31 - x.magnitude.toNat else 2 ^ 31 + x.magnitude.toNat :=
  layout.toNat_key x.bits

/-- The keys of ordered values lie between those of the two infinities. -/
theorem key_between {x : Binary32} (h : x.isNaN = false) :
    2 ^ 31 - 255 * 2 ^ 23 ≤ x.key.toNat ∧ x.key.toNat ≤ 2 ^ 31 + 255 * 2 ^ 23 :=
  layout.key_between x.bits h

theorem exponentField_eq (x : Binary32) : x.exponentField = x.magnitude.toNat / 2 ^ 23 :=
  layout.exponentField_eq x.bits

/-- A significand takes 24 bits. -/
theorem significand_lt (x : Binary32) : x.significand < 2 ^ 24 := layout.significand_lt x.bits

end Binary32

namespace Binary64

/-- The fields of 64 bits. -/
def layout : Layout UInt64 where
  size := 63
  width := 52
  signBit := signBit
  infinity := infinityBits
  shift := 52
  fractions := 0x10000000000000
  wordSize_eq := rfl
  width_lt := by decide
  toNat_signBit := rfl
  toNat_shift := rfl
  toNat_fractions := rfl

/-- The pattern is the magnitude with the sign above it. -/
theorem toNat_bits (x : Binary64) :
    x.bits.toNat = (if x.isNegative then 2 ^ 63 else 0) + x.magnitude.toNat :=
  layout.toNat_bits x.bits

theorem magnitude_lt (x : Binary64) : x.magnitude.toNat < 2 ^ 63 := layout.magnitude_lt x.bits

theorem isNaN_eq_false_iff (x : Binary64) :
    x.isNaN = false ↔ x.magnitude.toNat ≤ 2047 * 2 ^ 52 :=
  layout.isNaN_eq_false_iff x.bits

/-- The order of values is that of their magnitudes, turned around below zero. -/
theorem toNat_key (x : Binary64) :
    x.key.toNat =
      if x.isNegative then 2 ^ 63 - x.magnitude.toNat else 2 ^ 63 + x.magnitude.toNat :=
  layout.toNat_key x.bits

/-- The keys of ordered values lie between those of the two infinities. -/
theorem key_between {x : Binary64} (h : x.isNaN = false) :
    2 ^ 63 - 2047 * 2 ^ 52 ≤ x.key.toNat ∧ x.key.toNat ≤ 2 ^ 63 + 2047 * 2 ^ 52 :=
  layout.key_between x.bits h

theorem exponentField_eq (x : Binary64) : x.exponentField = x.magnitude.toNat / 2 ^ 52 :=
  layout.exponentField_eq x.bits

theorem fractionField_eq (x : Binary64) : x.fractionField = x.magnitude.toNat % 2 ^ 52 :=
  layout.fractionField_eq x.bits

/-- A significand takes 53 bits. -/
theorem significand_lt (x : Binary64) : x.significand < 2 ^ 53 := layout.significand_lt x.bits

end Binary64

end Proximity

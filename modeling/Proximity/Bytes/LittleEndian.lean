/-!
# Little-endian words

A natural number becomes exactly `width` bytes, least significant first, and bytes become a
natural number. Bits above the width are dropped, so writing is lossless exactly for the numbers
below `capacity width` (`ofBytes_toBytes`), and reading then writing changes no byte
(`toBytes_ofBytes`).
-/

namespace Proximity.LittleEndian

/-- The lowest `width` bytes of a number, least significant first. -/
def toBytes : Nat → Nat → List UInt8
  | 0, _ => []
  | width + 1, n => UInt8.ofNat (n % 256) :: toBytes width (n / 256)

/-- The number with the given bytes, least significant first. -/
def ofBytes : List UInt8 → Nat
  | [] => 0
  | b :: bs => b.toNat + 256 * ofBytes bs

/-- How many numbers there are of so many bytes. -/
def capacity : Nat → Nat
  | 0 => 1
  | width + 1 => 256 * capacity width

/-- A word takes its width in bytes, whatever it is. -/
@[simp] theorem length_toBytes (width n : Nat) : (toBytes width n).length = width := by
  induction width generalizing n with
  | zero => rfl
  | succ width ih => simp [toBytes, ih]

/-- Writing keeps a number modulo the width. -/
theorem ofBytes_toBytes_mod (width n : Nat) :
    ofBytes (toBytes width n) = n % capacity width := by
  induction width generalizing n with
  | zero => simp [toBytes, ofBytes, capacity, Nat.mod_one]
  | succ width ih =>
    rw [toBytes, ofBytes, ih, capacity, Nat.mod_mul, UInt8.toNat_ofNat']
    congr 1
    omega

/-- A number that fits its width is read back. -/
theorem ofBytes_toBytes {width n : Nat} (h : n < capacity width) :
    ofBytes (toBytes width n) = n := by
  rw [ofBytes_toBytes_mod, Nat.mod_eq_of_lt h]

/-- Bytes hold no number beyond their width. -/
theorem ofBytes_lt (bs : List UInt8) : ofBytes bs < capacity bs.length := by
  induction bs with
  | nil => simp [ofBytes, capacity]
  | cons b bs ih =>
    have hb : b.toNat < 256 := b.toNat_lt
    rw [ofBytes, List.length_cons, capacity]
    omega

/-- Reading a word and writing it again changes no byte. -/
theorem toBytes_ofBytes (bs : List UInt8) : toBytes bs.length (ofBytes bs) = bs := by
  induction bs with
  | nil => rfl
  | cons b bs ih =>
    have hb : b.toNat < 256 := b.toNat_lt
    have hm : (b.toNat + 256 * ofBytes bs) % 256 = b.toNat := by omega
    have hd : (b.toNat + 256 * ofBytes bs) / 256 = ofBytes bs := by omega
    rw [List.length_cons, toBytes, ofBytes, hm, hd, ih, UInt8.ofNat_toNat]

end Proximity.LittleEndian

import Mathlib
import Proximity.Coordinate.Instances
import Proximity.Proofs.Coordinate.Laws
import Proximity.Proofs.Number.Widening

/-!
# All coordinate types are lawful

Integers are ordered by their values, which 64-bit floating point holds exactly; 32-bit floating
point is ordered as its widened values are. The middle of a side matters in one place only: a side
that begins at negative infinity has no middle with anything below it.
-/

namespace Proximity

/-- Coordinates that stand for integers of few bits, all of them finite. -/
private theorem lawful_of_toInt {N : Type} [Coordinate N] (toInt : N → Int)
    (hle : ∀ v w : N, v ≤ w ↔ toInt v ≤ toInt w) (hlt : ∀ v w : N, v < w ↔ toInt v < toInt w)
    (hsize : ∀ v, (toInt v).natAbs < 2 ^ 53)
    (hwide : ∀ v : N, Coordinate.toBinary64 v = .ofInt (toInt v))
    (hlow : ∀ v : N, Coordinate.lowest ≤ v) (hhigh : ∀ v : N, v ≤ Coordinate.highest) :
    LawfulCoordinate N := by
  have hfinite (v : N) := Binary64.signed_ofInt (hsize v)
  have hnumber (v : N) : (Binary64.ofInt (toInt v)).isNaN = false :=
    (Binary64.isNaN_eq_false_iff _).mpr (hfinite v).1.le
  have hscale : (0 : Int) < 2 ^ 1074 := by positivity
  have hcomparison : Comparison N :=
    .ofMeasure (fun _ => True) toInt (by simp [hle]) (by simp [hlt])
  refine { hcomparison with
    lowest_le_highest := hlow _
    not_above := ?_
    toBinary64_le := ?_
    toBinary64_lt := ?_
    toBinary64_lowest := ?_
    toBinary64_highest := ?_
    not_lt_middle := ?_ }
  · intro v w hv
    exact absurd (hhigh v) (Comparison.not_ge hv)
  · intro v w h
    rw [hwide, hwide, Binary64.le_iff_signed, (hfinite v).2, (hfinite w).2]
    exact ⟨hnumber v, hnumber w, Int.mul_le_mul_of_nonneg_right ((hle v w).mp h) hscale.le⟩
  · intro v w h
    rw [hwide, hwide, Binary64.lt_iff_signed, (hfinite v).2, (hfinite w).2]
    exact ⟨hnumber v, hnumber w, Int.mul_lt_mul_of_pos_right ((hlt v w).mp h) hscale⟩
  · rw [hwide]
    exact (Binary64.between_extremes (hfinite _).1).1
  · rw [hwide]
    exact (Binary64.between_extremes (hfinite _).1).2
  · intro low high v hbelow
    exact absurd (hlow low) (Comparison.not_ge hbelow)

instance : LawfulCoordinate UInt8 :=
  lawful_of_toInt (fun v => v.toNat)
    (fun v w => by rw [UInt8.le_iff_toNat_le]; omega)
    (fun v w => by rw [UInt8.lt_iff_toNat_lt]; omega)
    (fun v => by have := v.toNat_lt; omega) (fun _ => rfl)
    (fun v => by rw [UInt8.le_iff_toNat_le]; exact Nat.zero_le _)
    (fun v => by rw [UInt8.le_iff_toNat_le]; exact Nat.le_of_lt_succ v.toNat_lt)

instance : LawfulCoordinate UInt16 :=
  lawful_of_toInt (fun v => v.toNat)
    (fun v w => by rw [UInt16.le_iff_toNat_le]; omega)
    (fun v w => by rw [UInt16.lt_iff_toNat_lt]; omega)
    (fun v => by have := v.toNat_lt; omega) (fun _ => rfl)
    (fun v => by rw [UInt16.le_iff_toNat_le]; exact Nat.zero_le _)
    (fun v => by rw [UInt16.le_iff_toNat_le]; exact Nat.le_of_lt_succ v.toNat_lt)

instance : LawfulCoordinate UInt32 :=
  lawful_of_toInt (fun v => v.toNat)
    (fun v w => by rw [UInt32.le_iff_toNat_le]; omega)
    (fun v w => by rw [UInt32.lt_iff_toNat_lt]; omega)
    (fun v => by have := v.toNat_lt; omega) (fun _ => rfl)
    (fun v => by rw [UInt32.le_iff_toNat_le]; exact Nat.zero_le _)
    (fun v => by rw [UInt32.le_iff_toNat_le]; exact Nat.le_of_lt_succ v.toNat_lt)

instance : LawfulCoordinate Int8 :=
  lawful_of_toInt Int8.toInt (fun _ _ => Int8.le_iff_toInt_le) (fun _ _ => Int8.lt_iff_toInt_lt)
    (fun v => by have := v.le_toInt; have := v.toInt_lt; omega) (fun _ => rfl)
    (fun v => by rw [Int8.le_iff_toInt_le]; exact v.le_toInt)
    (fun v => by rw [Int8.le_iff_toInt_le]; exact Int.le_of_lt_add_one v.toInt_lt)

instance : LawfulCoordinate Int16 :=
  lawful_of_toInt Int16.toInt (fun _ _ => Int16.le_iff_toInt_le)
    (fun _ _ => Int16.lt_iff_toInt_lt)
    (fun v => by have := v.le_toInt; have := v.toInt_lt; omega) (fun _ => rfl)
    (fun v => by rw [Int16.le_iff_toInt_le]; exact v.le_toInt)
    (fun v => by rw [Int16.le_iff_toInt_le]; exact Int.le_of_lt_add_one v.toInt_lt)

instance : LawfulCoordinate Int32 :=
  lawful_of_toInt Int32.toInt (fun _ _ => Int32.le_iff_toInt_le)
    (fun _ _ => Int32.lt_iff_toInt_lt)
    (fun v => by have := v.le_toInt; have := v.toInt_lt; omega) (fun _ => rfl)
    (fun v => by rw [Int32.le_iff_toInt_le]; exact v.le_toInt)
    (fun v => by rw [Int32.le_iff_toInt_le]; exact Int.le_of_lt_add_one v.toInt_lt)

instance : LawfulCoordinate Binary64 where
  lowest_le_highest := by decide
  not_above := Binary64.not_lt_of_maxFinite_lt
  toBinary64_le h := h
  toBinary64_lt h := h
  toBinary64_lowest := by decide
  toBinary64_highest := by decide
  not_lt_middle := by
    intro low high v hlow hlt
    obtain ⟨hs, hmag⟩ := Binary64.infinite_of_lt hlow
    rcases Binary64.half_negInfinity_add high hs hmag with hn | hi
    · exact absurd ((Binary64.lt_iff _ _).mp hlt).2.1 (hn ▸ by decide)
    · exact Binary64.not_lt_negInfinity v (hi ▸ hlt)

namespace Binary32

/-- What is unordered stays so when it is narrowed. -/
theorem isNaN_narrow {x : Binary64} (h : x.isNaN = true) : (narrow x).isNaN = true := by
  have hfield : x.fractionField < 2 ^ 52 := by
    rw [Binary64.fractionField_eq]
    exact Nat.mod_lt _ (by decide)
  have hlow : 0x7fc00000 ≤ 0x7fc00000 ||| (x.fractionField >>> 29) := Nat.left_le_or
  have hhigh : 0x7fc00000 ||| (x.fractionField >>> 29) < 2 ^ 31 := by
    apply Nat.or_lt_two_pow (by decide)
    rw [Nat.shiftRight_eq_div_pow]
    omega
  generalize hsize : 0x7fc00000 ||| (x.fractionField >>> 29) = size at hlow hhigh
  have hto : (UInt32.ofNat size).toNat = size :=
    UInt32.toNat_ofNat_of_lt' (by rw [UInt32.size]; omega)
  have hmag : (narrow x).magnitude.toNat = size := by
    have hparts := layout.parts_signed (.ofNat size) (hto.trans_lt hhigh) x.isNegative
    simp only [narrow, h, ite_true, hsize]
    cases hs : x.isNegative <;> rw [hs] at hparts <;> exact hparts.2.trans hto
  rw [← Bool.not_eq_false, isNaN_eq_false_iff, hmag]
  omega

/-- Nothing lies below negative infinity. -/
theorem not_lt_negInfinity (v : Binary32) : ¬ v < narrow .negInfinity := by
  intro h
  obtain ⟨hn, -, hlt⟩ := (lt_iff _ _).mp h
  have hbottom := (key_between hn).1
  have hend : (narrow .negInfinity).key.toNat = 2 ^ 31 - 255 * 2 ^ 23 := by decide
  rw [UInt32.lt_iff_toNat_lt] at hlt
  omega

/-- A value below all finite ones is negative infinity. -/
theorem infinite_of_lt {v : Binary32} (h : v < .minFinite) :
    v.isNaN = false ∧ v.isNegative = true ∧ v.wideSize = 2047 * 2 ^ 52 := by
  obtain ⟨hn, -, hlt⟩ := (lt_iff _ _).mp h
  have hle := (isNaN_eq_false_iff v).mp hn
  have hkey := toNat_key v
  have hend : minFinite.key.toNat = 2 ^ 31 - (255 * 2 ^ 23 - 1) := by decide
  rw [UInt32.lt_iff_toNat_lt] at hlt
  have hs : v.isNegative = true := by
    by_contra hs
    rw [if_neg hs] at hkey
    omega
  rw [if_pos hs] at hkey
  have hmag : v.magnitude = infinityBits := (magnitude_eq_infinityBits_iff v).mpr (by omega)
  exact ⟨hn, hs, by rw [wideSize, if_pos hmag]⟩

/-- Nothing lies above a value that is above all finite ones. -/
theorem not_lt_of_maxFinite_lt {v w : Binary32} (h : .maxFinite < v) : ¬ v < w := by
  intro hvw
  obtain ⟨-, -, hlt⟩ := (lt_iff _ _).mp h
  obtain ⟨-, hn, hlt'⟩ := (lt_iff _ _).mp hvw
  have htop := (key_between hn).2
  have hend : maxFinite.key.toNat = 2 ^ 31 + (255 * 2 ^ 23 - 1) := by decide
  rw [UInt32.lt_iff_toNat_lt] at hlt hlt'
  omega

end Binary32

instance : Comparison Binary32 where
  lt_iff v w := by
    rw [← Binary32.widen_lt_iff, ← Binary32.widen_le_iff, ← Binary32.widen_le_iff]
    exact Comparison.lt_iff _ _
  trans := by
    intro a b c
    simp only [← Binary32.widen_le_iff]
    exact Comparison.trans
  total := by
    intro a b
    simp only [← Binary32.widen_le_iff]
    exact Comparison.total
  left := by
    intro a b
    simp only [← Binary32.widen_le_iff]
    exact Comparison.left
  right := by
    intro a b
    simp only [← Binary32.widen_le_iff]
    exact Comparison.right

instance : LawfulCoordinate Binary32 where
  lowest_le_highest := by decide
  not_above := Binary32.not_lt_of_maxFinite_lt
  toBinary64_le h := (Binary32.widen_le_iff _ _).mpr h
  toBinary64_lt h := (Binary32.widen_lt_iff _ _).mpr h
  toBinary64_lowest := by decide
  toBinary64_highest := by decide
  not_lt_middle := by
    intro low high v hlow hlt
    obtain ⟨hn, hs, hsize⟩ := Binary32.infinite_of_lt hlow
    obtain ⟨hws, hwm⟩ := Binary32.widen_parts hn
    rcases Binary64.half_negInfinity_add (Binary32.widen high) (hws.trans hs)
      (hwm.trans hsize) with hhalf | hhalf
    · have hmiddle := Binary32.isNaN_narrow hhalf
      exact absurd ((Binary32.lt_iff _ _).mp hlt).2.1 (hmiddle ▸ by decide)
    · apply Binary32.not_lt_negInfinity v
      rw [← hhalf]
      exact hlt

namespace Binary64

/-- The total order counts magnitudes upward from the upper half of the words, and below zero
downward from the lower one. -/
theorem toNat_rank (x : Binary64) :
    x.rank.toNat =
      if x.isNegative then 2 ^ 63 - 1 - x.magnitude.toNat else 2 ^ 63 + x.magnitude.toNat := by
  have hm := magnitude_lt x
  have hone : (signBit - 1).toNat = 2 ^ 63 - 1 := rfl
  unfold rank
  by_cases h : x.isNegative
  · rw [if_pos h, if_pos h,
      UInt64.toNat_sub_of_le _ _ (by rw [UInt64.le_iff_toNat_le, hone]; omega), hone]
  · rw [if_neg h, if_neg h, UInt64.toNat_add, toNat_signBit]
    omega

/-- The place in the total order tells values apart. -/
theorem rank_injective {x y : Binary64} (h : x.rank = y.rank) : x = y := by
  have hx := toNat_rank x
  have hy := toNat_rank y
  have hxm := magnitude_lt x
  have hym := magnitude_lt y
  have hr : x.rank.toNat = y.rank.toNat := congrArg _ h
  cases hxs : x.isNegative <;> cases hys : y.isNegative <;>
    simp only [hxs, hys, ite_true, ite_false, Bool.false_eq_true] at hx hy
  · exact eq_of_sign_magnitude (hxs.trans hys.symm) (by omega)
  · omega
  · omega
  · exact eq_of_sign_magnitude (hxs.trans hys.symm) (by omega)

/-- The total order refines the comparison. -/
theorem rank_lt {x y : Binary64} (h : x < y) : x.rank < y.rank := by
  obtain ⟨-, -, hlt⟩ := (lt_iff _ _).mp h
  have hx := toNat_rank x
  have hy := toNat_rank y
  have hkx := toNat_key x
  have hky := toNat_key y
  have hxm := magnitude_lt x
  have hym := magnitude_lt y
  rw [UInt64.lt_iff_toNat_lt] at hlt ⊢
  cases hxs : x.isNegative <;> cases hys : y.isNegative <;>
    simp only [hxs, hys, ite_true, ite_false, Bool.false_eq_true] at hx hy hkx hky <;> omega

end Binary64

instance : LawfulDistance Binary64 where
  order_trans := inferInstanceAs (Std.TransCmp (compareOn Binary64.rank))
  order_eq :=
    { compare_self := @Std.ReflCmp.compare_self _ (compareOn Binary64.rank) _
      eq_of_compare := by
        intro x y h
        exact Binary64.rank_injective (Std.LawfulEqOrd.eq_of_compare (a := x.rank) h) }
  order_lt := by
    intro x y h
    exact Std.compare_eq_lt.mpr (Binary64.rank_lt h)
  le_infinity hx :=
    Comparison.le_of_not_lt (by decide) hx
      (Binary64.not_lt_of_maxFinite_lt (x := .infinity) (by decide))
  zero_le := by decide

end Proximity

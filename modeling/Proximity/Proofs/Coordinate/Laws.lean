import Mathlib
import Proximity.Box
import Proximity.Coordinate.Basic
import Proximity.Neighbor
import Proximity.Proofs.Number.Difference

/-!
# What is asked of coordinates and distances

Building and searching compare coordinates and look at the lengths of sides, and nothing else
about numbers matters to them. The laws below are all that later proofs use. Values that compare
with themselves form a linear preorder; the others are unordered and compare with nothing.
-/

namespace Proximity

/-- Comparisons in which only unordered values are out of line. -/
class Comparison (α : Type) [LT α] [LE α] : Prop where
  lt_iff (a b : α) : a < b ↔ a ≤ b ∧ ¬ b ≤ a
  trans {a b c : α} : a ≤ b → b ≤ c → a ≤ c
  total {a b : α} : a ≤ a → b ≤ b → a ≤ b ∨ b ≤ a
  left {a b : α} : a ≤ b → a ≤ a
  right {a b : α} : a ≤ b → b ≤ b

namespace Comparison

section

variable {α : Type} [LT α] [LE α] [Comparison α] {a b c : α}

theorem le (h : a < b) : a ≤ b := ((lt_iff a b).mp h).1

theorem not_ge (h : a < b) : ¬ b ≤ a := ((lt_iff a b).mp h).2

theorem not_lt (h : a ≤ b) : ¬ b < a := fun hlt => not_ge hlt h

theorem irrefl : ¬ a < a := fun h => not_ge h (le h)

theorem lt_of_lt_of_le (h : a < b) (h' : b ≤ c) : a < c :=
  (lt_iff a c).mpr ⟨trans (le h) h', fun hc => not_ge h (trans h' hc)⟩

theorem lt_of_le_of_lt (h : a ≤ b) (h' : b < c) : a < c :=
  (lt_iff a c).mpr ⟨trans h (le h'), fun hc => not_ge h' (trans hc h)⟩

theorem lt_trans (h : a < b) (h' : b < c) : a < c := lt_of_lt_of_le h (le h')

/-- Between ordered values one of the two comparisons holds. -/
theorem le_of_not_lt (ha : a ≤ a) (hb : b ≤ b) (h : ¬ a < b) : b ≤ a := by
  by_contra hba
  exact h ((lt_iff a b).mpr ⟨(total ha hb).resolve_right hba, hba⟩)

/-- Two values that can be compared at all are in one order or in the other. -/
theorem lt_of_not_le (ha : a ≤ a) (hb : b ≤ b) (h : ¬ a ≤ b) : b < a := by
  by_contra hba
  exact h (le_of_not_lt hb ha hba)

end

/-- A comparison of ordered values by integers. -/
theorem ofMeasure {α : Type} [LT α] [LE α] (ordered : α → Prop) (measure : α → Int)
    (hle : ∀ a b : α, a ≤ b ↔ ordered a ∧ ordered b ∧ measure a ≤ measure b)
    (hlt : ∀ a b : α, a < b ↔ ordered a ∧ ordered b ∧ measure a < measure b) : Comparison α where
  lt_iff a b := by
    rw [hlt, hle, hle]
    constructor
    · rintro ⟨ha, hb, h⟩
      exact ⟨⟨ha, hb, h.le⟩, fun h' => absurd h'.2.2 (by omega)⟩
    · rintro ⟨⟨ha, hb, -⟩, h⟩
      exact ⟨ha, hb, by by_contra hn; exact h ⟨hb, ha, by omega⟩⟩
  trans := by
    intro a b c hab hbc
    rw [hle] at *
    exact ⟨hab.1, hbc.2.1, hab.2.2.trans hbc.2.2⟩
  total := by
    intro a b ha hb
    rw [hle] at ha hb
    rw [hle, hle]
    exact (Int.le_total (measure a) (measure b)).imp (fun h => ⟨ha.1, hb.1, h⟩)
      fun h => ⟨hb.1, ha.1, h⟩
  left := by
    intro a b hab
    rw [hle] at *
    exact ⟨hab.1, hab.1, Int.le_refl _⟩
  right := by
    intro a b hab
    rw [hle] at *
    exact ⟨hab.2.1, hab.2.1, Int.le_refl _⟩

end Comparison

instance : Comparison Binary64 :=
  .ofMeasure (·.isNaN = false) Binary64.signed Binary64.le_iff_signed Binary64.lt_iff_signed

/-- Coordinate types that building and searching work on as they should. -/
class LawfulCoordinate (N : Type) [Coordinate N] : Prop extends Comparison N where
  lowest_le_highest : (Coordinate.lowest : N) ≤ Coordinate.highest
  /-- Above the range there is at most one value. -/
  not_above {v w : N} : Coordinate.highest < v → ¬ v < w
  toBinary64_le {v w : N} : v ≤ w → Coordinate.toBinary64 v ≤ Coordinate.toBinary64 w
  toBinary64_lt {v w : N} : v < w → Coordinate.toBinary64 v < Coordinate.toBinary64 w
  toBinary64_lowest :
    Binary64.neg .maxFinite ≤ Coordinate.toBinary64 (Coordinate.lowest : N)
  toBinary64_highest : Coordinate.toBinary64 (Coordinate.highest : N) ≤ .maxFinite
  /-- Nothing lies below the middle of a side that begins below the range. -/
  not_lt_middle {low : N} (high v : N) :
    low < Coordinate.lowest → ¬ v < Coordinate.middle low high

/-- Distances whose total order refines their comparison. -/
class LawfulDistance (D : Type) [Distance D] : Prop extends Comparison D where
  order_trans : Std.TransCmp (Distance.order : D → D → Ordering)
  order_eq : Std.LawfulEqCmp (Distance.order : D → D → Ordering)
  order_lt {a b : D} : a < b → Distance.order a b = .lt
  le_infinity {a : D} : a ≤ a → a ≤ Distance.infinity
  zero_le : (0 : D) ≤ 0

attribute [instance] LawfulDistance.order_trans LawfulDistance.order_eq

/-- Nothing is farther than infinity. -/
theorem LawfulDistance.not_infinity_lt {D : Type} [Distance D] [LawfulDistance D] (d : D) :
    ¬ Distance.infinity < d :=
  fun h => Comparison.not_lt (LawfulDistance.le_infinity (Comparison.right (Comparison.le h))) h

end Proximity

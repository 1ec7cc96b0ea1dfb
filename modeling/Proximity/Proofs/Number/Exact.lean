import Mathlib
import Proximity.Proofs.Coordinate.Laws

/-!
# Exact arithmetic

Metrics, searches and collectors are defined over any numbers that can be added, multiplied and
compared. The extended real numbers are such: nothing is rounded, and infinity is beyond every
distance.
-/

namespace Proximity

/-- What is left of a real number after taking away as many whole copies of another as fit, with
the sign of the first. -/
noncomputable def remainder (x y : ℝ) : ℝ :=
  x - y * (if 0 ≤ x / y then ⌊x / y⌋ else ⌈x / y⌉ : ℤ)

noncomputable instance : Scalar EReal where
  decidableLT := inferInstance
  decidableLE := inferInstance
  half x := x / 2
  abs x := max x (-x)
  least := min
  greatest := max
  rem x y := remainder x.toReal y.toReal

/-- The functions of angles are those of real numbers. -/
noncomputable instance : Angular EReal where
  sqrt x := if x = ⊤ then ⊤ else √x.toReal
  sin x := Real.sin x.toReal
  asin x := Real.arcsin x.toReal
  turn := (2 * Real.pi : ℝ)

noncomputable instance : Distance EReal where
  infinity := ⊤
  negInfinity := ⊥
  order := compare

instance : LawfulDistance EReal where
  lt_iff _ _ := lt_iff_le_not_ge
  trans := le_trans
  total _ _ := le_total _ _
  left _ := le_rfl
  right _ := le_rfl
  order_trans := inferInstanceAs (Std.TransCmp (compare : EReal → EReal → Ordering))
  order_eq := inferInstanceAs (Std.LawfulEqCmp (compare : EReal → EReal → Ordering))
  order_lt := compare_lt_iff_lt.mpr
  le_infinity _ := le_top
  zero_le := le_rfl

/-- Whether coordinates are widened to the real numbers they stand for and compare as these do. -/
structure Widen.Exact {N : Type} [LT N] [LE N] [Widen N EReal] (real : N → ℝ) : Prop where
  widen_eq (v : N) : (widen v : EReal) = real v
  le_real {v w : N} : v ≤ w → real v ≤ real w
  lt_real {v w : N} : v < w → real v ≤ real w

instance : Widen ℝ EReal := ⟨Real.toEReal⟩

/-- The real numbers stand for themselves. -/
theorem Widen.exact_real : Widen.Exact (id : ℝ → ℝ) := ⟨fun _ => rfl, id, le_of_lt⟩

end Proximity

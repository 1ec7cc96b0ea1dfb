import Mathlib
import Proximity.Proofs.Additive

/-!
# Ways around a circle

An angle has a copy on every turn of the circle. In exact arithmetic two angles are as far apart as
the nearest copies of them, and an arc is as far from an angle as the nearest of all angles in it:
at no distance if a copy of the angle lies in the arc, and else at that of one of its ends, however
many turns lie between the angle and the arc and however long the arc is.
-/

namespace Proximity.Metric.Circle

variable {period : ℝ}

section Ways

/-- The ways to go between angles of some difference, one for each number of whole turns. -/
def ways (period difference : ℝ) : Set ℝ :=
  Set.range fun turns : ℤ => |difference + turns * period|

/-- Going the other way round reverses every way and changes no length. -/
theorem ways_neg (period difference : ℝ) : ways period (-difference) = ways period difference := by
  have hsub (difference : ℝ) : ways period (-difference) ⊆ ways period difference := by
    rintro _ ⟨turns, rfl⟩
    refine ⟨-turns, ?_⟩
    dsimp only
    rw [← abs_neg]
    push_cast
    ring_nf
  refine (hsub difference).antisymm ?_
  have hback := hsub (-difference)
  rwa [neg_neg] at hback

/-- Whole turns lead back to the same place, so they change no way. -/
theorem ways_add_turns (period difference : ℝ) (more : ℤ) :
    ways period (difference + more * period) = ways period difference := by
  have hcopy : (fun turns : ℤ => |difference + more * period + turns * period|) =
      (fun turns : ℤ => |difference + turns * period|) ∘ Equiv.addLeft more := by
    funext turns
    simp only [Function.comp_apply, Equiv.coe_addLeft]
    push_cast
    ring_nf
  rw [ways, hcopy]
  exact (Equiv.addLeft more).surjective.range_comp _

/-- The shortest way. -/
noncomputable def way (period difference : ℝ) : ℝ :=
  period * |difference / period - round (difference / period)|

/-- How far a way is measures how far the turns differ from their exact number. -/
theorem abs_add_turns (hperiod : 0 < period) (difference : ℝ) (turns : ℤ) :
    |difference + turns * period| = period * |difference / period - (-turns : ℤ)| := by
  rw [← abs_of_pos hperiod, ← abs_mul, abs_of_pos hperiod, mul_sub, mul_div_cancel₀ _ hperiod.ne']
  push_cast
  ring_nf

/-- The length taken is that of the shortest way round. -/
theorem isLeast_way (hperiod : 0 < period) (difference : ℝ) :
    IsLeast (ways period difference) (way period difference) := by
  constructor
  · refine ⟨-round (difference / period), ?_⟩
    dsimp only
    rw [abs_add_turns hperiod, neg_neg, way]
  · rintro _ ⟨turns, rfl⟩
    dsimp only
    rw [abs_add_turns hperiod, way]
    exact mul_le_mul_of_nonneg_left (round_le _ _) hperiod.le

/-- No number of turns makes a shorter way. -/
theorem way_le (hperiod : 0 < period) (difference : ℝ) (turns : ℤ) :
    way period difference ≤ |difference + turns * period| :=
  (isLeast_way hperiod difference).2 ⟨turns, rfl⟩

theorem way_nonneg (hperiod : 0 < period) (difference : ℝ) : 0 ≤ way period difference :=
  mul_nonneg hperiod.le (abs_nonneg _)

/-- Nobody needs to go farther than half of the circle. -/
theorem way_le_half (hperiod : 0 < period) (difference : ℝ) :
    way period difference ≤ period / 2 := by
  calc way period difference ≤ period * (1 / 2) :=
        mul_le_mul_of_nonneg_left (abs_sub_round _) hperiod.le
    _ = period / 2 := mul_one_div period 2

/-- Both directions have the same shortest way. -/
theorem way_neg (hperiod : 0 < period) (difference : ℝ) :
    way period (-difference) = way period difference :=
  (ways_neg period difference ▸ isLeast_way hperiod (-difference)).unique (isLeast_way hperiod _)

/-- The shortest way depends on the places alone and not on the turns between them. -/
theorem way_add_turns (hperiod : 0 < period) (difference : ℝ) (turns : ℤ) :
    way period (difference + turns * period) = way period difference :=
  (ways_add_turns period difference turns ▸ isLeast_way hperiod _).unique (isLeast_way hperiod _)

theorem way_abs (hperiod : 0 < period) (difference : ℝ) :
    way period |difference| = way period difference := by
  rcases abs_choice difference with h | h
  · rw [h]
  · rw [h, way_neg hperiod]

end Ways

section Remainders

/-- What is left of a value that is not below zero is the part of a turn beyond whole ones. -/
theorem remainder_of_nonneg (hperiod : 0 < period) {x : ℝ} (hx : 0 ≤ x) :
    remainder x period = period * Int.fract (x / period) := by
  rw [remainder, if_pos (div_nonneg hx hperiod.le), Int.fract, mul_sub,
    mul_div_cancel₀ _ hperiod.ne']

/-- Below zero, what is left is short of that by a turn, unless it is nothing. -/
theorem remainder_of_neg (hperiod : 0 < period) {x : ℝ} (hx : x < 0) :
    remainder x period = 0 ∧ Int.fract (x / period) = 0 ∨
      remainder x period = period * Int.fract (x / period) - period := by
  have hneg : ¬ 0 ≤ x / period := not_le.mpr (div_neg_of_neg_of_pos hx hperiod)
  have hceil : remainder x period = period * (x / period - ⌈x / period⌉) := by
    rw [remainder, if_neg hneg, mul_sub, mul_div_cancel₀ _ hperiod.ne']
  by_cases hwhole : Int.fract (x / period) = 0
  · obtain ⟨turns, hturns⟩ := Int.fract_eq_zero_iff.mp hwhole
    refine .inl ⟨?_, hwhole⟩
    rw [hceil, ← hturns, Int.ceil_intCast, sub_self, mul_zero]
  · right
    rw [hceil, Int.ceil_eq_add_one_sub_fract hwhole]
    ring

/-- The remainder that is moved up is the part of a turn beyond whole ones, also below zero. -/
theorem remUp_coe (hperiod : 0 < period) (x : ℝ) :
    Scalar.remUp (x : EReal) period = (period * Int.fract (x / period) : ℝ) := by
  have hrem : Scalar.rem (x : EReal) period = (remainder x period : ℝ) := rfl
  have habs : Scalar.abs (period : EReal) = (period : ℝ) := by
    have h := abs_sub_coe period 0
    rwa [EReal.coe_zero, sub_zero, sub_zero, abs_of_pos hperiod] at h
  have hfract := Int.fract_nonneg (x / period)
  have hlt := Int.fract_lt_one (x / period)
  have hmoved : Scalar.remUp (x : EReal) period =
      ((if remainder x period < 0 then remainder x period + period
        else remainder x period : ℝ) : EReal) := by
    simp only [Scalar.remUp, hrem, habs, EReal.coe_neg']
    split
    · exact (EReal.coe_add ..).symm
    · rfl
  rw [hmoved]
  congr 1
  rcases le_or_gt 0 x with hx | hx
  · have hnonneg := mul_nonneg hperiod.le hfract
    rw [remainder_of_nonneg hperiod hx, if_neg (not_lt.mpr hnonneg)]
  rcases remainder_of_neg hperiod hx with ⟨hzero, hwhole⟩ | hshort
  · rw [hzero, hwhole, if_neg (lt_irrefl 0), mul_zero]
  · have hnegative : remainder x period < 0 := by
      rw [hshort, sub_neg]
      exact mul_lt_of_lt_one_right hperiod hlt
    rw [if_pos hnegative, hshort, sub_add_cancel]

/-- Going the shorter way around a circle is going the shortest way. -/
theorem wrapped_coe (hperiod : 0 < period) (a b : ℝ) :
    wrapped (period : EReal) a b = (way period (a - b) : ℝ) := by
  have hrem : Scalar.rem (Scalar.abs ((a : EReal) - b)) period =
      (period * Int.fract (|a - b| / period) : ℝ) := by
    rw [abs_sub_coe, ← remainder_of_nonneg hperiod (abs_nonneg _)]
    rfl
  have hhalf : Scalar.half (period : EReal) = (period / 2 : ℝ) := (EReal.coe_div period 2).symm
  rw [← way_abs hperiod, way, abs_sub_round_eq_min]
  simp only [wrapped, hrem, hhalf, EReal.coe_lt_coe_iff]
  generalize |a - b| / period = turns
  split
  · next hmore =>
    have hle : 1 - Int.fract turns ≤ Int.fract turns := by
      rw [div_lt_iff₀ two_pos, mul_assoc] at hmore
      have := (lt_mul_iff_one_lt_right hperiod).mp hmore
      linarith
    rw [min_eq_right hle, mul_sub, mul_one]
    rfl
  · next hless =>
    have hle : Int.fract turns ≤ 1 - Int.fract turns := by
      rw [div_lt_iff₀ two_pos, mul_assoc, lt_mul_iff_one_lt_right hperiod] at hless
      linarith
    rw [min_eq_left hle]

end Remainders

section Arcs

variable {low high v p : ℝ}

/-- Whether a copy of an angle lies in an arc. -/
def HoldsCopy (period v low high : ℝ) : Prop :=
  ∃ turns : ℤ, low ≤ v + turns * period ∧ v + turns * period ≤ high

/-- An arc holds a copy of an angle exactly if it is as long as the circle, or as the rest of a turn
from its low end to the angle. -/
theorem holdsCopy_iff (hperiod : 0 < period) :
    HoldsCopy period v low high ↔
      period ≤ high - low ∨ period * Int.fract ((v - low) / period) ≤ high - low := by
  have hlast : period * Int.fract ((v - low) / period) =
      v - low - ⌊(v - low) / period⌋ * period := by
    rw [Int.fract, mul_sub, mul_div_cancel₀ _ hperiod.ne', mul_comm period (_ : ℝ)]
  constructor
  · rintro ⟨turns, hlow, hhigh⟩
    have hfloor : -turns ≤ ⌊(v - low) / period⌋ := by
      rw [Int.le_floor, le_div_iff₀ hperiod]
      push_cast
      linarith
    have hfewer : -(turns * period) ≤ ⌊(v - low) / period⌋ * period := by
      rw [← neg_mul]
      exact mul_le_mul_of_nonneg_right (by exact_mod_cast hfloor) hperiod.le
    right
    linarith
  · intro hlong
    have hnonneg := mul_nonneg hperiod.le (Int.fract_nonneg ((v - low) / period))
    have hlt := mul_lt_of_lt_one_right hperiod (Int.fract_lt_one ((v - low) / period))
    refine ⟨-⌊(v - low) / period⌋, ?_, ?_⟩
    · push_cast
      linarith
    · push_cast
      rcases hlong with hlong | hlong <;> linarith

/-- If no copy of an angle lies in an arc, then one end of the arc is as near as anything in it. -/
theorem end_le_way (hperiod : 0 < period) (hnone : ¬ HoldsCopy period v low high) (hlow : low ≤ p)
    (hhigh : p ≤ high) :
    way period (v - low) ≤ way period (v - p) ∨ way period (v - high) ≤ way period (v - p) := by
  obtain ⟨turns, hturns⟩ := (isLeast_way hperiod (v - p)).1
  dsimp only at hturns
  rcases lt_or_ge (v + turns * period) low with hbelow | habove
  · left
    refine (way_le hperiod _ turns).trans ?_
    rw [← hturns, abs_of_nonpos (by linarith), abs_of_nonpos (by linarith)]
    linarith
  · right
    have hover : high < v + turns * period := not_le.mp fun hle => hnone ⟨turns, habove, hle⟩
    refine (way_le hperiod _ turns).trans ?_
    rw [← hturns, abs_of_nonneg (by linarith), abs_of_nonneg (by linarith)]
    linarith

/-- The squared ways between an angle and the angles of an arc. -/
def squaredWays (period v low high : ℝ) : Set EReal :=
  {d | ∃ p : ℝ, low ≤ p ∧ p ≤ high ∧ d = Scalar.square (wrapped (period : EReal) v p)}

/-- The square of a wrapped difference is that of the shortest way, in exact arithmetic. -/
theorem square_wrapped (hperiod : 0 < period) (v p : ℝ) :
    Scalar.square (wrapped (period : EReal) v p) =
      (way period (v - p) * way period (v - p) : ℝ) := by
  rw [wrapped_coe hperiod, square_coe]

/-- An arc with a copy of an angle is at no distance from it. -/
theorem isLeast_zero (hperiod : 0 < period) (hcopy : HoldsCopy period v low high) :
    IsLeast (squaredWays period v low high) 0 := by
  obtain ⟨turns, hlow, hhigh⟩ := hcopy
  constructor
  · refine ⟨v + turns * period, hlow, hhigh, ?_⟩
    have hturns : v - (v + turns * period) = 0 + (-turns : ℤ) * period := by
      push_cast
      ring
    have hzero : way period 0 = 0 := by simp [way]
    rw [square_wrapped hperiod, hturns, way_add_turns hperiod, hzero, mul_zero, EReal.coe_zero]
  · rintro _ ⟨p, -, -, rfl⟩
    rw [square_wrapped hperiod]
    exact EReal.coe_nonneg.mpr (mul_self_nonneg _)

/-- An arc without a copy of an angle is as far from it as the nearer of its ends. -/
theorem isLeast_end (hperiod : 0 < period) (hnone : ¬ HoldsCopy period v low high)
    (hends : low ≤ high) : IsLeast (squaredWays period v low high)
      (min (Scalar.square (wrapped (period : EReal) v low))
        (Scalar.square (wrapped (period : EReal) v high))) := by
  have hle {p near : ℝ} (h : way period (v - near) ≤ way period (v - p)) :
      Scalar.square (wrapped (period : EReal) v near) ≤
        Scalar.square (wrapped (period : EReal) v p) := by
    rw [square_wrapped hperiod, square_wrapped hperiod, EReal.coe_le_coe_iff]
    exact mul_self_le_mul_self (way_nonneg hperiod _) h
  constructor
  · rcases min_choice (Scalar.square (wrapped (period : EReal) v low))
      (Scalar.square (wrapped (period : EReal) v high)) with hmin | hmin
    · exact ⟨low, le_rfl, hends, hmin⟩
    · exact ⟨high, hends, le_rfl, hmin⟩
  · rintro _ ⟨p, hlow, hhigh, rfl⟩
    rcases end_le_way hperiod hnone hlow hhigh with h | h
    · exact (min_le_left _ _).trans (hle h)
    · exact (min_le_right _ _).trans (hle h)

end Arcs

section Coordinates

variable {N : Type} [LT N] [LE N] [Widen N EReal] {real : N → ℝ}

/-- The squared way to a coordinate. -/
theorem contribution_eq (hexact : Widen.Exact real) (axis : Nat) (v w : N) :
    contribution (period : EReal) axis v w =
      Scalar.square (wrapped (period : EReal) (real v) (real w)) := by
  rw [contribution, hexact.widen_eq, hexact.widen_eq]

/-- The gap to an arc is the squared way to the nearest angle in it. -/
theorem isLeast_gap (hexact : Widen.Exact real) (hperiod : 0 < period) (axis : Nat) (v : N)
    {side : Side N} (hside : side.low ≤ side.high) :
    IsLeast (squaredWays period (real v) (real side.low) (real side.high))
      (gap (period : EReal) axis v side) := by
  simp only [gap, contribution_eq hexact, hexact.widen_eq]
  rw [← EReal.coe_sub, ← EReal.coe_sub, remUp_coe hperiod]
  have hcopy : ((period : EReal) ≤ (real side.high - real side.low : ℝ) ∨
      ((period * Int.fract ((real v - real side.low) / period) : ℝ) : EReal) ≤
        (real side.high - real side.low : ℝ)) ↔
      HoldsCopy period (real v) (real side.low) (real side.high) := by
    rw [holdsCopy_iff hperiod, EReal.coe_le_coe_iff, EReal.coe_le_coe_iff]
  split
  · next hlong => exact isLeast_zero hperiod (hcopy.mp hlong)
  · next hshort => exact isLeast_end hperiod (mt hcopy.mpr hshort) (hexact.le_real hside)

end Coordinates

end Proximity.Metric.Circle

namespace Proximity.Metric

variable {N : Type} [LT N] [LE N] [DecidableLT N] [Widen N EReal] {real : N → ℝ} {period : ℝ}

/-- In exact arithmetic the shorter way around a circle is the shortest between any copies of two
angles. So it is the same back, at most half of the circle, and the same from every copy. The gap to
an arc is the square of the shortest way to an angle in it, wherever the arc lies and however long
it is, and so no more than what any coordinate in it contributes. -/
theorem circle_shortest (hexact : Widen.Exact real) (hperiod : 0 < period) :
    (∀ a b : ℝ, ∃ way : ℝ, Circle.wrapped (period : EReal) a b = way ∧
      IsLeast (Circle.ways period (a - b)) way ∧ 0 ≤ way ∧ way ≤ period / 2) ∧
    (∀ a b : ℝ, Circle.wrapped (period : EReal) a b = Circle.wrapped (period : EReal) b a) ∧
    (∀ (a b : ℝ) (turns : ℤ),
      Circle.wrapped (period : EReal) (a + turns * period : ℝ) b =
        Circle.wrapped (period : EReal) a b ∧
      Circle.wrapped (period : EReal) a (b + turns * period : ℝ) =
        Circle.wrapped (period : EReal) a b) ∧
    ∀ (axis : Nat) (v : N) (side : Side N), side.low ≤ side.high →
      IsLeast (Circle.squaredWays period (real v) (real side.low) (real side.high))
        ((circle period : Metric N EReal).gap axis v side) ∧
      ∀ w, side.low ≤ w → w ≤ side.high →
        (circle period : Metric N EReal).gap axis v side ≤
          (circle period : Metric N EReal).contribution axis v w := by
  refine ⟨fun a b => ?_, fun a b => ?_, fun a b turns => ⟨?_, ?_⟩, fun axis v side hside => ?_⟩
  · exact ⟨Circle.way period (a - b), Circle.wrapped_coe hperiod a b,
      Circle.isLeast_way hperiod _, Circle.way_nonneg hperiod _, Circle.way_le_half hperiod _⟩
  · rw [Circle.wrapped_coe hperiod, Circle.wrapped_coe hperiod, ← Circle.way_neg hperiod, neg_sub]
  · rw [Circle.wrapped_coe hperiod, Circle.wrapped_coe hperiod, add_sub_right_comm,
      Circle.way_add_turns hperiod]
  · have hturns : a - (b + turns * period) = a - b + (-turns : ℤ) * period := by
      push_cast
      ring
    rw [Circle.wrapped_coe hperiod, Circle.wrapped_coe hperiod, hturns,
      Circle.way_add_turns hperiod]
  · have hleast := Circle.isLeast_gap hexact hperiod axis v hside
    refine ⟨hleast, fun w hlow hhigh => hleast.2 ⟨real w, hexact.le_real hlow,
      hexact.le_real hhigh, Circle.contribution_eq hexact axis v w⟩⟩

/-- Between 350 and 10 degrees the shortest way crosses zero, and so does that from minus 5 degrees
to the arc between 10 and 200. -/
theorem circle_shortest_degrees :
    Widen.Exact (id : ℝ → ℝ) ∧ (0 : ℝ) < 360 ∧ (10 : ℝ) ≤ 200 ∧
    Circle.wrapped ((360 : ℝ) : EReal) (350 : ℝ) (10 : ℝ) = (20 : ℝ) ∧
    IsLeast (Circle.squaredWays 360 (-5) 10 200)
      ((circle ((360 : ℝ) : EReal) : Metric ℝ EReal).gap 0 (-5) ⟨10, 200⟩) := by
  have hperiod : (0 : ℝ) < 360 := by norm_num
  have hside : (10 : ℝ) ≤ 200 := by norm_num
  obtain ⟨hways, -, -, hgap⟩ := circle_shortest Widen.exact_real hperiod
  refine ⟨Widen.exact_real, hperiod, hside, ?_, (hgap 0 (-5) ⟨10, 200⟩ hside).1⟩
  obtain ⟨way, hway, hleast, -, -⟩ := hways 350 10
  have htwenty : IsLeast (Circle.ways 360 (350 - 10)) 20 := by
    refine ⟨⟨-1, by norm_num⟩, ?_⟩
    rintro _ ⟨turns, rfl⟩
    rcases le_or_gt turns (-1) with hback | hon
    · have hback : (turns : ℝ) ≤ -1 := by exact_mod_cast hback
      exact le_abs.mpr (.inr (by linarith))
    · have hon : (0 : ℝ) ≤ turns := by exact_mod_cast Int.add_one_le_iff.mpr hon
      exact le_abs.mpr (.inl (by linarith))
  rw [hway, hleast.unique htwenty]

end Proximity.Metric

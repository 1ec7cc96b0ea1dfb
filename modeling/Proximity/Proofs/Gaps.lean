import Mathlib
import Proximity.Proofs.Additive

/-!
# Gaps below distances

In exact arithmetic no point of a box is nearer to a query than the gaps to the box add up to. Where
a distance adds up contributions of the axes, these are compared one by one. On a sphere whose
antipodes are one point it does not: it is the smaller of two whole sums. But there a gap is at most
the contribution to either sum, so that all gaps together are at most both.
-/

namespace Proximity.Metric

variable {N : Type}

namespace Sphere

/-- The squared difference of a coordinate and the antipode of another. -/
def squaredSum {D : Type} [Scalar D] [Widen N D] (_axis : Nat) (v w : N) : D :=
  Scalar.square (widen v + widen w : D)

/-- The sums to a point and to its antipode add up contributions of the axes. -/
theorem sums_eq {D : Type} [Scalar D] [Widen N D] (axis : Nat) (direct mirrored : D)
    (query point : List N) : sums direct mirrored query point =
      (sum squaredDifference axis direct query point,
        sum squaredSum axis mirrored query point) := by
  induction query generalizing axis direct mirrored point with
  | nil => rfl
  | cons v query ih =>
    cases point with
    | nil => rfl
    | cons w point => exact ih ..

/-- The square of a way is at most that of a longer one. -/
theorem square_le {way x : ℝ} (hway : 0 ≤ way) (hle : way ≤ |x|) :
    Scalar.square (way : EReal) ≤ (x * x : ℝ) := by
  rw [square_coe, EReal.coe_le_coe_iff, ← abs_mul_abs_self x]
  exact mul_self_le_mul_self hway hle

/-- An interval is at most as far from a value as anything in it. -/
theorem exists_reach {low high w : ℝ} (hlow : low ≤ w) (hhigh : w ≤ high) (v : ℝ) :
    ∃ way : ℝ, reach (v : EReal) low high = way ∧ 0 ≤ way ∧ way ≤ |v - w| := by
  unfold reach
  simp only [EReal.coe_lt_coe_iff]
  split
  · next hbelow =>
    refine ⟨low - v, (EReal.coe_sub ..).symm, sub_nonneg.mpr hbelow.le, ?_⟩
    rw [abs_sub_comm]
    exact (sub_le_sub_right hlow v).trans (le_abs_self _)
  split
  · next habove =>
    refine ⟨v - high, (EReal.coe_sub ..).symm, sub_nonneg.mpr habove.le, ?_⟩
    exact (sub_le_sub_left hhigh v).trans (le_abs_self _)
  · exact ⟨0, rfl, le_rfl, abs_nonneg _⟩

variable [LT N] [LE N] [Widen N EReal] {real : N → ℝ} {side : Side N} {w : N}

/-- A gap is the square of a way to a side, or to its antipode if they are one, that is at most as
long as that to any value there. -/
theorem exists_gap (hexact : Widen.Exact real) (hlow : side.low ≤ w) (hhigh : w ≤ side.high)
    (antipodal : Bool) (axis : Nat) (v : N) :
    ∃ way : ℝ, gap antipodal axis v side = Scalar.square (way : EReal) ∧ 0 ≤ way ∧
      way ≤ |real v - real w| ∧ (antipodal = true → way ≤ |real v + real w|) := by
  have hlow := hexact.le_real hlow
  have hhigh := hexact.le_real hhigh
  obtain ⟨direct, hdirect, hpos, hle⟩ := exists_reach hlow hhigh (real v)
  obtain ⟨turned, hturned, hpos', hle'⟩ :=
    exists_reach (neg_le_neg hhigh) (neg_le_neg hlow) (real v)
  rw [EReal.coe_neg, EReal.coe_neg] at hturned
  rw [sub_neg_eq_add] at hle'
  simp only [gap, hexact.widen_eq, hdirect, hturned]
  cases antipodal with
  | false => exact ⟨direct, rfl, hpos, hle, nofun⟩
  | true =>
    have hleast : Scalar.least (direct : EReal) turned = (min direct turned : ℝ) :=
      EReal.coe_strictMono.monotone.map_min.symm
    rw [if_pos rfl, hleast]
    exact ⟨_, rfl, le_min hpos hpos', (min_le_left ..).trans hle,
      fun _ => (min_le_right ..).trans hle'⟩

/-- The gap to a side is at most the squared difference to any coordinate on it. -/
theorem gap_le_squaredDifference (hexact : Widen.Exact real) (hlow : side.low ≤ w)
    (hhigh : w ≤ side.high) (antipodal : Bool) (axis : Nat) (v : N) :
    gap antipodal axis v side ≤ (squaredDifference axis v w : EReal) := by
  obtain ⟨way, hgap, hpos, hle, -⟩ := exists_gap hexact hlow hhigh antipodal axis v
  rw [hgap, squaredDifference, hexact.widen_eq, hexact.widen_eq, ← EReal.coe_sub, square_coe]
  exact square_le hpos hle

/-- With antipodes the gap is also at most the squared sum, which is the way to the mirrored
coordinate. -/
theorem gap_le_squaredSum (hexact : Widen.Exact real) (hlow : side.low ≤ w)
    (hhigh : w ≤ side.high) (axis : Nat) (v : N) :
    gap true axis v side ≤ (squaredSum axis v w : EReal) := by
  obtain ⟨way, hgap, hpos, -, hle⟩ := exists_gap hexact hlow hhigh true axis v
  rw [hgap, squaredSum, hexact.widen_eq, hexact.widen_eq, ← EReal.coe_add, square_coe]
  exact square_le hpos (hle rfl)

end Sphere

variable [LT N] [LE N] [Widen N EReal] {query point : List N} {box : Box N}

/-- Whether every coordinate of a point lies between the ends of a side of its own. -/
def Inside (point : List N) (box : Box N) : Prop :=
  List.Forall₂ (fun v (side : Side N) => side.low ≤ v ∧ v ≤ side.high) point box.sides

omit [LT N] [Widen N EReal] in
/-- If on every side gaps are at most contributions, so are their sums. -/
theorem total_gaps_le_sum {metric : Metric N EReal} {contribution : Nat → N → N → EReal}
    (hbox : box.dims = query.length) (hpoint : Inside point box)
    (hgap : ∀ {side : Side N} {w : N}, side.low ≤ w → w ≤ side.high → ∀ axis v,
      metric.gap axis v side ≤ contribution axis v w) :
    Scalar.total (metric.gaps query box) ≤ sum contribution 0 0 query point := by
  refine foldl_gaps_le hbox (hpoint.length_eq.trans hbox) (fun axis v side w hside hw => ?_) le_rfl
  obtain ⟨hlt, rfl⟩ := List.getElem?_eq_some_iff.mp hw
  obtain ⟨hlt', rfl⟩ := List.getElem?_eq_some_iff.mp hside
  obtain ⟨hlow, hhigh⟩ := hpoint.get hlt hlt'
  exact hgap hlow hhigh _ v

variable [DecidableLT N] {real : N → ℝ}

/-- In exact arithmetic no point inside a box is nearer than the gaps to the box add up to, whether
differences are added up as they are or squared, or a sphere is searched, its antipodes being one
point or not. -/
theorem total_gaps_le (hexact : Widen.Exact real) {metric : Metric N EReal}
    (hmetric : metric ∈ [manhattan, squaredEuclidean, simpleSquaredEuclidean, sphere false,
      sphere true])
    (hbox : box.dims = query.length) (hpoint : Inside point box) :
    Scalar.total (metric.gaps query box) ≤ metric.distance query point := by
  have hsphere (antipodal : Bool) :
      Scalar.total ((sphere antipodal : Metric N EReal).gaps query box) ≤
        sum squaredDifference 0 0 query point := total_gaps_le_sum hbox hpoint fun hlow hhigh =>
    Sphere.gap_le_squaredDifference hexact hlow hhigh antipodal
  simp only [List.mem_cons, List.not_mem_nil, or_false] at hmetric
  obtain rfl | rfl | rfl | rfl | rfl := hmetric
  · exact total_gaps_le_sum hbox hpoint fun hlow hhigh => gap_manhattan_le hexact hlow hhigh
  · exact total_gaps_le_sum hbox hpoint fun hlow hhigh => gap_squaredEuclidean_le hexact hlow hhigh
  · exact total_gaps_le_sum hbox hpoint fun hlow hhigh => gap_squaredEuclidean_le hexact hlow hhigh
  · show _ ≤ (Sphere.sums 0 0 query point).1
    rw [Sphere.sums_eq 0]
    exact hsphere false
  · show _ ≤ min (Sphere.sums 0 0 query point).1 (Sphere.sums 0 0 query point).2
    rw [Sphere.sums_eq 0]
    refine le_min (hsphere true) (total_gaps_le_sum hbox hpoint fun hlow hhigh => ?_)
    exact Sphere.gap_le_squaredSum hexact hlow hhigh

/-- Every contribution between `(1, 1)` and `(1, -1)` comes to nothing, to the one point or to its
antipode, and yet they are four apart. The gaps to a box around the second add up to less. -/
theorem total_gaps_le_antipode :
    Widen.Exact (id : ℝ → ℝ) ∧ Box.dims ⟨[⟨1 / 2, 1⟩, ⟨-1, -1 / 2⟩]⟩ = [(1 : ℝ), 1].length ∧
    Inside [(1 : ℝ), -1] ⟨[⟨1 / 2, 1⟩, ⟨-1, -1 / 2⟩]⟩ ∧
    Scalar.total ((sphere true : Metric ℝ EReal).gaps [1, 1] ⟨[⟨1 / 2, 1⟩, ⟨-1, -1 / 2⟩]⟩) ≤
      (sphere true : Metric ℝ EReal).distance [1, 1] [1, -1] ∧
    (sphere true : Metric ℝ EReal).distance [1, 1] [1, -1] = (4 : ℝ) := by
  have hinside : Inside [(1 : ℝ), -1] ⟨[⟨1 / 2, 1⟩, ⟨-1, -1 / 2⟩]⟩ :=
    .cons (by norm_num) (.cons (by norm_num) .nil)
  refine ⟨Widen.exact_real, rfl, hinside,
    total_gaps_le Widen.exact_real (by simp) rfl hinside, ?_⟩
  show min
    (0 + Scalar.square (((1 : ℝ) : EReal) - (1 : ℝ)) + Scalar.square (((1 : ℝ) : EReal) - (-1 : ℝ)))
    (0 + Scalar.square (((1 : ℝ) : EReal) + (1 : ℝ)) + Scalar.square (((1 : ℝ) : EReal) + (-1 : ℝ)))
      = _
  simp only [← EReal.coe_sub, ← EReal.coe_add, square_coe]
  norm_num

end Proximity.Metric

import Mathlib
import Proximity.Proofs.Gaps
import Proximity.Proofs.Metric
import Proximity.Proofs.Source

/-!
# Points given up

A point may be given up once what has been added up so far is above the worst that still counts. In
exact arithmetic this changes no distance that counts: sums only grow, so that the value left behind
lies between the worst and the distance. It is so where one sum is kept, where nothing is ever given
up, and on a sphere whose antipodes are one point, where two sums are kept and both must be above
the worst.
-/

namespace Proximity.Metric

variable {N : Type}

/-- A value counts exactly if the distance does, and then it is the distance. -/
theorem GivenUp.counts {worst distance d : EReal} (h : GivenUp worst distance d) :
    (d ≤ worst ↔ distance ≤ worst) ∧ (distance ≤ worst → d = distance) ∧
      (worst < distance → worst < d ∧ d ≤ distance) := by
  obtain rfl | ⟨habove, hle⟩ := h
  · exact ⟨Iff.rfl, fun _ => rfl, fun habove => ⟨habove, le_rfl⟩⟩
  · have hfar := habove.trans_le hle
    exact ⟨iff_of_false habove.not_ge hfar.not_ge, fun hcounts => absurd hcounts hfar.not_ge,
      fun _ => ⟨habove, hle⟩⟩

section Signs

theorem square_nonneg (x : EReal) : 0 ≤ Scalar.square x := by
  show 0 ≤ x * x
  obtain hx | hx := le_total 0 x
  · exact mul_nonneg hx hx
  · have hneg : 0 ≤ -x := EReal.neg_nonneg.mpr hx
    rw [← neg_mul_neg]
    exact mul_nonneg hneg hneg

theorem abs_nonneg (x : EReal) : 0 ≤ Scalar.abs x := by
  show 0 ≤ max x (-x)
  obtain hx | hx := le_total 0 x
  · exact le_max_of_le_left hx
  · exact le_max_of_le_right (EReal.neg_nonneg.mpr hx)

end Signs

namespace Sphere

/-- The smaller of two sums if both count, else the first. -/
noncomputable def shorter (antipodal : Bool) (direct mirrored : EReal) : EReal :=
  if antipodal then Scalar.least direct mirrored else direct

/-- The shorter of two sums grows with both of them. -/
theorem shorter_mono (antipodal : Bool) {direct mirrored direct' mirrored' : EReal}
    (hdirect : direct ≤ direct') (hmirrored : mirrored ≤ mirrored') :
    shorter antipodal direct mirrored ≤ shorter antipodal direct' mirrored' := by
  cases antipodal with
  | false => exact hdirect
  | true => exact min_le_min hdirect hmirrored

/-- A distance is too long exactly if both sums are, or the direct one where points have no
antipodes. -/
theorem lt_shorter_iff (antipodal : Bool) {worst direct mirrored : EReal} :
    worst < shorter antipodal direct mirrored ↔
      worst < direct ∧ (antipodal → worst < mirrored) := by
  cases antipodal with
  | false => exact ⟨fun h => ⟨h, nofun⟩, And.left⟩
  | true => exact lt_min_iff.trans (and_congr_right fun _ => ⟨fun h _ => h, fun h => h rfl⟩)

variable [Widen N EReal]

/-- The distance to a point that is read axis by axis is the shorter of the two whole sums, unless
the point is given up. -/
theorem distanceTo_givenUp (antipodal : Bool) {worst : EReal} {read : Nat → Except Error N}
    {query point : List N} (hlength : query.length ≤ point.length) {axis : Nat}
    (hread : ∀ i v, point[i]? = some v → read (axis + i) = .ok v) (direct mirrored : EReal) :
    ∃ d, distanceTo antipodal read worst axis direct mirrored query = .ok d ∧
      GivenUp worst (shorter antipodal (sum squaredDifference axis direct query point)
        (sum squaredSum axis mirrored query point)) d := by
  induction query generalizing point axis direct mirrored with
  | nil => exact ⟨_, rfl, .inl rfl⟩
  | cons v query ih =>
    obtain ⟨w, point, rfl⟩ := List.exists_cons_of_length_pos (Nat.zero_lt_of_lt hlength)
    have hfirst : read axis = .ok w := hread 0 w rfl
    simp only [distanceTo, hfirst, Outcome.ok_bind]
    split
    · next hgiven =>
      refine ⟨_, rfl, .inr ⟨(lt_shorter_iff antipodal).mpr hgiven, shorter_mono antipodal ?_ ?_⟩⟩
      · exact le_sum (fun _ _ _ => square_nonneg _) (axis + 1) _ query point
      · exact le_sum (fun _ _ _ => square_nonneg _) (axis + 1) _ query point
    · refine ih (Nat.le_of_succ_le_succ hlength) (fun i u hu => ?_) _ _
      rw [Nat.add_right_comm]
      exact hread (i + 1) u hu

/-- The distance on a sphere is the shorter of the two sums over all axes. -/
theorem distance_eq (antipodal : Bool) (query point : List N) :
    distance antipodal query point = shorter antipodal (sum squaredDifference 0 0 query point)
      (sum squaredSum 0 (0 : EReal) query point) := by
  unfold distance
  rw [sums_eq 0]
  rfl

end Sphere

variable [LT N] [DecidableLT N] [Widen N EReal]

/-- In exact arithmetic what is found of the distance to a point counts exactly if the distance
does, and then it is the distance; else it is above the worst too, and at most the distance. -/
theorem distanceTo_counts {metric : Metric N EReal} {period : EReal}
    (hmetric : metric ∈ [manhattan, squaredEuclidean, simpleSquaredEuclidean, circle period,
      sphere false, sphere true])
    {source : Source N} {index : Nat} {query point : List N}
    (hpoint : source.point index = .ok point) (hquery : query.length ≤ source.dims)
    (worst : EReal) :
    ∃ d, metric.distanceTo query (source.read index) worst = .ok d ∧
      (d ≤ worst ↔ metric.distance query point ≤ worst) ∧
      (metric.distance query point ≤ worst → d = metric.distance query point) ∧
      (worst < metric.distance query point → worst < d ∧ d ≤ metric.distance query point) := by
  obtain ⟨hdims, hread⟩ := Source.point_eq_ok hpoint
  have hlength : query.length ≤ point.length := hdims ▸ hquery
  have hread (i : Nat) (v : N) (hv : point[i]? = some v) : source.read index (0 + i) = .ok v := by
    rw [Nat.zero_add]
    exact hread i v hv
  have hadditive {contribution : Nat → N → N → EReal}
      (hnonneg : ∀ axis v w, 0 ≤ contribution axis v w) :
      ∃ d, sumTo contribution (source.read index) (worst < ·) 0 0 query = .ok d ∧
        GivenUp worst (sum contribution 0 0 query point) d :=
    sumTo_givenUp hnonneg (fun _ => of_decide_eq_true) hlength hread 0
  have hsphere (antipodal : Bool) :
      ∃ d, Sphere.distanceTo antipodal (source.read index) worst 0 0 0 query = .ok d ∧
        GivenUp worst (Sphere.distance antipodal query point) d := by
    rw [Sphere.distance_eq]
    exact Sphere.distanceTo_givenUp antipodal hlength hread 0 0
  suffices h : ∃ d, metric.distanceTo query (source.read index) worst = .ok d ∧
      GivenUp worst (metric.distance query point) d by
    obtain ⟨d, hd, hgiven⟩ := h
    exact ⟨d, hd, hgiven.counts⟩
  simp only [List.mem_cons, List.not_mem_nil, or_false] at hmetric
  obtain rfl | rfl | rfl | rfl | rfl | rfl := hmetric
  · exact hadditive fun _ _ _ => abs_nonneg _
  · exact hadditive fun _ _ _ => square_nonneg _
  · show ∃ d, squaredTo (source.read index) query = .ok d ∧ _
    rw [squaredTo_eq fun x => zero_add _]
    exact sumTo_givenUp (fun _ _ _ => square_nonneg _) (fun _ h => absurd h Bool.false_ne_true)
      hlength hread 0
  · exact hadditive fun _ _ _ => square_nonneg _
  · exact hsphere false
  · exact hsphere true

/-- Ten away on each of three axes, and fifty the worst: the first axis is a hundred already. -/
theorem distanceTo_counts_tens :
    (Source.ofRows #[#[(10 : ℝ), 10, 10]]).point 0 = .ok [10, 10, 10] ∧
    [(0 : ℝ), 0, 0].length ≤ (Source.ofRows #[#[(10 : ℝ), 10, 10]]).dims ∧
    (squaredEuclidean : Metric ℝ EReal).distance [0, 0, 0] [10, 10, 10] = (300 : ℝ) ∧
    ∃ d, (squaredEuclidean : Metric ℝ EReal).distanceTo [0, 0, 0]
        ((Source.ofRows #[#[(10 : ℝ), 10, 10]]).read 0) (50 : ℝ) = .ok d ∧
      ((50 : ℝ) : EReal) < d ∧ d ≤ (300 : ℝ) := by
  have hdistance : (squaredEuclidean : Metric ℝ EReal).distance [0, 0, 0] [10, 10, 10] =
      (300 : ℝ) := by
    show (0 : EReal) + Scalar.square (((0 : ℝ) : EReal) - (10 : ℝ)) +
      Scalar.square (((0 : ℝ) : EReal) - (10 : ℝ)) +
      Scalar.square (((0 : ℝ) : EReal) - (10 : ℝ)) = _
    rw [zero_add, ← EReal.coe_sub, square_coe, ← EReal.coe_add, ← EReal.coe_add]
    norm_num
  obtain ⟨d, hd, -, -, hfar⟩ := @distanceTo_counts ℝ _ _ _ squaredEuclidean 360 (by simp)
    (Source.ofRows #[#[10, 10, 10]]) 0 [0, 0, 0] [10, 10, 10] rfl le_rfl (50 : ℝ)
  rw [hdistance] at hfar
  exact ⟨rfl, le_rfl, hdistance, d, hd, hfar (EReal.coe_lt_coe_iff.mpr (by norm_num))⟩

end Proximity.Metric

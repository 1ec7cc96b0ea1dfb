import Mathlib
import Proximity.Metric
import Proximity.Proofs.Profile
import Proximity.Proofs.Tree.Search

/-!
# Metrics that look at numerical values

Values of a coordinate type can be numerically equal and not be the same, as zero has two signs. A
metric is numeric if it makes the same of such values, be they the ends of a side or coordinates of
a point. In binary arithmetic, rounded as it is, all metrics of this library are: each squares what
it makes of two coordinates, or takes it without its sign, and with that the sign of zero is lost.
-/

namespace Proximity

namespace Binary64

open Float.Model Float.Model.UnpackedFloat

variable {x x' y y' : Binary64}

/-- Values with equal units are equal or both a zero. -/
theorem eq_or_zeros (h : x.signed = x'.signed) :
    x = x' ∨ ∃ s s', x = ofUnpacked (.zero s) ∧ x' = ofUnpacked (.zero s') := by
  have hzero {x : Binary64} (h : x.magnitude.toNat = 0) : x = ofUnpacked (.zero x.sign) := by
    rw [← unpack_of_zero h, ofUnpacked_unpack ((isNaN_eq_false_iff x).mpr (by omega))]
  exact (eq_or_zero h).imp_right fun ⟨hx, hx'⟩ => ⟨_, _, hzero hx, hzero hx'⟩

namespace Alike

/-- A value is alike itself. -/
theorem refl (x : Binary64) : x.Alike x := ⟨rfl, rfl⟩

/-- Alike values compare alike. -/
theorem le_iff (h : x.Alike x') (h' : y.Alike y') : x ≤ y ↔ x' ≤ y' := by
  rw [le_iff_signed, le_iff_signed, h.1, h.2, h'.1, h'.2]

/-- The squares of values alike are equal. -/
theorem square_eq (h : x.Alike x') : Scalar.square x = Scalar.square x' := by
  rcases eq_or_zeros h.2 with rfl | ⟨s, s', rfl, rfl⟩
  · rfl
  · cases s <;> cases s' <;> decide +kernel

/-- Without their signs values alike are equal. -/
theorem abs_eq (h : x.Alike x') : Scalar.abs x = Scalar.abs x' := by
  rcases eq_or_zeros h.2 with rfl | ⟨s, s', rfl, rfl⟩
  · rfl
  · cases s <;> cases s' <;> decide +kernel

/-- The negatives of values alike are alike. -/
theorem neg (h : x.Alike x') : (-x).Alike (-x') := by
  rcases eq_or_zeros h.2 with rfl | ⟨s, s', rfl, rfl⟩
  · exact .refl _
  · cases s <;> cases s' <;> exact ⟨by decide +kernel, by decide +kernel⟩

/-- The smaller of values alike are alike. -/
theorem least (hx : x.Alike x') (hy : y.Alike y') :
    (Scalar.least x y).Alike (Scalar.least x' y') := by
  show (if x.isNaN then y else if y < x then y else x).Alike
    (if x'.isNaN then y' else if y' < x' then y' else x')
  simp only [hx.1, hy.lt_iff hx]
  split
  · exact hy
  split
  · exact hy
  · exact hx

/-- A zero leaves itself, unless there is nothing to take copies of. -/
theorem rem_zero (s : Sign) (period : Binary64) :
    rem (ofUnpacked (.zero s)) period =
      if period.isNaN || period.magnitude == 0 then undefined else ofUnpacked (.zero s) := by
  have hzero : (ofUnpacked (.zero s)).isNaN = false ∧
      (ofUnpacked (.zero s)).magnitude = 0 := by
    cases s <;> exact ⟨by decide +kernel, by decide +kernel⟩
  rw [rem, hzero.1, hzero.2]
  by_cases hnan : period.isNaN = true
  · simp [hnan]
  by_cases hmag : period.magnitude = 0
  · simp [hmag]
  · have hpos : 0 < period.magnitude := UInt64.pos_iff_ne_zero.mpr hmag
    have hinf : ((0 : UInt64) == infinityBits) = false := by decide
    simp [hnan, hmag, hpos, hinf]

/-- What is left of values alike is alike, also moved up. -/
theorem remUp (h : x.Alike x') (period : Binary64) :
    (Scalar.remUp x period).Alike (Scalar.remUp x' period) := by
  rcases eq_or_zeros h.2 with rfl | ⟨s, s', rfl, rfl⟩
  · exact .refl _
  · have hrem : (Scalar.rem (ofUnpacked (.zero s)) period).Alike
        (Scalar.rem (ofUnpacked (.zero s')) period) := by
      show (Binary64.rem _ _).Alike (Binary64.rem _ _)
      rw [rem_zero, rem_zero]
      split
      · exact .refl _
      · exact h
    simp only [Scalar.remUp, hrem.lt_iff (.refl 0)]
    split
    · exact alike_add hrem.2 rfl
    · exact hrem

end Alike

end Binary64

/-- In binary arithmetic coordinates that are numerically equal are alike. -/
theorem Coordinate.alike_widen {N : Type} [Coordinate N] [LawfulCoordinate N] {v w : N}
    (h : v ≤ w) (h' : w ≤ v) : (widen v : Binary64).Alike (widen w) :=
  Binary64.alike_of_signed (Int.le_antisymm (measure_le h) (measure_le h'))

namespace Metric

/-- Whether a metric makes the same of values that are numerically equal. -/
structure Numeric {N D : Type} [Coordinate N] (metric : Metric N D) (query : List N) : Prop where
  gap_eq {axis : Nat} {v : N} {side other : Side N} : query[axis]? = some v → side.Alike other →
    metric.gap axis v side = metric.gap axis v other
  distance_eq {point other : List N} : List.Forall₂ (fun v w => v ≤ w ∧ w ≤ v) point other →
    metric.distance query point = metric.distance query other

/-- The gaps to boxes alike are the same. -/
theorem Numeric.gaps_eq {N D : Type} [Coordinate N] {metric : Metric N D} {query : List N}
    (h : metric.Numeric query) {box other : Box N} (hbox : box.Alike other) :
    metric.gaps query box = metric.gaps query other := by
  refine List.ext_getElem? fun axis => ?_
  rw [getElem?_gaps, getElem?_gaps]
  cases hv : query[axis]? with
  | none => rfl
  | some v =>
    rw [Option.bind_some, Option.bind_some]
    rcases Nat.lt_or_ge axis box.sides.length with hlt | hge
    · have hlt' := hbox.length_eq ▸ hlt
      rw [List.getElem?_eq_getElem hlt, List.getElem?_eq_getElem hlt']
      exact congrArg some (h.gap_eq hv (hbox.get hlt hlt'))
    · rw [List.getElem?_eq_none hge, List.getElem?_eq_none (hbox.length_eq ▸ hge)]

section

variable {N D : Type} [Coordinate N] [LawfulCoordinate N] [Scalar D]
variable {contribution : Nat → N → N → D}
variable (h : ∀ axis v {w w' : N}, w ≤ w' → w' ≤ w → contribution axis v w = contribution axis v w')
include h

omit [LawfulCoordinate N] in
/-- A sum of contributions is numeric if they are. -/
theorem sum_congr (axis : Nat) (acc : D) (query : List N) {point other : List N}
    (hpoint : List.Forall₂ (fun v w => v ≤ w ∧ w ≤ v) point other) :
    sum contribution axis acc query point = sum contribution axis acc query other := by
  induction hpoint generalizing axis acc query with
  | nil => rfl
  | cons hsame _ ih =>
    cases query with
    | nil => rfl
    | cons v query =>
      rw [sum, sum, h axis v hsame.1 hsame.2]
      exact ih ..

/-- A metric that adds up contributions is numeric if they are. -/
theorem numeric_additive (ofRadius : D → D) (query : List N) :
    (additive contribution ofRadius).Numeric query where
  gap_eq {axis v side other} _ hside := by
    have hbelow : v < side.low ↔ v < other.low :=
      ⟨(Comparison.lt_of_lt_of_le · hside.low_le), (Comparison.lt_of_lt_of_le · hside.le_low)⟩
    have habove : side.high < v ↔ other.high < v :=
      ⟨Comparison.lt_of_le_of_lt hside.le_high, Comparison.lt_of_le_of_lt hside.high_le⟩
    show gapToEnd contribution axis v side = gapToEnd contribution axis v other
    rw [gapToEnd, gapToEnd, h axis v hside.low_le hside.le_low,
      h axis v hside.high_le hside.le_high]
    simp only [hbelow, habove]
  distance_eq hpoint := sum_congr h 0 0 query hpoint

end

variable {N : Type} [Coordinate N] [LawfulCoordinate N] {v w w' : N}

/-- The differences from coordinates that are numerically equal are alike. -/
private theorem alike_difference (v : N) (h : w ≤ w') (h' : w' ≤ w) :
    (widen v - widen w : Binary64).Alike (widen v - widen w') :=
  Binary64.alike_sub rfl (Coordinate.alike_widen h h').2

/-- The sum of absolute differences is numeric. -/
theorem numeric_manhattan (query : List N) : (manhattan : Metric N Binary64).Numeric query :=
  numeric_additive (fun _ v _ _ h h' => (alike_difference v h h').abs_eq) _ query

/-- The sum of squared differences is numeric. -/
theorem numeric_squaredEuclidean (query : List N) :
    (squaredEuclidean : Metric N Binary64).Numeric query :=
  numeric_additive (fun _ v _ _ h h' => (alike_difference v h h').square_eq) _ query

/-- So is the one that is never given up early. -/
theorem numeric_simpleSquaredEuclidean (query : List N) :
    (simpleSquaredEuclidean : Metric N Binary64).Numeric query :=
  ⟨(numeric_squaredEuclidean query).gap_eq, (numeric_squaredEuclidean query).distance_eq⟩

/-- A circle is numeric. -/
theorem numeric_circle (period : Binary64) (query : List N) :
    (circle period : Metric N Binary64).Numeric query := by
  have hcontribution (axis : Nat) (v : N) {w w' : N} (h : w ≤ w') (h' : w' ≤ w) :
      Circle.contribution period axis v w = Circle.contribution period axis v w' := by
    simp only [Circle.contribution, Circle.wrapped, (alike_difference v h h').abs_eq]
  refine ⟨fun {axis v side other} _ hside => ?_,
    fun hpoint => sum_congr hcontribution 0 0 query hpoint⟩
  have hwidth : (widen side.high - widen side.low : Binary64).Alike
      (widen other.high - widen other.low) :=
    Binary64.alike_sub (Coordinate.alike_widen hside.high_le hside.le_high).2
      (Coordinate.alike_widen hside.low_le hside.le_low).2
  have hoffset := (alike_difference v hside.low_le hside.le_low).remUp period
  show Circle.gap period axis v side = Circle.gap period axis v other
  simp only [Circle.gap, hcontribution axis v hside.low_le hside.le_low,
    hcontribution axis v hside.high_le hside.le_high, hoffset.le_iff hwidth,
    (Binary64.Alike.refl period).le_iff hwidth]

/-- How far a value is from intervals alike is alike. -/
theorem Sphere.alike_reach (x : Binary64) {low low' high high' : Binary64} (hlow : low.Alike low')
    (hhigh : high.Alike high') : (reach x low high).Alike (reach x low' high') := by
  simp only [reach, (Binary64.Alike.refl x).lt_iff hlow, hhigh.lt_iff (.refl x)]
  split
  · exact Binary64.alike_sub hlow.2 rfl
  split
  · exact Binary64.alike_sub rfl hhigh.2
  · exact .refl _

/-- The sums to points that are numerically equal are the same. -/
theorem Sphere.sums_congr (direct mirrored : Binary64) (query : List N) {point other : List N}
    (hpoint : List.Forall₂ (fun v w => v ≤ w ∧ w ≤ v) point other) :
    sums direct mirrored query point = sums direct mirrored query other := by
  induction hpoint generalizing direct mirrored query with
  | nil => rfl
  | cons hsame _ ih =>
    cases query with
    | nil => rfl
    | cons v query =>
      have hsum : (widen v + widen _ : Binary64).Alike (widen v + widen _) :=
        Binary64.alike_add rfl (Coordinate.alike_widen hsame.1 hsame.2).2
      rw [sums, sums, (alike_difference v hsame.1 hsame.2).square_eq, hsum.square_eq]
      exact ih ..

/-- A sphere is numeric. -/
theorem numeric_sphere (antipodal : Bool) (query : List N) :
    (sphere antipodal : Metric N Binary64).Numeric query where
  gap_eq {axis v side other} _ hside := by
    have hlow := Coordinate.alike_widen hside.low_le hside.le_low
    have hhigh := Coordinate.alike_widen hside.high_le hside.le_high
    have hdirect := Sphere.alike_reach (widen v) hlow hhigh
    have hmirrored := Sphere.alike_reach (widen v) hhigh.neg hlow.neg
    show Sphere.gap antipodal axis v side = Sphere.gap antipodal axis v other
    simp only [Sphere.gap, hdirect.square_eq, (hdirect.least hmirrored).square_eq]
  distance_eq hpoint := by
    show Sphere.distance antipodal query _ = Sphere.distance antipodal query _
    rw [Sphere.distance, Sphere.distance, Sphere.sums_congr 0 0 query hpoint]

end Metric

end Proximity

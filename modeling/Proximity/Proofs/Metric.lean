import Mathlib
import Proximity.Metric
import Proximity.Proofs.Outcome

/-!
# What a metric reads

A metric is given all of a point to read from, but the distance to it is found from the
coordinates on the axes of the query. All metrics here keep to those.
-/

namespace Proximity.Metric

variable {N D : Type}

/-- Whether a metric reads a point on the axes of the query and nowhere else. -/
structure ReadsAxes (metric : Metric N D) : Prop where
  found (query : List N) (read : Nat → Except Error N) (worst : D) :
    (∀ axis < query.length, ∃ v, read axis = .ok v) →
      ∃ d, metric.distanceTo query read worst = .ok d
  congr (query : List N) (read other : Nat → Except Error N) (worst : D) :
    (∀ axis < query.length, read axis = other axis) →
      metric.distanceTo query read worst = metric.distanceTo query other worst

/-- What holds of the axes from one on holds of it and of those after it. -/
theorem step_axis {P : Nat → Prop} {axis count : Nat}
    (h : ∀ i < count + 1, P (axis + i)) : P axis ∧ ∀ i < count, P (axis + 1 + i) := by
  refine ⟨h 0 (Nat.succ_pos _), ?_⟩
  intro i hi
  rw [Nat.add_right_comm]
  exact h (i + 1) (Nat.succ_lt_succ hi)

section Scalar

variable [Scalar D] {read other : Nat → Except Error N}

/-- A sum to a point is found if the coordinates from `axis` on can be read. -/
theorem sumTo_found (contribution : Nat → N → N → D) (stop : D → Bool) {axis : Nat} {acc : D}
    {query : List N} (h : ∀ i < query.length, ∃ v, read (axis + i) = .ok v) :
    ∃ d, sumTo contribution read stop axis acc query = .ok d := by
  induction query generalizing axis acc with
  | nil => exact ⟨acc, rfl⟩
  | cons v query ih =>
    obtain ⟨⟨w, hw⟩, hrest⟩ := step_axis (P := fun axis => ∃ v, read axis = .ok v) h
    simp only [sumTo, hw, Outcome.ok_bind]
    split
    · exact ⟨_, rfl⟩
    · exact ih hrest

/-- A sum to a point depends on the coordinates from `axis` on, as many as the query has. -/
theorem sumTo_congr (contribution : Nat → N → N → D) (stop : D → Bool) {axis : Nat} {acc : D}
    {query : List N} (h : ∀ i < query.length, read (axis + i) = other (axis + i)) :
    sumTo contribution read stop axis acc query = sumTo contribution other stop axis acc query := by
  induction query generalizing axis acc with
  | nil => rfl
  | cons v query ih =>
    obtain ⟨hfirst, hrest⟩ := step_axis (P := fun axis => read axis = other axis) h
    have hlater (acc : D) : sumTo contribution read stop (axis + 1) acc query =
        sumTo contribution other stop (axis + 1) acc query := ih hrest
    simp only [sumTo, hfirst, hlater]

/-- A distance that is added up axis by axis reads the axes of the query and no others. -/
theorem readsAxes_of_sumTo {metric : Metric N D} {contribution : Nat → N → N → D}
    (stop : D → D → Bool) (h : ∀ query read worst, metric.distanceTo query read worst =
      sumTo contribution read (stop worst) 0 0 query) : metric.ReadsAxes where
  found query read worst hread := by
    rw [h]
    apply sumTo_found
    intro i hi
    rw [Nat.zero_add]
    exact hread i hi
  congr query read other worst hread := by
    rw [h, h]
    apply sumTo_congr
    intro i hi
    rw [Nat.zero_add]
    exact hread i hi

variable [LT N] [DecidableLT N]

theorem readsAxes_additive (contribution : Nat → N → N → D) (ofRadius : D → D) :
    (additive contribution ofRadius).ReadsAxes :=
  readsAxes_of_sumTo (fun worst d => worst < d) fun _ _ _ => rfl

variable [Widen N D]

theorem readsAxes_manhattan : (manhattan : Metric N D).ReadsAxes := readsAxes_additive _ _

theorem readsAxes_squaredEuclidean : (squaredEuclidean : Metric N D).ReadsAxes :=
  readsAxes_additive _ _

omit [LT N] [DecidableLT N] in
/-- What is written out for two and for three axes is what the loop adds up, unless something is
lost by adding a square to zero. -/
theorem squaredTo_eq (hzero : ∀ x : D, 0 + Scalar.square x = Scalar.square x)
    (read : Nat → Except Error N) (query : List N) : (squaredTo read query : Except Error D) =
      sumTo squaredDifference read (fun _ => false) 0 0 query := by
  have hfirst (v w : N) : (0 : D) + squaredDifference 0 v w = squaredDifference 0 v w := hzero _
  unfold squaredTo
  split
  · simp only [sumTo, hfirst, Bool.false_eq_true, if_false]
    rfl
  · simp only [sumTo, hfirst, Bool.false_eq_true, if_false]
    rfl
  · rfl

theorem readsAxes_simpleSquaredEuclidean : (simpleSquaredEuclidean : Metric N D).ReadsAxes where
  found query read worst hread := by
    show ∃ d, squaredTo read query = .ok d
    unfold squaredTo
    split
    · obtain ⟨w₀, h₀⟩ := hread 0 (by simp)
      obtain ⟨w₁, h₁⟩ := hread 1 (by simp)
      exact ⟨_, by rw [h₀, h₁]; rfl⟩
    · obtain ⟨w₀, h₀⟩ := hread 0 (by simp)
      obtain ⟨w₁, h₁⟩ := hread 1 (by simp)
      obtain ⟨w₂, h₂⟩ := hread 2 (by simp)
      exact ⟨_, by rw [h₀, h₁, h₂]; rfl⟩
    · apply sumTo_found
      intro i hi
      rw [Nat.zero_add]
      exact hread i hi
  congr query read other worst hread := by
    show squaredTo read query = squaredTo other query
    unfold squaredTo
    split
    · rw [hread 0 (by simp), hread 1 (by simp)]
    · rw [hread 0 (by simp), hread 1 (by simp), hread 2 (by simp)]
    · apply sumTo_congr
      intro i hi
      rw [Nat.zero_add]
      exact hread i hi

theorem readsAxes_circle (period : D) : (circle period : Metric N D).ReadsAxes :=
  readsAxes_of_sumTo (fun worst d => worst < d) fun _ _ _ => rfl

end Scalar

section Sphere

variable [Angular D] [Widen N D] {read other : Nat → Except Error N}

/-- The distance is found if every axis of the query can be read. -/
theorem Sphere.distanceTo_found (antipodal : Bool) (worst : D) {axis : Nat}
    {direct mirrored : D} {query : List N}
    (h : ∀ i < query.length, ∃ v, read (axis + i) = .ok v) :
    ∃ d, distanceTo antipodal read worst axis direct mirrored query = .ok d := by
  induction query generalizing axis direct mirrored with
  | nil => exact ⟨_, rfl⟩
  | cons v query ih =>
    obtain ⟨⟨w, hw⟩, hrest⟩ := step_axis (P := fun axis => ∃ v, read axis = .ok v) h
    simp only [distanceTo, hw, Outcome.ok_bind]
    split
    · exact ⟨_, rfl⟩
    · exact ih hrest

/-- Readings that agree on the axes of the query lead to the same distance. -/
theorem Sphere.distanceTo_congr (antipodal : Bool) (worst : D) {axis : Nat}
    {direct mirrored : D} {query : List N}
    (h : ∀ i < query.length, read (axis + i) = other (axis + i)) :
    distanceTo antipodal read worst axis direct mirrored query =
      distanceTo antipodal other worst axis direct mirrored query := by
  induction query generalizing axis direct mirrored with
  | nil => rfl
  | cons v query ih =>
    obtain ⟨hfirst, hrest⟩ := step_axis (P := fun axis => read axis = other axis) h
    have hlater (direct mirrored : D) :
        distanceTo antipodal read worst (axis + 1) direct mirrored query =
          distanceTo antipodal other worst (axis + 1) direct mirrored query := ih hrest
    simp only [distanceTo, hfirst, hlater]

theorem readsAxes_sphere (antipodal : Bool) : (sphere antipodal : Metric N D).ReadsAxes where
  found query read worst hread := by
    apply Sphere.distanceTo_found
    intro i hi
    rw [Nat.zero_add]
    exact hread i hi
  congr query read other worst hread := by
    apply Sphere.distanceTo_congr
    intro i hi
    rw [Nat.zero_add]
    exact hread i hi

end Sphere

end Proximity.Metric

import Mathlib
import Proximity.Proofs.Number.Exact
import Proximity.Proofs.Tree.Search

/-!
# Metrics that add up

Most metrics add up a contribution of every axis. In exact arithmetic a search may rely on such a
metric as soon as no contribution is negative and every gap bounds the contributions to its side:
sums are then compared axis by axis, and a sum that is given up is above the worst already.
-/

namespace Proximity.Metric

open Coordinate (IsFinite)

variable {N : Type}

section Sums

variable {contribution : Nat → N → N → EReal}

/-- A sum of contributions never falls below where it started. -/
theorem le_sum (hnonneg : ∀ axis v w, 0 ≤ contribution axis v w) (axis : Nat) (acc : EReal)
    (query point : List N) : acc ≤ sum contribution axis acc query point := by
  induction query generalizing axis acc point with
  | nil => exact le_rfl
  | cons v query ih =>
    cases point with
    | nil => exact le_rfl
    | cons w point => exact (le_add_of_nonneg_right (hnonneg axis v w)).trans (ih _ _ point)

/-- What giving up may make of a distance: nothing, or something else that is above the worst as
well and not above the distance. -/
def GivenUp (worst distance d : EReal) : Prop := d = distance ∨ worst < d ∧ d ≤ distance

/-- A sum to a point that is read axis by axis is the sum, unless it is given up. -/
theorem sumTo_givenUp (hnonneg : ∀ axis v w, 0 ≤ contribution axis v w) {stop : EReal → Bool}
    {worst : EReal} (hstop : ∀ d, stop d = true → worst < d) {read : Nat → Except Error N}
    {query point : List N} (hlength : query.length ≤ point.length) {axis : Nat}
    (hread : ∀ i v, point[i]? = some v → read (axis + i) = .ok v) (acc : EReal) :
    ∃ d, sumTo contribution read stop axis acc query = .ok d ∧
      GivenUp worst (sum contribution axis acc query point) d := by
  induction query generalizing point axis acc with
  | nil => exact ⟨acc, rfl, .inl rfl⟩
  | cons v query ih =>
    obtain ⟨w, point, rfl⟩ := List.exists_cons_of_length_pos (Nat.zero_lt_of_lt hlength)
    have hfirst : read axis = .ok w := hread 0 w rfl
    rw [sumTo, hfirst, Outcome.ok_bind]
    by_cases hgiven : stop (acc + contribution axis v w) = true
    · rw [if_pos hgiven]
      exact ⟨_, rfl, .inr ⟨hstop _ hgiven, le_sum hnonneg (axis + 1) _ query point⟩⟩
    · rw [if_neg hgiven]
      refine ih (Nat.le_of_succ_le_succ hlength) (fun i u hu => ?_) _
      rw [Nat.add_right_comm]
      exact hread (i + 1) u hu

/-- Sums are compared axis by axis: bounds of the contributions to the sides of a box add up to a
bound of the sum to a point in it. -/
theorem foldl_gaps_le {gap : Nat → N → Side N → EReal} {query point : List N}
    {sides : List (Side N)} (hsides : sides.length = query.length)
    (hpoint : point.length = query.length) {axis : Nat}
    (hgap : ∀ (i : Nat) v side w, sides[i]? = some side → point[i]? = some w →
      gap (axis + i) v side ≤ contribution (axis + i) v w) {low acc : EReal} (hle : low ≤ acc) :
    (((query.zip sides).zipIdx axis).map fun ((v, side), axis) => gap axis v side).foldl (· + ·) low
      ≤ sum contribution axis acc query point := by
  induction query generalizing point sides axis low acc with
  | nil => exact hle
  | cons v query ih =>
    obtain ⟨side, sides, rfl⟩ := List.exists_cons_of_length_eq_add_one hsides
    obtain ⟨w, point, rfl⟩ := List.exists_cons_of_length_eq_add_one hpoint
    refine ih (Nat.succ.inj hsides) (Nat.succ.inj hpoint) (fun i u side w hside hw => ?_)
      (add_le_add hle (hgap 0 v side w rfl rfl))
    rw [Nat.add_right_comm]
    exact hgap (i + 1) u side w hside hw

end Sums

/-- The difference of two real numbers without its sign. -/
theorem abs_sub_coe (x y : ℝ) : Scalar.abs ((x : EReal) - y) = (|x - y| : ℝ) := by
  rw [← EReal.coe_sub]
  show max ((x - y : ℝ) : EReal) (-((x - y : ℝ) : EReal)) = _
  rw [← EReal.coe_neg, ← EReal.coe_strictMono.monotone.map_max]
  rfl

/-- The square of a real number. -/
theorem square_coe (x : ℝ) : Scalar.square (x : EReal) = (x * x : ℝ) := (EReal.coe_mul x x).symm

section Ends

variable [LT N] [LE N] [DecidableLT N] [Widen N EReal] {real : N → ℝ} {side : Side N} {w : N}

/-- Where contributions grow with the difference, the nearer end of a side bounds those to all the
values between its ends. -/
theorem gapToEnd_le (hexact : Widen.Exact real) {contribution : Nat → N → N → EReal}
    {grow : ℝ → ℝ} (hgrow : MonotoneOn grow (Set.Ici 0)) (hzero : 0 ≤ grow 0)
    (hcontribution : ∀ axis v w, contribution axis v w = (grow |real v - real w| : ℝ))
    (hlow : side.low ≤ w) (hhigh : w ≤ side.high) (axis : Nat) (v : N) :
    gapToEnd contribution axis v side ≤ contribution axis v w := by
  have hlow := hexact.le_real hlow
  have hhigh := hexact.le_real hhigh
  have hle {x y : ℝ} (hx : 0 ≤ x) (hxy : x ≤ y) : (grow x : EReal) ≤ grow y :=
    EReal.coe_le_coe_iff.mpr (hgrow hx (hx.trans hxy) hxy)
  simp only [gapToEnd, hcontribution]
  split
  · next hbelow =>
    have hv := hexact.lt_real hbelow
    refine hle (abs_nonneg _) ?_
    rw [abs_of_nonpos (sub_nonpos.mpr hv), abs_of_nonpos (sub_nonpos.mpr (hv.trans hlow))]
    exact neg_le_neg (sub_le_sub_left hlow _)
  split
  · next habove =>
    have hv := hexact.lt_real habove
    refine hle (abs_nonneg _) ?_
    rw [abs_of_nonneg (sub_nonneg.mpr hv), abs_of_nonneg (sub_nonneg.mpr (hhigh.trans hv))]
    exact sub_le_sub_left hhigh _
  · exact (EReal.coe_nonneg.mpr hzero).trans (hle le_rfl (abs_nonneg _))

/-- In exact arithmetic the way to a side is no longer than the way to a coordinate on it. -/
theorem gap_manhattan_le (hexact : Widen.Exact real) (hlow : side.low ≤ w) (hhigh : w ≤ side.high)
    (axis : Nat) (v : N) : (manhattan : Metric N EReal).gap axis v side ≤
      (manhattan : Metric N EReal).contribution axis v w := by
  have hcontribution (axis : Nat) (v w : N) :
      (manhattan : Metric N EReal).contribution axis v w = (id |real v - real w| : ℝ) := by
    show Scalar.abs (widen v - widen w : EReal) = _
    rw [hexact.widen_eq, hexact.widen_eq, abs_sub_coe, id_eq]
  exact gapToEnd_le hexact (monotone_id.monotoneOn _) le_rfl hcontribution hlow hhigh axis v

/-- Squaring keeps the way to a side at most the way to a coordinate on it. -/
theorem gap_squaredEuclidean_le (hexact : Widen.Exact real) (hlow : side.low ≤ w)
    (hhigh : w ≤ side.high) (axis : Nat) (v : N) :
    (squaredEuclidean : Metric N EReal).gap axis v side ≤
      (squaredEuclidean : Metric N EReal).contribution axis v w := by
  have hgrow : MonotoneOn (fun x : ℝ => x * x) (Set.Ici 0) := fun _ hx _ _ hxy =>
    mul_self_le_mul_self hx hxy
  have hcontribution (axis : Nat) (v w : N) :
      (squaredEuclidean : Metric N EReal).contribution axis v w =
        (|real v - real w| * |real v - real w| : ℝ) := by
    show Scalar.square (widen v - widen w : EReal) = _
    rw [hexact.widen_eq, hexact.widen_eq, ← EReal.coe_sub, square_coe, abs_mul_abs_self]
  exact gapToEnd_le hexact hgrow (mul_self_nonneg 0) hcontribution hlow hhigh axis v

end Ends

variable [Coordinate N]

/-- Whether a metric adds up contributions of the axes, none of them negative and none to a side
below its gap, and gives up on a point only above the worst. -/
structure Additive (metric : Metric N EReal) : Prop where
  distance_eq (query point : List N) :
    metric.distance query point = sum metric.contribution 0 0 query point
  distanceTo_eq : ∃ stop : EReal → EReal → Bool, (∀ worst d, stop worst d = true → worst < d) ∧
    ∀ query read worst, metric.distanceTo query read worst =
      sumTo metric.contribution read (stop worst) 0 0 query
  nonneg (axis : Nat) (v w : N) : 0 ≤ metric.contribution axis v w
  gap_le (axis : Nat) (v : N) (side : Side N) (w : N) : IsFinite w → side.Holds w →
    metric.gap axis v side ≤ metric.contribution axis v w

namespace Additive

variable {metric : Metric N EReal}

/-- Distances add up contributions, none of which is below zero. -/
theorem distance_nonneg (h : metric.Additive) (query point : List N) :
    0 ≤ metric.distance query point := by
  rw [h.distance_eq]
  exact le_sum h.nonneg 0 0 query point

/-- A search may rely on a metric that adds up. -/
theorem bounds (h : metric.Additive) (query : List N) : metric.Bounds query where
  total_le box point hdims hfinite hcontains := by
    obtain ⟨hlength, hholds⟩ := (Box.contains_iff _ _).mp hcontains
    rw [h.distance_eq]
    refine foldl_gaps_le hdims (hlength.trans hdims) (fun i v side w hside hw => ?_) le_rfl
    rw [Nat.zero_add]
    exact h.gap_le i v side w (hfinite w (List.mem_of_getElem? hw)) (hholds i side w hside hw)
  distanceTo point read worst hlength _ hread := by
    obtain ⟨stop, hstop, heq⟩ := h.distanceTo_eq
    rw [heq, h.distance_eq]
    have hread (i : Nat) (v : N) (hv : point[i]? = some v) : read (0 + i) = .ok v := by
      rw [Nat.zero_add]
      exact hread i v hv
    obtain ⟨d, hd, hsum⟩ := sumTo_givenUp h.nonneg (hstop worst) hlength.ge hread 0
    exact ⟨d, hd, hsum.imp_right fun ⟨habove, hle⟩ => ⟨habove.trans_le hle, habove⟩⟩

end Additive

/-- The absolute differences of coordinates that stand for real numbers add up. -/
theorem additive_manhattan [LawfulCoordinate N] [Widen N EReal] {real : N → ℝ}
    (hreal : ∀ v : N, (widen v : EReal) = real v) (hmono : ∀ {v w : N}, v ≤ w → real v ≤ real w) :
    (manhattan : Metric N EReal).Additive where
  distance_eq _ _ := rfl
  distanceTo_eq := ⟨fun worst d => worst < d, fun _ _ => of_decide_eq_true, fun _ _ _ => rfl⟩
  nonneg _ v w := by
    show 0 ≤ Scalar.abs (widen v - widen w : EReal)
    rw [hreal, hreal, abs_sub_coe]
    exact EReal.coe_nonneg.mpr (abs_nonneg _)
  gap_le axis v side w _ hholds :=
    gap_manhattan_le ⟨hreal, hmono, fun h => hmono (Comparison.le h)⟩ hholds.1 hholds.2 axis v

end Proximity.Metric

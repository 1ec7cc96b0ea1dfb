import Proximity.Box

/-!
# Metrics

A metric adds up contributions of the axes. The search needs three things of it: a lower bound of
the contribution for a whole side of a box, the distance to one point, which may be given up as
soon as it is above what still counts, and the way a radius is compared with distances. The
definitions are written against `Scalar`, so they can be read in exact arithmetic.
-/

namespace Proximity

/-- A distance function that a search can use. -/
structure Metric (N D : Type) where
  /-- The contribution of an axis to the distance between two coordinates on it. -/
  contribution : (axis : Nat) → N → N → D
  /-- A lower bound of the contribution from a value to any coordinate in a side. -/
  gap : (axis : Nat) → N → Side N → D
  /-- The distance between two points. -/
  distance : List N → List N → D
  /-- The distance from a query to the point whose coordinates are read, or some value above
  `worst` if the distance is. It fails only when a coordinate that it needs cannot be read. -/
  distanceTo : (query : List N) → (read : Nat → Except Error N) → (worst : D) → Except Error D
  /-- The distance that a plain radius stands for. -/
  ofRadius : D → D

namespace Metric

variable {N D : Type} [Scalar D]

/-- The contributions of the axes from `axis` on, added to a sum from the left. -/
def sum (contribution : Nat → N → N → D) (axis : Nat) (acc : D) : List N → List N → D
  | v :: vs, w :: ws => sum contribution (axis + 1) (acc + contribution axis v w) vs ws
  | _, _ => acc

/-- As `sum`, to a point that is read axis by axis, given up when `stop` says so of a sum. -/
def sumTo (contribution : Nat → N → N → D) (read : Nat → Except Error N) (stop : D → Bool)
    (axis : Nat) (acc : D) : List N → Except Error D
  | [] => .ok acc
  | v :: vs => do
    let w ← read axis
    let acc := acc + contribution axis v w
    if stop acc then .ok acc else sumTo contribution read stop (axis + 1) acc vs

/-- The contribution to the nearer end of a side, nothing inside it. -/
def gapToEnd [LT N] [DecidableLT N] (contribution : Nat → N → N → D) (axis : Nat) (v : N)
    (side : Side N) : D :=
  if v < side.low then contribution axis v side.low
  else if side.high < v then contribution axis v side.high
  else 0

/-- The metric that adds up contributions and gives up on a point above the worst. -/
def additive [LT N] [DecidableLT N] (contribution : Nat → N → N → D) (ofRadius : D → D) :
    Metric N D where
  contribution
  gap := gapToEnd contribution
  distance := sum contribution 0 0
  distanceTo query read worst := sumTo contribution read (worst < ·) 0 0 query
  ofRadius

variable [Widen N D]

/-- The squared difference of two coordinates. -/
def squaredDifference (_axis : Nat) (v w : N) : D :=
  Scalar.square (widen v - widen w : D)

/-- The sum of the absolute differences. -/
def manhattan [LT N] [DecidableLT N] : Metric N D :=
  additive (fun _ v w => Scalar.abs (widen v - widen w : D)) id

/-- The sum of the squared differences. -/
def squaredEuclidean [LT N] [DecidableLT N] : Metric N D :=
  additive squaredDifference Scalar.square

/-- The sum of the squared differences to a point, written out for two and for three axes. -/
def squaredTo (read : Nat → Except Error N) : List N → Except Error D
  | [v₀, v₁] => do
    let w₀ ← read 0
    let w₁ ← read 1
    return squaredDifference 0 v₀ w₀ + squaredDifference 1 v₁ w₁
  | [v₀, v₁, v₂] => do
    let w₀ ← read 0
    let w₁ ← read 1
    let w₂ ← read 2
    return squaredDifference 0 v₀ w₀ + squaredDifference 1 v₁ w₁ + squaredDifference 2 v₂ w₂
  | query => sumTo squaredDifference read (fun _ => false) 0 0 query

/-- The sum of the squared differences, never given up in the middle of a point. -/
def simpleSquaredEuclidean [LT N] [DecidableLT N] : Metric N D :=
  { (squaredEuclidean : Metric N D) with
    distanceTo := fun query read _ => squaredTo read query }

namespace Circle

/-- The shorter way around a circle between two angles. -/
def wrapped (period v w : D) : D :=
  let d := Scalar.rem (Scalar.abs (v - w)) period
  if Scalar.half period < d then period - d else d

/-- The squared shorter way around the circle. -/
def contribution (period : D) (_axis : Nat) (v w : N) : D :=
  Scalar.square (wrapped period (widen v) (widen w))

/-- A turned copy of an angle may lie in an arc that the angle itself does not; outside the arc
one of its ends is nearest. -/
def gap (period : D) (axis : Nat) (v : N) (side : Side N) : D :=
  let width := (widen side.high - widen side.low : D)
  let offset := Scalar.remUp (widen v - widen side.low : D) period
  if period ≤ width ∨ offset ≤ width then 0
  else Scalar.least (contribution period axis v side.low) (contribution period axis v side.high)

end Circle

/-- The squared way around a circle of the given period, on every axis. -/
def circle [LT N] [DecidableLT N] (period : D) : Metric N D :=
  { (additive (Circle.contribution period) Scalar.square : Metric N D) with
    gap := Circle.gap period }

namespace Sphere

/-- The squared difference, to the nearer of a coordinate and its antipode if they are one. -/
def contribution (antipodal : Bool) (_axis : Nat) (v w : N) : D :=
  let direct := Scalar.square (widen v - widen w : D)
  if antipodal then Scalar.least direct (Scalar.square (widen v + widen w : D)) else direct

/-- How far a value is from an interval. -/
def reach (v low high : D) : D :=
  if v < low then low - v else if high < v then v - high else 0

/-- The squared way to a side, or to its antipode if they are one. -/
def gap (antipodal : Bool) (_axis : Nat) (v : N) (side : Side N) : D :=
  let direct := reach (widen v) (widen side.low) (widen side.high)
  if antipodal then
    Scalar.square (Scalar.least direct (reach (widen v) (-widen side.high) (-widen side.low)))
  else Scalar.square direct

/-- The sums of the squared differences to a point and to its antipode. -/
def sums (direct mirrored : D) : List N → List N → D × D
  | v :: vs, w :: ws =>
    sums (direct + Scalar.square (widen v - widen w : D))
      (mirrored + Scalar.square (widen v + widen w : D)) vs ws
  | _, _ => (direct, mirrored)

/-- The squared chord, the shorter of two if antipodes are one. -/
def distance (antipodal : Bool) (p q : List N) : D :=
  let (direct, mirrored) := sums 0 0 p q
  if antipodal then Scalar.least direct mirrored else direct

/-- As `distance`, given up once every sum that counts is above the worst. -/
def distanceTo (antipodal : Bool) (read : Nat → Except Error N) (worst : D) (axis : Nat)
    (direct mirrored : D) : List N → Except Error D
  | [] => .ok (if antipodal then Scalar.least direct mirrored else direct)
  | v :: vs => do
    let w ← read axis
    let direct := direct + Scalar.square (widen v - widen w : D)
    let mirrored := mirrored + Scalar.square (widen v + widen w : D)
    if worst < direct ∧ (antipodal → worst < mirrored) then
      .ok (if antipodal then Scalar.least direct mirrored else direct)
    else distanceTo antipodal read worst (axis + 1) direct mirrored vs

end Sphere

/-- The squared chord between unit vectors. A radius is an angle in radians. With `antipodal` a
vector and its negative are one point. -/
def sphere {D : Type} [Angular D] [Widen N D] (antipodal : Bool) : Metric N D where
  contribution := Sphere.contribution antipodal
  gap := Sphere.gap antipodal
  distance := Sphere.distance antipodal
  distanceTo query read worst := Sphere.distanceTo antipodal read worst 0 0 0 query
  ofRadius radius := Scalar.square (Scalar.double (Angular.sin (Scalar.half radius)))

/-- The angle between unit vectors with the given squared chord. -/
def angle {D : Type} [Angular D] (chord : D) : D :=
  let half := Scalar.half (Angular.sqrt (Scalar.greatest chord 0))
  Scalar.double (Angular.asin (Scalar.least half 1))

end Metric

end Proximity

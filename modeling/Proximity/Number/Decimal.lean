import Proximity.Number.Binary64

/-!
# Decimal text of binary values

A finite value is written with the fewest digits that read back to it: the digits of the point
nearest to it on the coarsest power-of-ten grid that has a point inside the interval of numbers
rounding to the value. The text is always positional, never with an exponent.
-/

namespace Proximity.Decimal

/-- The numbers that round to one value: a point with the ends around it, over one denominator. -/
structure Rounding where
  low : Nat
  value : Nat
  high : Nat
  den : Nat
  /-- Whether the ends themselves round to the value. -/
  closed : Bool

/-- The numbers that round to a finite value of this size. -/
def Rounding.of (x : Binary64) : Rounding :=
  let m := x.significand
  let step := if x.fractionField = 0 && 1 < x.exponentField then 1 else 2
  let up := 1 <<< (x.scale - 1076)
  let down := 1 <<< (1076 - x.scale)
  ⟨(4 * m - step) * up, 4 * m * up, (4 * m + 2) * up, down, m % 2 = 0⟩

/-- Whether `n` over the denominator rounds to the value. -/
def Rounding.has (r : Rounding) (n : Nat) : Bool :=
  if r.closed then r.low ≤ n && n ≤ r.high else r.low < n && n < r.high

/-- The multiple of `10 ^ exponent` that rounds to the value, the nearer one if two do; of two
equally near the upper one. -/
def Rounding.onGrid (r : Rounding) (exponent : Int) : Option Nat :=
  let up := Nat.pow 10 exponent.toNat
  let down := Nat.pow 10 (-exponent).toNat
  let r := { r with low := r.low * down, value := r.value * down, high := r.high * down }
  let unit := r.den * up
  let below := r.value / unit
  match r.has (below * unit), r.has ((below + 1) * unit) with
  | true, true =>
    some (if 2 * (r.value - below * unit) < unit then below else below + 1)
  | true, false => some below
  | false, true => some (below + 1)
  | false, false => none

/-- Exponents of the grids to try, the coarsest first. They reach from above the largest finite
value to below the smallest. -/
def grids : List Int := (List.range 660).map fun (i : Nat) => (310 : Int) - i

/-- The digits and the exponent of the shortest decimal of a finite value above zero. -/
def shortest (x : Binary64) : Nat × Int :=
  let r := Rounding.of x
  (grids.findSome? fun e => (r.onGrid e).map (·, e)).getD (0, 0)

/-- `digits * 10 ^ exponent` without an exponent. -/
def positional (digits : Nat) (exponent : Int) : String :=
  let text := String.ofList (Nat.toDigits 10 digits)
  if 0 ≤ exponent then text ++ "".pushn '0' exponent.toNat
  else
    let places := (-exponent).toNat
    let padded := "".pushn '0' (places + 1 - text.length) ++ text
    let whole := padded.length - places
    (padded.take whole).toString ++ "." ++ (padded.drop whole).toString

/-- The text of a value. -/
def text (x : Binary64) : String :=
  if x.isNaN then "NaN"
  else
    let size :=
      if x.magnitude = Binary64.infinityBits then "inf"
      else if x.magnitude = 0 then "0"
      else
        let (digits, exponent) := shortest x
        positional digits exponent
    if x.isNegative then "-" ++ size else size

end Proximity.Decimal

namespace Proximity

instance : ToString Binary64 := ⟨Decimal.text⟩

end Proximity

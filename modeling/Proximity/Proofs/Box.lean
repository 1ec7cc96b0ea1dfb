import Mathlib
import Proximity.Proofs.Coordinate.Laws
import Proximity.Source

/-!
# Lengths of sides and tight boxes

The length of a side is positive exactly when its low end is below its high end, although it is a
rounded difference. A tight side starts inverted and is stretched over some values; it holds every
ordered one of them, and its ends are values or the far ends of the range.
-/

namespace Proximity

namespace Side

variable {N : Type} [Coordinate N]

/-- Whether neither end of a side is beyond the opposite end of the range. -/
def InReach (side : Side N) : Prop :=
  side.low ≤ Coordinate.highest ∧ Coordinate.lowest ≤ side.high

/-- Whether a value lies between the ends of a side. -/
def Holds (side : Side N) (v : N) : Prop := side.low ≤ v ∧ v ≤ side.high

/-- The executed test is the containment that proofs speak of. -/
theorem contains_iff (side : Side N) (v : N) : side.contains v = true ↔ side.Holds v := by
  simp only [contains, Holds, Bool.and_eq_true, decide_eq_true_eq]

/-- The tight side around some values. -/
def around (values : List N) : Side N := values.foldl stretch inverted

variable [LawfulCoordinate N]

/-- The length of a side has the sign of the order of its ends. -/
theorem extent_hasSign {side : Side N} (h : side.InReach) :
    side.extent.HasSign ((Coordinate.toBinary64 side.high).signed -
      (Coordinate.toBinary64 side.low).signed) := by
  have hlow := Comparison.trans (LawfulCoordinate.toBinary64_le h.1)
    LawfulCoordinate.toBinary64_highest
  have hhigh := Comparison.trans LawfulCoordinate.toBinary64_lowest
    (LawfulCoordinate.toBinary64_le h.2)
  exact Binary64.hasSign_sub ((Binary64.le_iff _ _).mp hhigh).2.1
    ((Binary64.le_iff _ _).mp hlow).1 (Binary64.magnitude_lt_of_ge hhigh)
    (Binary64.magnitude_lt_of_le hlow)

/-- A side has a positive length exactly when its ends differ the right way around. -/
theorem extent_pos_iff {side : Side N} (h : side.InReach) :
    0 < side.extent ↔ side.low < side.high := by
  obtain ⟨hn, hsign⟩ := extent_hasSign h
  have hzero : (0 : Binary64).isNaN = false ∧ (0 : Binary64).signed = 0 := by decide
  have hpos : 0 < side.extent ↔ 0 < side.extent.signed := by
    rw [Binary64.lt_iff_signed, hzero.2]
    exact ⟨fun hlt => hlt.2.2, fun hlt => ⟨hzero.1, hn, hlt⟩⟩
  rw [hpos, ← Int.sign_eq_one_iff_pos, hsign, Int.sign_eq_one_iff_pos]
  constructor
  · intro hlt
    by_contra hge
    have hle := LawfulCoordinate.toBinary64_le
      (Comparison.le_of_not_lt (Comparison.left h.1) (Comparison.right h.2) hge)
    have hsigned := ((Binary64.le_iff_signed _ _).mp hle).2.2
    omega
  · intro hlt
    have hsigned := ((Binary64.lt_iff_signed _ _).mp (LawfulCoordinate.toBinary64_lt hlt)).2.2
    omega

/-- A side in reach has an ordered extent, which can be compared with others. -/
theorem extent_self {side : Side N} (h : side.InReach) : side.extent ≤ side.extent := by
  obtain ⟨hn, -⟩ := extent_hasSign h
  exact (Binary64.le_iff_signed _ _).mpr ⟨hn, hn, Int.le_refl _⟩

/-- Sides with numerically equal ends have lengths that no comparison tells apart. -/
theorem extent_alike {side other : Side N} (hlow : side.low ≤ other.low)
    (hlow' : other.low ≤ side.low) (hhigh : side.high ≤ other.high)
    (hhigh' : other.high ≤ side.high) : side.extent.Alike other.extent := by
  have hmeasure {v w : N} (h : v ≤ w) :=
    ((Binary64.le_iff_signed _ _).mp (LawfulCoordinate.toBinary64_le h)).2.2
  exact Binary64.alike_sub (Int.le_antisymm (hmeasure hhigh) (hmeasure hhigh'))
    (Int.le_antisymm (hmeasure hlow) (hmeasure hlow'))

/-- Stretching over values keeps the lower end ordered and ends with none of the values below it. -/
private theorem foldl_stretch_low {start : Side N} (h : start.low ≤ start.low)
    (values : List N) :
    (values.foldl stretch start).low ≤ start.low ∧
      ∀ v ∈ values, ¬ v < (values.foldl stretch start).low := by
  induction values generalizing start with
  | nil => exact ⟨h, fun _ hv => absurd hv List.not_mem_nil⟩
  | cons w values ih =>
    have hstep : (start.stretch w).low ≤ start.low ∧ ¬ w < (start.stretch w).low := by
      simp only [stretch]
      split
      · next hlt => exact ⟨Comparison.le hlt, Comparison.irrefl⟩
      · next hlt => exact ⟨h, hlt⟩
    obtain ⟨hle, hnot⟩ := ih (Comparison.left hstep.1)
    refine ⟨Comparison.trans hle hstep.1, ?_⟩
    intro v hv hlt
    rcases List.mem_cons.mp hv with rfl | hv
    · exact hstep.2 (Comparison.lt_of_lt_of_le hlt hle)
    · exact hnot v hv hlt

/-- Stretching over values keeps the upper end ordered and ends with none of the values above it. -/
private theorem foldl_stretch_high {start : Side N} (h : start.high ≤ start.high)
    (values : List N) :
    start.high ≤ (values.foldl stretch start).high ∧
      ∀ v ∈ values, ¬ (values.foldl stretch start).high < v := by
  induction values generalizing start with
  | nil => exact ⟨h, fun _ hv => absurd hv List.not_mem_nil⟩
  | cons w values ih =>
    have hstep : start.high ≤ (start.stretch w).high ∧ ¬ (start.stretch w).high < w := by
      simp only [stretch]
      split
      · next hlt => exact ⟨Comparison.le hlt, Comparison.irrefl⟩
      · next hlt => exact ⟨h, hlt⟩
    obtain ⟨hle, hnot⟩ := ih (Comparison.right hstep.1)
    refine ⟨Comparison.trans hstep.1 hle, ?_⟩
    intro v hv hlt
    rcases List.mem_cons.mp hv with rfl | hv
    · exact hstep.2 (Comparison.lt_of_le_of_lt hle hlt)
    · exact hnot v hv hlt

omit [LawfulCoordinate N] in
/-- Each end of a stretched side is where it started or at one of the values. -/
private theorem foldl_stretch_ends (start : Side N) (values : List N) :
    ((values.foldl stretch start).low = start.low ∨ (values.foldl stretch start).low ∈ values) ∧
      ((values.foldl stretch start).high = start.high ∨
        (values.foldl stretch start).high ∈ values) := by
  induction values generalizing start with
  | nil => exact ⟨.inl rfl, .inl rfl⟩
  | cons w values ih =>
    obtain ⟨hlow, hhigh⟩ := ih (start.stretch w)
    constructor
    · rcases hlow with hlow | hlow
      · rw [List.foldl_cons, hlow]
        show (if w < start.low then w else start.low) = _ ∨
          (if w < start.low then w else start.low) ∈ _
        split
        · exact .inr List.mem_cons_self
        · exact .inl rfl
      · exact .inr (List.mem_cons_of_mem _ hlow)
    · rcases hhigh with hhigh | hhigh
      · rw [List.foldl_cons, hhigh]
        show (if start.high < w then w else start.high) = _ ∨
          (if start.high < w then w else start.high) ∈ _
        split
        · exact .inr List.mem_cons_self
        · exact .inl rfl
      · exact .inr (List.mem_cons_of_mem _ hhigh)

private theorem inverted_low : (inverted : Side N).low ≤ (inverted : Side N).low :=
  Comparison.right LawfulCoordinate.lowest_le_highest

private theorem inverted_high : (inverted : Side N).high ≤ (inverted : Side N).high :=
  Comparison.left LawfulCoordinate.lowest_le_highest

/-- A side around any values, even none, has ends that can be compared. -/
theorem around_inReach (values : List N) : (around values).InReach :=
  ⟨(foldl_stretch_low inverted_low values).1, (foldl_stretch_high inverted_high values).1⟩

/-- No value lies below the side around them all. -/
theorem not_lt_around {values : List N} {v : N} (h : v ∈ values) : ¬ v < (around values).low :=
  (foldl_stretch_low inverted_low values).2 v h

/-- No value lies above the side around them all. -/
theorem not_around_lt {values : List N} {v : N} (h : v ∈ values) : ¬ (around values).high < v :=
  (foldl_stretch_high inverted_high values).2 v h

omit [LawfulCoordinate N] in
/-- The lower end is at one of the values, if any of them is ordered. -/
theorem around_low (values : List N) :
    (around values).low = Coordinate.highest ∨ (around values).low ∈ values :=
  (foldl_stretch_ends inverted values).1

omit [LawfulCoordinate N] in
/-- The upper end is at one of the values, if any of them is ordered. -/
theorem around_high (values : List N) :
    (around values).high = Coordinate.lowest ∨ (around values).high ∈ values :=
  (foldl_stretch_ends inverted values).2

/-- A tight side holds every ordered value that it is stretched over. -/
theorem around_holds {values : List N} {v : N} (h : v ∈ values) (hv : v ≤ v) :
    (around values).Holds v := by
  have hreach := around_inReach values
  exact ⟨Comparison.le_of_not_lt hv (Comparison.left hreach.1) (not_lt_around h),
    Comparison.le_of_not_lt (Comparison.right hreach.2) hv (not_around_lt h)⟩

/-- A tight side reaches at least as far as one around values of which each ordered one is
numerically equal to one of its own. -/
theorem around_le {values others : List N}
    (h : ∀ v ∈ others, v ≤ v → ∃ w ∈ values, w ≤ v ∧ v ≤ w) :
    (around values).low ≤ (around others).low ∧ (around others).high ≤ (around values).high := by
  have hreach := around_inReach values
  have hreach' := around_inReach others
  constructor
  · rcases around_low others with hlow | hlow
    · exact hlow ▸ hreach.1
    · obtain ⟨w, hw, hle, -⟩ := h _ hlow (Comparison.left hreach'.1)
      exact Comparison.trans (around_holds hw (Comparison.left hle)).1 hle
  · rcases around_high others with hhigh | hhigh
    · exact hhigh ▸ hreach.2
    · obtain ⟨w, hw, -, hle⟩ := h _ hhigh (Comparison.right hreach'.2)
      exact Comparison.trans hle (around_holds hw (Comparison.right hle)).2

end Side

namespace Box

variable {N : Type} [Coordinate N]

/-- A test of two lists side by side passes if it does at every place that both have. -/
private theorem all_zipWith_iff {α β : Type} {test : α → β → Bool} (xs : List α) (ys : List β) :
    (List.zipWith test xs ys).all id = true ↔
      ∀ (i : Nat) x y, xs[i]? = some x → ys[i]? = some y → test x y = true := by
  induction xs generalizing ys with
  | nil => simp
  | cons x xs ih =>
    cases ys with
    | nil => simp
    | cons y ys =>
      rw [List.zipWith_cons_cons, List.all_cons, Bool.and_eq_true, ih, id]
      constructor
      · rintro ⟨hfirst, hrest⟩ i x' y' hx hy
        cases i with
        | zero => exact Option.some.inj hx ▸ Option.some.inj hy ▸ hfirst
        | succ i => exact hrest i x' y' hx hy
      · intro hall
        exact ⟨hall 0 x y rfl rfl, fun i x y => hall (i + 1) x y⟩

/-- A box contains the points of as many axes that every side holds its coordinate of. -/
theorem contains_iff (box : Box N) (point : List N) :
    box.contains point = true ↔ point.length = box.dims ∧
      ∀ (axis : Nat) (side : Side N) (v : N), box.sides[axis]? = some side →
        point[axis]? = some v → side.Holds v := by
  rw [contains, Bool.and_eq_true, decide_eq_true_eq, all_zipWith_iff]
  simp only [Side.contains_iff]

/-- A box covers the boxes of as many axes that no side reaches beyond its own. -/
theorem covers_iff (box other : Box N) :
    box.covers other = true ↔ box.dims = other.dims ∧
      ∀ (axis : Nat) (side inner : Side N), box.sides[axis]? = some side →
        other.sides[axis]? = some inner → side.low ≤ inner.low ∧ inner.high ≤ side.high := by
  rw [covers, Bool.and_eq_true, decide_eq_true_eq, all_zipWith_iff]
  simp only [Side.covers, Bool.and_eq_true, decide_eq_true_eq]

/-- The longer of the longest side so far and the next one. -/
def longer (best : Nat × Binary64) (side : Side N × Nat) : Nat × Binary64 :=
  if best.2 < side.1.extent then (side.2, side.1.extent) else best

theorem widest_eq (box : Box N) :
    box.widest = (box.sides.zipIdx.foldl longer (0, Distance.negInfinity)).1 := rfl

/-- The choice among some sides is at least as long as each of them and as the one it began with,
and is one of these. -/
private theorem foldl_longer {best : Nat × Binary64} (h : best.2 ≤ best.2)
    (sides : List (Side N × Nat)) :
    best.2 ≤ (sides.foldl longer best).2 ∧
      (∀ side ∈ sides, ¬ (sides.foldl longer best).2 < side.1.extent) ∧
      (sides.foldl longer best = best ∨
        ∃ side ∈ sides, sides.foldl longer best = (side.2, side.1.extent)) := by
  induction sides generalizing best with
  | nil => exact ⟨h, fun _ hs => absurd hs List.not_mem_nil, .inl rfl⟩
  | cons first sides ih =>
    have hstep : best.2 ≤ (longer best first).2 ∧ ¬ (longer best first).2 < first.1.extent ∧
        (longer best first = best ∨ longer best first = (first.2, first.1.extent)) := by
      unfold longer
      split
      · next hlt => exact ⟨Comparison.le hlt, Comparison.irrefl, .inr rfl⟩
      · next hlt => exact ⟨h, hlt, .inl rfl⟩
    obtain ⟨hle, hnot, hfrom⟩ := ih (Comparison.right hstep.1)
    refine ⟨Comparison.trans hstep.1 hle, ?_, ?_⟩
    · intro side hs hlt
      rcases List.mem_cons.mp hs with rfl | hs
      · exact hstep.2.1 (Comparison.lt_of_le_of_lt hle hlt)
      · exact hnot side hs hlt
    · rw [List.foldl_cons]
      rcases hfrom with hfrom | ⟨side, hs, hfrom⟩
      · rw [hfrom]
        rcases hstep.2.2 with hfirst | hfirst
        · exact .inl hfirst
        · exact .inr ⟨first, List.mem_cons_self, hfirst⟩
      · exact .inr ⟨side, List.mem_cons_of_mem _ hs, hfrom⟩

/-- Sides of alike extents lead to the same axis, since only comparisons decide the choice. -/
private theorem foldl_longer_alike {sides others : List (Side N)}
    (h : List.Forall₂ (fun side other => side.extent.Alike other.extent) sides others)
    (start : Nat) {best other : Nat × Binary64} (haxis : best.1 = other.1)
    (hlength : best.2.Alike other.2) :
    ((sides.zipIdx start).foldl longer best).1 = ((others.zipIdx start).foldl longer other).1 := by
  induction h generalizing start best other with
  | nil => exact haxis
  | @cons side side' sides others hfirst _ ih =>
    rw [List.zipIdx_cons, List.zipIdx_cons, List.foldl_cons, List.foldl_cons]
    have hlt : best.2 < side.extent ↔ other.2 < side'.extent := hlength.lt_iff hfirst
    by_cases hlonger : best.2 < side.extent
    · rw [longer, longer, if_pos hlonger, if_pos (hlt.mp hlonger)]
      exact ih (start + 1) rfl hfirst
    · rw [longer, longer, if_neg hlonger, if_neg (mt hlt.mpr hlonger)]
      exact ih (start + 1) haxis hlength

/-- Boxes with lengths that no comparison tells apart have the longest side on the same axis. -/
theorem widest_congr {box other : Box N}
    (h : List.Forall₂ (fun side other => side.extent.Alike other.extent) box.sides other.sides) :
    box.widest = other.widest :=
  foldl_longer_alike h 0 rfl ⟨rfl, rfl⟩

/-- If any side of a tight box has a length then the widest one has. -/
theorem widest_spread [LawfulCoordinate N] {box : Box N}
    (hreach : ∀ side ∈ box.sides, side.InReach) {side : Side N} (hmem : side ∈ box.sides)
    (hlt : side.low < side.high) :
    ∃ widest, box.sides[box.widest]? = some widest ∧ widest.low < widest.high := by
  have hpos := (Side.extent_pos_iff (hreach side hmem)).mpr hlt
  have hstart : ((0, Distance.negInfinity) : Nat × Binary64).2 ≤
      ((0, Distance.negInfinity) : Nat × Binary64).2 := by decide
  have hzero : (Distance.negInfinity : Binary64) < 0 := by decide
  obtain ⟨-, hnot, hfrom⟩ := foldl_longer hstart box.sides.zipIdx
  obtain ⟨i, hi⟩ := List.getElem?_of_mem hmem
  have hnot := hnot (side, i) (List.mem_zipIdx_iff_getElem?.mpr hi)
  rw [widest_eq]
  rcases hfrom with hfrom | ⟨⟨widest, axis⟩, hw, hfrom⟩
  · rw [hfrom] at hnot
    exact absurd (Comparison.lt_trans hzero hpos) hnot
  · rw [hfrom] at hnot ⊢
    have hw := List.mem_zipIdx_iff_getElem?.mp hw
    have hwreach := hreach widest (List.mem_of_getElem? hw)
    have hle := Comparison.le_of_not_lt (Side.extent_self hwreach) (Comparison.right
      (Comparison.le hpos)) hnot
    exact ⟨widest, hw, (Side.extent_pos_iff hwreach).mp (Comparison.lt_of_lt_of_le hpos hle)⟩

end Box

end Proximity

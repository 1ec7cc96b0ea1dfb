import Mathlib
import Proximity.Proofs.Number.Sums
import Proximity.Proofs.Tree.Split

/-!
# Points alike

Building a tree compares coordinates, looks at the lengths of sides and adds their ends, and no
step of it tells values apart that are numerically equal. What it sees of a point is its profile,
the units of its coordinates. Lists of finite points are alike if they have the same profiles up to
order; then so are the columns read of them and the boxes around them.
-/

namespace Proximity

variable {N : Type} [Coordinate N]

namespace Coordinate

/-- The units of a value in the arithmetic of lengths. -/
def measure (v : N) : Int := (toBinary64 v).signed

variable [LawfulCoordinate N] {v w low low' high high' : N}

/-- The measure of coordinates keeps their order. -/
theorem measure_le (h : v ≤ w) : measure v ≤ measure w :=
  ((Binary64.le_iff_signed _ _).mp (LawfulCoordinate.toBinary64_le h)).2.2

/-- The measure of coordinates keeps their strict order. -/
theorem measure_lt (h : v < w) : measure v < measure w :=
  ((Binary64.lt_iff_signed _ _).mp (LawfulCoordinate.toBinary64_lt h)).2.2

/-- Ordered values compare as their measures do. -/
theorem lt_iff_measure (hv : v ≤ v) (hw : w ≤ w) : v < w ↔ measure v < measure w := by
  refine ⟨measure_lt, fun hlt => ?_⟩
  by_contra hge
  have hle := measure_le (Comparison.le_of_not_lt hv hw hge)
  omega

/-- Ordered coordinates of one measure are numerically equal. -/
theorem le_of_measure (hv : v ≤ v) (hw : w ≤ w) (h : measure v = measure w) : v ≤ w := by
  refine Comparison.le_of_not_lt hw hv fun hlt => ?_
  have hmeasure := measure_lt hlt
  omega

/-- The middle of a side that has some length depends on the measures of its ends alone, but for
the low end itself where the middle has no place. -/
theorem middle_congr (hlow : measure low = measure low') (hhigh : measure high = measure high')
    (h : low < high) : middle low high = middle low' high' ∨
      middle low high = low ∧ middle low' high' = low' := by
  have hsum : toBinary64 low + toBinary64 high = toBinary64 low' + toBinary64 high' :=
    Binary64.add_congr hlow hhigh (measure_lt h).ne
  unfold middle
  rw [hsum]
  cases (ofBinary64? (Scalar.half (toBinary64 low' + toBinary64 high')) : Option N) with
  | none => exact .inr ⟨rfl, rfl⟩
  | some m => exact .inl rfl

end Coordinate

/-- Whether the ends of two sides are numerically equal. -/
structure Side.Alike (side other : Side N) : Prop where
  low_le : side.low ≤ other.low
  le_low : other.low ≤ side.low
  high_le : side.high ≤ other.high
  le_high : other.high ≤ side.high

/-- Whether the sides of two boxes are alike. -/
def Box.Alike (box other : Box N) : Prop := List.Forall₂ Side.Alike box.sides other.sides

namespace Side

variable [LawfulCoordinate N] {side other : Side N}

/-- Alike sides are both spread or both not. -/
theorem Alike.spread_iff (h : side.Alike other) :
    side.low < side.high ↔ other.low < other.high :=
  ⟨fun hlt => Comparison.lt_of_lt_of_le (Comparison.lt_of_le_of_lt h.le_low hlt) h.high_le,
    fun hlt => Comparison.lt_of_lt_of_le (Comparison.lt_of_le_of_lt h.low_le hlt) h.le_high⟩

theorem Alike.measure_low (h : side.Alike other) :
    Coordinate.measure side.low = Coordinate.measure other.low :=
  Int.le_antisymm (Coordinate.measure_le h.low_le) (Coordinate.measure_le h.le_low)

theorem Alike.measure_high (h : side.Alike other) :
    Coordinate.measure side.high = Coordinate.measure other.high :=
  Int.le_antisymm (Coordinate.measure_le h.high_le) (Coordinate.measure_le h.le_high)

/-- Tight sides around ordered values of the same measures are alike. -/
theorem around_alike {values others : List N} (hvalues : ∀ v ∈ values, v ≤ v)
    (hothers : ∀ v ∈ others, v ≤ v)
    (h : (values.map Coordinate.measure).Perm (others.map Coordinate.measure)) :
    (around values).Alike (around others) := by
  have hmatch {values others : List N} (hvalues : ∀ v ∈ values, v ≤ v)
      (h : (values.map Coordinate.measure).Perm (others.map Coordinate.measure)) (v : N)
      (hv : v ∈ others) (hself : v ≤ v) : ∃ w ∈ values, w ≤ v ∧ v ≤ w := by
    obtain ⟨w, hw, hmeasure⟩ := List.mem_map.mp (h.mem_iff.mpr (List.mem_map_of_mem hv))
    exact ⟨w, hw, Coordinate.le_of_measure (hvalues w hw) hself hmeasure,
      Coordinate.le_of_measure hself (hvalues w hw) hmeasure.symm⟩
  obtain ⟨hlow, hhigh⟩ := around_le (hmatch hvalues h)
  obtain ⟨hlow', hhigh'⟩ := around_le (hmatch hothers h.symm)
  exact ⟨hlow, hlow', hhigh', hhigh⟩

end Side

/-- Boxes alike have their longest side on the same axis. -/
theorem Box.Alike.widest_eq [LawfulCoordinate N] {box other : Box N} (h : box.Alike other) :
    box.widest = other.widest :=
  widest_congr (h.imp fun _ _ hside =>
    Side.extent_alike hside.low_le hside.le_low hside.high_le hside.le_high)

namespace Source

/-- What building sees of a point. -/
def profile (source : Source N) (index : Nat) : List Int :=
  (source.coordinates index).map Coordinate.measure

/-- Whether finite points have the profiles of others. -/
structure Alike (source : Source N) (points others : List Nat) : Prop where
  finite : ∀ index ∈ points, source.FiniteAt index
  finite' : ∀ index ∈ others, source.FiniteAt index
  perm : (points.map source.profile).Perm (others.map source.profile)

variable {source : Source N} {points others : List Nat} {axis : Nat}

/-- The profile of a point lists the measures of its coordinates, axis by axis. -/
theorem getElem?_profile {index : Nat} (h : source.Complete index) (haxis : axis < source.dims) :
    (source.profile index)[axis]? = (source.coordinate? index axis).map Coordinate.measure := by
  rw [profile, List.getElem?_map, getElem?_coordinates h haxis]

/-- The measures of a column are in the profiles of its points. -/
theorem Reads.measures {values : List N} (h : source.Reads axis points values)
    (hcomplete : ∀ index ∈ points, source.Complete index) (haxis : axis < source.dims) :
    (values.map Coordinate.measure).map some = (points.map source.profile).map (·[axis]?) := by
  induction h with
  | nil => rfl
  | cons hfirst _ ih =>
    obtain ⟨hone, hrest⟩ := List.forall_mem_cons.mp hcomplete
    simp only [List.map_cons, getElem?_profile hone haxis, hfirst, Option.map_some, ih hrest]

namespace Alike

/-- Lists of the same finite points are alike. -/
theorem of_perm (hfinite : ∀ index ∈ points, source.FiniteAt index) (h : points.Perm others) :
    source.Alike points others :=
  ⟨hfinite, fun index hindex => hfinite index (h.mem_iff.mpr hindex), h.map _⟩

/-- Alike lists have equally many points. -/
theorem length_eq (h : source.Alike points others) : points.length = others.length := by
  simpa using h.perm.length_eq

/-- The order of points does not matter to what they are alike to. -/
theorem rearrange {points' others' : List Nat} (h : source.Alike points others)
    (hpoints : points'.Perm points) (hothers : others'.Perm others) :
    source.Alike points' others' where
  finite index hindex := h.finite index (hpoints.mem_iff.mp hindex)
  finite' index hindex := h.finite' index (hothers.mem_iff.mp hindex)
  perm := ((hpoints.map _).trans h.perm).trans (hothers.map _).symm

/-- Columns of points alike have the same measures. -/
theorem measures (h : source.Alike points others) (haxis : axis < source.dims)
    {values values' : List N} (hreads : source.Reads axis points values)
    (hreads' : source.Reads axis others values') :
    (values.map Coordinate.measure).Perm (values'.map Coordinate.measure) := by
  have hmeasures := hreads.measures (fun i hi => (h.finite i hi).complete) haxis
  have hmeasures' := hreads'.measures (fun i hi => (h.finite' i hi).complete) haxis
  rw [← List.map_perm_map_iff (Option.some_injective Int), hmeasures, hmeasures']
  exact h.perm.map _

end Alike

omit [Coordinate N] in
/-- A column can be read if every coordinate is there. -/
theorem exists_column (h : ∀ index ∈ points, source.Complete index) (haxis : axis < source.dims) :
    ∃ entries, source.column points axis = .ok entries := by
  obtain ⟨entries, hall⟩ : ∃ entries, List.Forall₂ (fun index (entry : Entry N) =>
      (return ⟨index, ← source.read index axis⟩ : Except Error (Entry N)) = .ok entry)
      points entries := by
    refine Outcome.exists_forall₂ fun index hindex => ?_
    obtain ⟨v, hread⟩ := (h index hindex).exists_read haxis
    exact ⟨⟨index, v⟩, by rw [hread]; rfl⟩
  exact ⟨entries, Outcome.mapM_eq_ok.mpr hall⟩

/-- There is a tight box around points if every coordinate is there. -/
theorem exists_boxAround (h : ∀ index ∈ points, source.Complete index) :
    ∃ box, source.boxAround points = .ok box := by
  obtain ⟨sides, hsides⟩ : ∃ sides, List.Forall₂ (fun axis side => points.foldlM
      (fun side index => return side.stretch (← source.read index axis)) Side.inverted =
        (.ok side : Except Error (Side N))) (List.range source.dims) sides := by
    refine Outcome.exists_forall₂ fun axis haxis => ?_
    obtain ⟨values, hvalues⟩ : ∃ values, List.Forall₂
        (fun index v => source.read index axis = .ok v) points values :=
      Outcome.exists_forall₂ fun index hindex =>
        (h index hindex).exists_read (List.mem_range.mp haxis)
    exact ⟨_, Outcome.foldlM_eq_ok.mpr ⟨values, hvalues, rfl⟩⟩
  exact ⟨⟨sides⟩, Outcome.bind_eq_ok.mpr ⟨sides, Outcome.mapM_eq_ok.mpr hsides, rfl⟩⟩

/-- Tight boxes around points alike are alike. -/
theorem Alike.boxAround [LawfulCoordinate N] (h : source.Alike points others) :
    Outcome.Both (fun box box' => box.Alike box' ∧ box.dims = source.dims)
      (source.boxAround points) (source.boxAround others) := by
  obtain ⟨box, hbox⟩ := exists_boxAround fun i hi => (h.finite i hi).complete
  obtain ⟨box', hbox'⟩ := exists_boxAround fun i hi => (h.finite' i hi).complete
  obtain ⟨hdims, hsides⟩ := boxAround_eq_ok hbox
  obtain ⟨hdims', hsides'⟩ := boxAround_eq_ok hbox'
  rw [hbox, hbox']
  refine .ok ⟨List.forall₂_iff_get.mpr ⟨hdims.trans hdims'.symm, fun axis hlt hlt' => ?_⟩, hdims⟩
  have haxis : axis < source.dims := hdims ▸ hlt
  obtain ⟨values, hreads, hside⟩ := hsides axis haxis
  obtain ⟨values', hreads', hside'⟩ := hsides' axis haxis
  obtain ⟨_, hside⟩ := List.getElem?_eq_some_iff.mp hside
  obtain ⟨_, hside'⟩ := List.getElem?_eq_some_iff.mp hside'
  show box.sides[axis].Alike box'.sides[axis]
  rw [hside, hside']
  refine Side.around_alike ?_ ?_ (h.measures haxis hreads hreads')
  · exact fun v hv => Comparison.right (hreads.finite h.finite haxis v hv).1
  · exact fun v hv => Comparison.right (hreads'.finite h.finite' haxis v hv).1

end Source

end Proximity

import Mathlib
import Proximity.Proofs.Profile
import Proximity.Proofs.Tree.Growth

/-!
# Building over points alike

Where points are parted depends on the measures of their coordinates alone, and each half of points
that cannot be parted has the same profiles however they are halved. So trees over points alike are
built node by node beside each other: both are built, or both fail with the same number of nodes.
-/

namespace Proximity

variable {N : Type} [Coordinate N] [LawfulCoordinate N]

/-- Values of one measure lie on one side of the middles of sides alike. -/
theorem Side.Alike.lt_middle_iff {side other : Side N} (h : side.Alike other)
    (hspread : side.low < side.high) {v w : N} (hv : v ≤ v) (hw : w ≤ w)
    (hmeasure : Coordinate.measure v = Coordinate.measure w) :
    v < Coordinate.middle side.low side.high ↔ w < Coordinate.middle other.low other.high := by
  rcases Coordinate.middle_congr h.measure_low h.measure_high hspread with
    heq | ⟨heq, heq'⟩
  · rw [heq]
    exact ⟨Comparison.lt_of_le_of_lt (Coordinate.le_of_measure hw hv hmeasure.symm),
      Comparison.lt_of_le_of_lt (Coordinate.le_of_measure hv hw hmeasure)⟩
  · rw [heq, heq', Coordinate.lt_iff_measure hv (Comparison.right h.le_low),
      Coordinate.lt_iff_measure hw (Comparison.left h.le_low), hmeasure, h.measure_low]

namespace Entry

variable {side other : Side N} {entries others ordered : Array (Entry N)}

/-- Whether each of some entries has the measure of one of the others. -/
structure Alike (entries others : Array (Entry N)) : Prop where
  finite : ∀ entry ∈ entries, Coordinate.IsFinite entry.value
  finite' : ∀ entry ∈ others, Coordinate.IsFinite entry.value
  into : ∀ entry ∈ entries, ∃ other ∈ others,
    Coordinate.measure entry.value = Coordinate.measure other.value
  back : ∀ other ∈ others, ∃ entry ∈ entries,
    Coordinate.measure other.value = Coordinate.measure entry.value

omit [LawfulCoordinate N] in
theorem Alike.symm (h : Alike entries others) : Alike others entries :=
  ⟨h.finite', h.finite, h.back, h.into⟩

/-- Whether entries are parted at a number of units: at the middle of a side if that parts them, and
otherwise just above the least or at the greatest of them. -/
inductive PartedAt (side : Side N) (entries : Array (Entry N)) (units : Int) : Prop
  | centre : (∃ entry ∈ entries, entry.value < Coordinate.middle side.low side.high) →
      (∃ entry ∈ entries, ¬ entry.value < Coordinate.middle side.low side.high) →
      Coordinate.measure (Coordinate.middle side.low side.high) = units → PartedAt side entries units
  | up : (∀ entry ∈ entries, ¬ entry.value < Coordinate.middle side.low side.high) →
      (∃ entry ∈ entries, Coordinate.measure entry.value = units) →
      (∃ entry ∈ entries, Coordinate.measure entry.value < units) →
      (∀ entry ∈ entries, Coordinate.measure entry.value < units → ∀ above ∈ entries,
        Coordinate.measure entry.value ≤ Coordinate.measure above.value) →
      PartedAt side entries units
  | down : (∀ entry ∈ entries, entry.value < Coordinate.middle side.low side.high) →
      (∃ entry ∈ entries, Coordinate.measure entry.value = units) →
      (∃ entry ∈ entries, Coordinate.measure entry.value < units) →
      (∀ entry ∈ entries, Coordinate.measure entry.value ≤ units) → PartedAt side entries units

/-- Entries are parted where the value that is found for them lies. -/
theorem Slides.partedAt {split : N} {count : Nat}
    (h : Slides side entries (ordered, some (split, count)))
    (hfinite : ∀ entry ∈ entries, Coordinate.IsFinite entry.value) :
    PartedAt side entries (Coordinate.measure split) := by
  cases h with
  | @up _ floor _ _ hperm hfloor hnone hlt hsplit hparted hleast =>
    obtain ⟨entry, hentry, rfl⟩ := hsplit
    have hself := Comparison.left hfloor.le_highest
    have hattained : ∃ entry ∈ entries, entry.value = floor := by
      rcases hfloor.attained with rfl | hattained
      · exact absurd (hfinite entry hentry).2 (Comparison.not_ge hlt)
      · exact hattained
    obtain ⟨lowest, hlowest, rfl⟩ := hattained
    refine .up hnone ⟨entry, hentry, rfl⟩ ⟨lowest, hlowest, Coordinate.measure_lt hlt⟩ ?_
    intro below hbelow hunits above habove
    have hbelow' := Comparison.right (hfinite below hbelow).1
    have habove' := Comparison.right (hfinite above habove).1
    have hunder : below.value < entry.value :=
      (Coordinate.lt_iff_measure hbelow' (Comparison.right (hfinite entry hentry).1)).mpr hunits
    have hle : below.value ≤ lowest.value :=
      Comparison.le_of_not_lt hself hbelow' fun hgt => hleast below hbelow hgt hunder
    exact Coordinate.measure_le (Comparison.trans hle
      (Comparison.le_of_not_lt habove' hself (hfloor.not_lt above habove)))
  | down hperm hceiling hall hne hparted =>
    have hself := Comparison.right hceiling.lowest_le
    have hunder : ∃ entry ∈ entries, entry.value < split := by
      have hsome := mt hparted.eq_zero_iff.mpr hne
      simpa only [not_forall, not_not, hperm.mem_iff, exists_prop] using hsome
    obtain ⟨below, hbelow, hlt⟩ := hunder
    refine .down hall ?_ ⟨below, hbelow, Coordinate.measure_lt hlt⟩ ?_
    · rcases hceiling.attained with rfl | ⟨entry, hentry, rfl⟩
      · exact absurd (hfinite below hbelow).1 (Comparison.not_ge hlt)
      · exact ⟨entry, hentry, rfl⟩
    · intro entry hentry
      exact Coordinate.measure_le (Comparison.le_of_not_lt hself
        (Comparison.right (hfinite entry hentry).1) (hceiling.not_lt entry hentry))
  | centre hperm hne hsize hparted =>
    have hunder := mt hparted.eq_zero_iff.mpr hne
    have hover := mt hparted.eq_size_iff.mpr hsize
    simp only [not_forall, not_not, hperm.mem_iff, exists_prop] at hunder hover
    exact .centre hunder hover rfl

namespace PartedAt

variable {units units' : Int}

omit [LawfulCoordinate N] in
/-- A cut parts alike lists at one measure only. -/
theorem unique (h : PartedAt side entries units) (h' : PartedAt side entries units') :
    units = units' := by
  cases h with
  | centre hunder hover hunits =>
    obtain ⟨under, hin, hlt⟩ := hunder
    obtain ⟨above, hin', hge⟩ := hover
    cases h' with
    | centre _ _ hunits' => exact hunits.symm.trans hunits'
    | up hnone => exact absurd hlt (hnone under hin)
    | down hall => exact absurd (hall above hin') hge
  | up hnone hat hunder hleast =>
    obtain ⟨entry, hin, rfl⟩ := hat
    obtain ⟨under, hunderIn, hunder⟩ := hunder
    cases h' with
    | centre hunder' =>
      obtain ⟨other, hin', hlt⟩ := hunder'
      exact absurd hlt (hnone other hin')
    | up _ hat' hunder' hleast' =>
      obtain ⟨entry', hin', rfl⟩ := hat'
      obtain ⟨under', hunderIn', hunder'⟩ := hunder'
      -- The lower one of the two would be least although something is below it.
      by_contra hne
      rcases Int.lt_or_gt_of_ne hne with hlt | hgt
      · have := hleast' entry hin hlt under hunderIn
        omega
      · have := hleast entry' hin' hgt under' hunderIn'
        omega
    | down hall => exact absurd (hall entry hin) (hnone entry hin)
  | down hall hat _ hgreatest =>
    obtain ⟨entry, hin, rfl⟩ := hat
    cases h' with
    | centre _ hover =>
      obtain ⟨other, hin', hge⟩ := hover
      exact absurd (hall other hin') hge
    | up hnone => exact absurd (hall entry hin) (hnone entry hin)
    | down _ hat' _ hgreatest' =>
      obtain ⟨entry', hin', rfl⟩ := hat'
      exact Int.le_antisymm (hgreatest' entry hin) (hgreatest entry' hin')

/-- Entries that are parted differ. -/
theorem differ (h : PartedAt side entries units)
    (hordered : ∀ entry ∈ entries, entry.value ≤ entry.value) :
    ∃ below ∈ entries, ∃ above ∈ entries,
      Coordinate.measure below.value < Coordinate.measure above.value := by
  cases h with
  | centre hunder hover _ =>
    obtain ⟨below, hbelow, hlt⟩ := hunder
    obtain ⟨above, habove, hge⟩ := hover
    refine ⟨below, hbelow, above, habove, Coordinate.measure_lt ?_⟩
    exact Comparison.lt_of_lt_of_le hlt (Comparison.le_of_not_lt (hordered above habove)
      (Comparison.right (Comparison.le hlt)) hge)
  | up _ hat hunder _ =>
    obtain ⟨above, habove, rfl⟩ := hat
    obtain ⟨below, hbelow, hlt⟩ := hunder
    exact ⟨below, hbelow, above, habove, hlt⟩
  | down _ hat hunder _ =>
    obtain ⟨above, habove, rfl⟩ := hat
    obtain ⟨below, hbelow, hlt⟩ := hunder
    exact ⟨below, hbelow, above, habove, hlt⟩

/-- Entries alike are parted at one number of units. -/
theorem congr (hside : side.Alike other) (hspread : side.low < side.high)
    (h : Alike entries others) (hparted : PartedAt side entries units) :
    PartedAt other others units := by
  have hmiddle {entry entry' : Entry N} (hin : entry ∈ entries) (hin' : entry' ∈ others)
      (hmeasure : Coordinate.measure entry.value = Coordinate.measure entry'.value) :
      entry.value < Coordinate.middle side.low side.high ↔
        entry'.value < Coordinate.middle other.low other.high :=
    hside.lt_middle_iff hspread (Comparison.right (h.finite entry hin).1)
      (Comparison.right (h.finite' entry' hin').1) hmeasure
  have hmove (p : Int → Prop) (hp : ∃ entry ∈ entries, p (Coordinate.measure entry.value)) :
      ∃ entry ∈ others, p (Coordinate.measure entry.value) := by
    obtain ⟨entry, hin, hp⟩ := hp
    obtain ⟨entry', hin', hmeasure⟩ := h.into entry hin
    exact ⟨entry', hin', hmeasure ▸ hp⟩
  cases hparted with
  | centre hunder hover hunits =>
    obtain ⟨under, hin, hlt⟩ := hunder
    obtain ⟨above, hin', hge⟩ := hover
    obtain ⟨under', hunder', hmeasure⟩ := h.into under hin
    obtain ⟨above', habove', hmeasure'⟩ := h.into above hin'
    refine .centre ⟨under', hunder', (hmiddle hin hunder' hmeasure).mp hlt⟩
      ⟨above', habove', mt (hmiddle hin' habove' hmeasure').mpr hge⟩ ?_
    rcases Coordinate.middle_congr hside.measure_low hside.measure_high hspread with
      heq | ⟨heq, heq'⟩
    · rw [← heq, hunits]
    · rw [heq', ← hside.measure_low, ← heq, hunits]
  | up hnone hat hunder hleast =>
    refine .up ?_ (hmove (· = units) hat) (hmove (· < units) hunder) ?_
    · intro entry' hin' hlt
      obtain ⟨entry, hin, hmeasure⟩ := h.back entry' hin'
      exact hnone entry hin ((hmiddle hin hin' hmeasure.symm).mpr hlt)
    · intro below' hbelow' hlt above' habove'
      obtain ⟨below, hbelow, hmeasure⟩ := h.back below' hbelow'
      obtain ⟨above, habove, hmeasure'⟩ := h.back above' habove'
      rw [hmeasure] at hlt ⊢
      rw [hmeasure']
      exact hleast below hbelow hlt above habove
  | down hall hat hunder hgreatest =>
    refine .down ?_ (hmove (· = units) hat) (hmove (· < units) hunder) ?_
    · intro entry' hin'
      obtain ⟨entry, hin, hmeasure⟩ := h.back entry' hin'
      exact (hmiddle hin hin' hmeasure.symm).mp (hall entry hin)
    · intro entry' hin'
      obtain ⟨entry, hin, hmeasure⟩ := h.back entry' hin'
      rw [hmeasure]
      exact hgreatest entry hin

end PartedAt

/-- Where entries cannot be parted, entries alike cannot be. -/
theorem Slides.none_of_none {result : Array (Entry N)} (h : Slides side entries (result, none))
    (halike : Alike entries others) {units : Int} : ¬ PartedAt other others units := by
  intro hparted
  obtain ⟨below', hbelow', above', habove', hlt⟩ :=
    hparted.differ fun entry hin => Comparison.right (halike.finite' entry hin).1
  obtain ⟨below, hbelow, hmeasure⟩ := halike.back below' hbelow'
  obtain ⟨above, habove, hmeasure'⟩ := halike.back above' habove'
  have hordered (entry) (hin : entry ∈ entries) : entry.value ≤ entry.value :=
    Comparison.right (halike.finite entry hin).1
  rw [hmeasure, hmeasure'] at hlt
  have hsome := h.isSome hordered hbelow habove
    ((Coordinate.lt_iff_measure (hordered below hbelow) (hordered above habove)).mpr hlt)
  nomatch hsome

/-- Entries alike are parted at values of one measure along sides alike, or not at all. -/
theorem slide_alike (hside : side.Alike other) (hspread : side.low < side.high)
    (h : Alike entries others) :
    Option.Rel (fun found found' => Coordinate.measure found.1 = Coordinate.measure found'.1)
      (slide side entries).2 (slide other others).2 := by
  have hslides := slide_slides side entries
  have hslides' := slide_slides other others
  generalize slide side entries = result at hslides ⊢
  generalize slide other others = result' at hslides' ⊢
  obtain ⟨ordered, found⟩ := result
  obtain ⟨ordered', found'⟩ := result'
  cases found with
  | none =>
    cases found' with
    | none => exact .none
    | some found' => exact absurd (hslides'.partedAt h.finite') (hslides.none_of_none h)
  | some found =>
    cases found' with
    | none => exact absurd (hslides.partedAt h.finite) (hslides'.none_of_none h.symm)
    | some found' =>
      exact .some (((hslides.partedAt h.finite).congr hside hspread h).unique
        (hslides'.partedAt h.finite'))

end Entry

/-- Whether two cuts are along one axis, at values numerically equal, and the points on both sides
of the one are alike to those of the other. -/
structure Cut.Alike (source : Source N) (cut other : Cut N) : Prop where
  axis_eq : cut.axis = other.axis
  split_le : cut.split ≤ other.split
  le_split : other.split ≤ cut.split
  below : source.Alike cut.below other.below
  above : source.Alike cut.above other.above

namespace Cut

variable {source : Source N} {cut other : Cut N}

/-- What lies on either side of a cut can be told from the profiles of all points. -/
theorem Separates.filter_profiles (h : cut.Separates source) (haxis : cut.axis < source.dims)
    (hself : cut.split ≤ cut.split)
    (hfinite : ∀ index ∈ cut.below ++ cut.above, source.FiniteAt index) :
    ((cut.below ++ cut.above).map source.profile).filter
        (fun profile => profile[cut.axis]?.any (· < Coordinate.measure cut.split)) =
      cut.below.map source.profile ∧
    ((cut.below ++ cut.above).map source.profile).filter
        (fun profile => !profile[cut.axis]?.any (· < Coordinate.measure cut.split)) =
      cut.above.map source.profile := by
  have hread {index : Nat} (hindex : index ∈ cut.below ++ cut.above) {v : N}
      (hv : source.coordinate? index cut.axis = some v) :
      (source.profile index)[cut.axis]?.any (· < Coordinate.measure cut.split) =
        decide (v < cut.split) := by
    obtain ⟨w, hw, hwfinite⟩ := hfinite index hindex cut.axis haxis
    obtain rfl := Option.some.inj (hv.symm.trans hw)
    rw [Source.getElem?_profile (hfinite index hindex).complete haxis, hv]
    exact decide_eq_decide.mpr
      (Coordinate.lt_iff_measure (Comparison.right hwfinite.1) hself).symm
  have hbelow : ∀ profile ∈ cut.below.map source.profile,
      profile[cut.axis]?.any (· < Coordinate.measure cut.split) = true := by
    rintro _ hprofile
    obtain ⟨index, hindex, rfl⟩ := List.mem_map.mp hprofile
    obtain ⟨v, hv, hlt⟩ := h.below index hindex
    rw [hread (List.mem_append_left _ hindex) hv]
    exact decide_eq_true hlt
  have habove : ∀ profile ∈ cut.above.map source.profile,
      profile[cut.axis]?.any (· < Coordinate.measure cut.split) = false := by
    rintro _ hprofile
    obtain ⟨index, hindex, rfl⟩ := List.mem_map.mp hprofile
    obtain ⟨v, hv, hge⟩ := h.above index hindex
    rw [hread (List.mem_append_right _ hindex) hv]
    exact decide_eq_false hge
  simp only [List.map_append, List.filter_append]
  constructor
  · rw [List.filter_eq_self.mpr hbelow, List.filter_eq_nil_iff.mpr, List.append_nil]
    exact fun profile hprofile => Bool.not_eq_true _ ▸ habove profile hprofile
  · rw [List.filter_eq_nil_iff.mpr, List.filter_eq_self.mpr, List.nil_append]
    · exact fun profile hprofile => by rw [habove profile hprofile]; rfl
    · exact fun profile hprofile => by rw [hbelow profile hprofile]; exact Bool.false_ne_true

/-- Cuts that separate points alike at values of one measure along one axis are alike. -/
theorem Separates.alike (h : cut.Separates source) (h' : other.Separates source)
    (haxis : cut.axis < source.dims) (haxes : cut.axis = other.axis)
    (hself : cut.split ≤ cut.split) (hself' : other.split ≤ other.split)
    (hmeasure : Coordinate.measure cut.split = Coordinate.measure other.split)
    (hpoints : source.Alike (cut.below ++ cut.above) (other.below ++ other.above)) :
    cut.Alike source other := by
  obtain ⟨hbelow, habove⟩ := h.filter_profiles haxis hself hpoints.finite
  obtain ⟨hbelow', habove'⟩ := h'.filter_profiles (haxes ▸ haxis) hself' hpoints.finite'
  rw [← haxes, ← hmeasure] at hbelow' habove'
  refine ⟨haxes, Coordinate.le_of_measure hself hself' hmeasure,
    Coordinate.le_of_measure hself' hself hmeasure.symm, ?_, ?_⟩
  · refine ⟨fun i hi => hpoints.finite i (List.mem_append_left _ hi),
      fun i hi => hpoints.finite' i (List.mem_append_left _ hi), ?_⟩
    rw [← hbelow, ← hbelow']
    exact hpoints.perm.filter _
  · refine ⟨fun i hi => hpoints.finite i (List.mem_append_right _ hi),
      fun i hi => hpoints.finite' i (List.mem_append_right _ hi), ?_⟩
    rw [← habove, ← habove']
    exact hpoints.perm.filter _

end Cut

namespace Source

variable {source : Source N} {box other : Box N} {points others : List Nat}

omit [LawfulCoordinate N] in
/-- The entries of columns of points alike are alike. -/
theorem Alike.entries (h : source.Alike points others) {axis : Nat} (haxis : axis < source.dims)
    {entries entries' : List (Entry N)} (hcolumn : source.column points axis = .ok entries)
    (hcolumn' : source.column others axis = .ok entries') :
    Entry.Alike entries.toArray entries'.toArray := by
  obtain ⟨-, hreads⟩ := column_eq_ok hcolumn
  obtain ⟨-, hreads'⟩ := column_eq_ok hcolumn'
  have hmeasures := h.measures haxis hreads hreads'
  have hfinite := hreads.finite h.finite haxis
  have hfinite' := hreads'.finite h.finite' haxis
  simp only [List.map_map] at hmeasures
  simp only [List.forall_mem_map] at hfinite hfinite'
  have hinto {list list' : List (Entry N)}
      (hperm : (list.map (Coordinate.measure ∘ Entry.value)).Perm
        (list'.map (Coordinate.measure ∘ Entry.value))) (entry : Entry N)
      (hentry : entry ∈ list.toArray) : ∃ entry' ∈ list'.toArray,
        Coordinate.measure entry.value = Coordinate.measure entry'.value := by
    obtain ⟨entry', hin, hmeasure⟩ := List.mem_map.mp
      (hperm.mem_iff.mp (List.mem_map_of_mem (List.mem_toArray.mp hentry)))
    exact ⟨entry', List.mem_toArray.mpr hin, hmeasure.symm⟩
  exact ⟨fun entry hentry => hfinite entry (List.mem_toArray.mp hentry),
    fun entry hentry => hfinite' entry (List.mem_toArray.mp hentry), hinto hmeasures,
    hinto hmeasures.symm⟩

omit [LawfulCoordinate N] in
theorem exists_cutLongest (hcomplete : ∀ index ∈ points, source.Complete index)
    (hdims : box.dims = source.dims) : ∃ result, source.cutLongest box points = .ok result := by
  unfold cutLongest
  dsimp only
  split
  · exact ⟨_, rfl⟩
  · next side hside =>
    split
    · have haxis : box.widest < source.dims := hdims ▸ (List.getElem?_eq_some_iff.mp hside).1
      obtain ⟨entries, hcolumn⟩ := exists_column hcomplete haxis
      rw [hcolumn]
      exact ⟨_, rfl⟩
    · exact ⟨_, rfl⟩

/-- Points alike are cut alike along the longest sides of boxes alike, or both are not. -/
theorem Alike.cutLongest (h : source.Alike points others) (hbox : box.Alike other)
    (hdims : box.dims = source.dims) :
    Outcome.Both (fun result result' => Option.Rel (Cut.Alike source) result.2 result'.2 ∧
        source.Alike result.1 result'.1)
      (source.cutLongest box points) (source.cutLongest other others) := by
  have hdims' : other.dims = source.dims := hbox.length_eq.symm.trans hdims
  obtain ⟨⟨rest, found⟩, hcut⟩ :=
    exists_cutLongest (fun i hi => (h.finite i hi).complete) hdims
  obtain ⟨⟨rest', found'⟩, hcut'⟩ :=
    exists_cutLongest (fun i hi => (h.finite' i hi).complete) hdims'
  have hrest := h.rearrange (cutLongest_perm hcut) (cutLongest_perm hcut')
  have hsides {side side' : Side N} (hside : box.sides[box.widest]? = some side)
      (hside' : other.sides[other.widest]? = some side') : side.Alike side' := by
    rw [← hbox.widest_eq] at hside'
    obtain ⟨hlt, rfl⟩ := List.getElem?_eq_some_iff.mp hside
    obtain ⟨hlt', rfl⟩ := List.getElem?_eq_some_iff.mp hside'
    exact hbox.get hlt hlt'
  rw [hcut, hcut']
  refine .ok ⟨?_, hrest⟩
  obtain ⟨rfl, -, hflat⟩ | ⟨side, entries, hside, hspread, hcolumn, -, hfound⟩ :=
    cutLongest_eq_ok hcut
  · obtain ⟨rfl, -, -⟩ | ⟨side', entries', hside', hspread', -⟩ := cutLongest_eq_ok hcut'
    · exact .none
    · have hin : box.widest < box.sides.length := by
        rw [hbox.widest_eq, hbox.length_eq]
        exact (List.getElem?_eq_some_iff.mp hside').1
      have hside := List.getElem?_eq_getElem hin
      exact absurd ((hsides hside hside').spread_iff.mpr hspread') (hflat _ hside)
  · obtain ⟨-, -, hflat'⟩ | ⟨side', entries', hside', -, hcolumn', -, hfound'⟩ :=
      cutLongest_eq_ok hcut'
    · have hin : other.widest < other.sides.length := by
        rw [← hbox.widest_eq, ← hbox.length_eq]
        exact (List.getElem?_eq_some_iff.mp hside).1
      have hside' := List.getElem?_eq_getElem hin
      exact absurd ((hsides hside hside').spread_iff.mp hspread) (hflat' _ hside')
    · have haxis : box.widest < source.dims := hdims ▸ (List.getElem?_eq_some_iff.mp hside).1
      rw [← hbox.widest_eq] at hcolumn'
      have hslide := Entry.slide_alike (hsides hside hside') hspread
        (h.entries haxis hcolumn hcolumn')
      generalize (Entry.slide side entries.toArray).2 = split at hfound hslide
      generalize (Entry.slide side' entries'.toArray).2 = split' at hfound' hslide
      cases hslide with
      | none =>
        rw [hfound, hfound']
        exact .none
      | @some split split' hmeasure =>
        obtain ⟨split, count⟩ := split
        obtain ⟨split', count'⟩ := split'
        rw [Option.map_some] at hfound hfound'
        rw [hfound] at hcut ⊢
        rw [hfound'] at hcut' ⊢
        obtain ⟨hseparates, hpoints, -, hself⟩ := cutLongest_separates hcut
        obtain ⟨hseparates', hpoints', -, hself'⟩ := cutLongest_separates hcut'
        refine .some (hseparates.alike hseparates' haxis hbox.widest_eq hself hself' hmeasure ?_)
        rw [hpoints, hpoints']
        exact hrest

/-- Finite points that their tight box cannot part have one profile. -/
theorem profile_eq_of_uncut {tight : Box N} {last : List Nat}
    (hfinite : ∀ index ∈ points, source.FiniteAt index)
    (htight : source.boxAround points = .ok tight)
    (hnone : source.cutLongest tight points = .ok (last, none)) {first second : Nat}
    (hfirst : first ∈ points) (hsecond : second ∈ points) :
    source.profile first = source.profile second := by
  have hlength {index : Nat} (hindex : index ∈ points) :
      (source.profile index).length = source.dims := by
    rw [profile, List.length_map, length_coordinates (hfinite index hindex).complete]
  refine List.ext_getElem? fun axis => ?_
  rcases Nat.lt_or_ge axis source.dims with haxis | hge
  · obtain ⟨v, hv, -⟩ := hfinite first hfirst axis haxis
    obtain ⟨w, hw, -⟩ := hfinite second hsecond axis haxis
    have hle := coincide_of_uncut hfinite htight hnone haxis hfirst hsecond hv hw
    have hge := coincide_of_uncut hfinite htight hnone haxis hsecond hfirst hw hv
    rw [getElem?_profile (hfinite first hfirst).complete haxis,
      getElem?_profile (hfinite second hsecond).complete haxis, hv, hw, Option.map_some,
      Option.map_some, Int.le_antisymm (Coordinate.measure_le hle) (Coordinate.measure_le hge)]
  · rw [List.getElem?_eq_none (hlength hfirst ▸ hge), List.getElem?_eq_none (hlength hsecond ▸ hge)]

omit [LawfulCoordinate N] in
/-- Points alike that have one profile have the same profiles in order. -/
theorem Alike.map_profile_eq (h : source.Alike points others)
    (hone : ∀ first ∈ points, ∀ second ∈ points, source.profile first = source.profile second) :
    points.map source.profile = others.map source.profile := by
  cases points with
  | nil =>
    rw [List.eq_nil_of_length_eq_zero h.length_eq.symm]
  | cons first points =>
    have hall : (first :: points).map source.profile =
        List.replicate (points.length + 1) (source.profile first) := by
      refine List.eq_replicate_of_mem ?_ |>.trans (by rw [List.length_map, List.length_cons])
      intro profile hprofile
      obtain ⟨index, hindex, rfl⟩ := List.mem_map.mp hprofile
      exact hone index hindex first List.mem_cons_self
    have hperm := h.perm
    rw [hall] at hperm ⊢
    exact (List.perm_replicate.mp hperm.symm).symm

omit [LawfulCoordinate N] in
/-- Halves of points alike that have the same profiles in order are alike. -/
theorem Alike.halve (h : source.Alike points others)
    (hsame : points.map source.profile = others.map source.profile) (half : Nat) :
    source.Alike (points.take half) (others.take half) ∧
      source.Alike (points.drop half) (others.drop half) := by
  constructor
  · refine ⟨fun i hi => h.finite i (List.mem_of_mem_take hi),
      fun i hi => h.finite' i (List.mem_of_mem_take hi), ?_⟩
    rw [List.map_take, List.map_take, hsame]
  · refine ⟨fun i hi => h.finite i (List.mem_of_mem_drop hi),
      fun i hi => h.finite' i (List.mem_of_mem_drop hi), ?_⟩
    rw [List.map_drop, List.map_drop, hsame]

/-- Finite points of one profile are numerically equal along every axis. -/
theorem le_of_profile_eq {first second axis : Nat} (hfirst : source.FiniteAt first)
    (hsecond : source.FiniteAt second) (haxis : axis < source.dims)
    (h : source.profile first = source.profile second) {v w : N}
    (hv : source.coordinate? first axis = some v) (hw : source.coordinate? second axis = some w) :
    v ≤ w := by
  obtain ⟨v', hv', hvfinite⟩ := hfirst axis haxis
  obtain rfl := Option.some.inj (hv.symm.trans hv')
  obtain ⟨w', hw', hwfinite⟩ := hsecond axis haxis
  obtain rfl := Option.some.inj (hw.symm.trans hw')
  have hmeasure := congrArg (·[axis]?) h
  rw [getElem?_profile hfirst.complete haxis, getElem?_profile hsecond.complete haxis,
    hv, hw] at hmeasure
  exact Coordinate.le_of_measure (Comparison.right hvfinite.1) (Comparison.right hwfinite.1)
    (Option.some.inj hmeasure)

/-- Points alike in boxes alike are cut alike. -/
theorem Alike.cut (h : source.Alike points others) (hbox : box.Alike other)
    (hdims : box.dims = source.dims) (hpos : 0 < source.dims) :
    Outcome.Both (Cut.Alike source) (source.cut box points) (source.cut other others) := by
  refine (h.cutLongest hbox hdims).bind ?_
  rintro ⟨rest, found⟩ ⟨rest', found'⟩ - - ⟨hfound, hrest⟩
  cases hfound with
  | some hcut => exact .ok hcut
  | none =>
    have hrest : source.Alike rest rest' := hrest
    refine hrest.boxAround.bind fun tight tight' htight _ ⟨halike, htightDims⟩ => ?_
    refine (hrest.cutLongest halike htightDims).bind ?_
    rintro ⟨last, found⟩ ⟨last', found'⟩ hagain - ⟨hfound, hlast⟩
    cases hfound with
    | some hcut => exact .ok hcut
    | none =>
      have hlast : source.Alike last last' := hlast
      have hperm : last.Perm rest := cutLongest_perm hagain
      have hone (first) (hfirst : first ∈ last) (second) (hsecond : second ∈ last) :=
        profile_eq_of_uncut hrest.finite htight hagain (hperm.mem_iff.mp hfirst)
          (hperm.mem_iff.mp hsecond)
      have hsame := hlast.map_profile_eq hone
      obtain ⟨hbelow, habove⟩ := hlast.halve hsame (last.length / 2)
      have hlength := hlast.length_eq
      cases last with
      | nil =>
        obtain rfl := List.eq_nil_of_length_eq_zero hlength.symm
        exact .error _
      | cons first last =>
        cases last' with
        | nil => nomatch hlength
        | cons first' last' =>
          have hfirst := hlast.finite first List.mem_cons_self
          have hfirst' := hlast.finite' first' List.mem_cons_self
          have hprofile := (List.cons.inj hsame).1
          obtain ⟨v, hv, -⟩ := hfirst 0 hpos
          obtain ⟨v', hv', -⟩ := hfirst' 0 hpos
          dsimp only
          rw [read_eq_ok.mpr hv, read_eq_ok.mpr hv', ← hlength]
          exact .ok ⟨rfl, le_of_profile_eq hfirst hfirst' hpos hprofile hv hv',
            le_of_profile_eq hfirst' hfirst hpos hprofile.symm hv' hv, hbelow, habove⟩

end Source

namespace Tree

variable {source : Source N} {options : BuildOptions} {points others : List Nat}

/-- Subtrees over points alike are grown beside each other, with as many nodes. -/
theorem grow_alike {levels count first : Nat} {box other : Box N}
    (h : source.Alike points others) (hbox : box.Alike other) (hdims : box.dims = source.dims)
    (hpos : 0 < source.dims) :
    Outcome.Both (fun growth growth' => growth.count = growth'.count)
      (grow source options levels count first box points)
      (grow source options levels count first other others) := by
  induction levels generalizing count first box other points others with
  | zero => exact .error _
  | succ levels ih =>
    rw [grow, grow, ← h.length_eq]
    by_cases hfits : points.length ≤ options.leafSize
    · rw [if_pos hfits, if_pos hfits]
      exact .ok rfl
    rw [if_neg hfits, if_neg hfits]
    refine (h.cut hbox hdims hpos).bind fun cut cut' _ _ hcut => ?_
    obtain ⟨-, -, -, hbelow, habove⟩ := hcut
    refine .bind_same _ fun _ => .bind_same _ fun _ => ?_
    refine hbelow.boxAround.bind fun lower lower' _ _ hlower => ?_
    obtain ⟨hlower, hlowerDims⟩ := hlower
    refine habove.boxAround.bind fun upper upper' _ _ hupper => ?_
    obtain ⟨hupper, hupperDims⟩ := hupper
    refine (ih hbelow hlower hlowerDims).bind fun left left' _ _ hleft => ?_
    rw [← hbelow.length_eq, ← hleft]
    exact (ih habove hupper hupperDims).bind fun right right' _ _ hright => .ok hright

/-- Trees over points alike are both built, with boxes alike, or refused for one reason. A box known
beforehand must have ends that are ordered. -/
theorem build_alike (h : source.Alike points others) (bounds : Option (Box N))
    (hbounds : ∀ box, bounds = some box → points ≠ [] → box.Alike box) :
    Outcome.Both (fun tree tree' => tree.box.Alike tree'.box)
      (build source options points bounds) (build source options others bounds) := by
  have hempty : others.isEmpty = points.isEmpty := by
    rw [Bool.eq_iff_iff, List.isEmpty_iff_length_eq_zero, List.isEmpty_iff_length_eq_zero,
      h.length_eq]
  unfold build
  rw [hempty]
  refine .bind_same _ fun _ => ?_
  refine .guard fun hzero => .guard fun _ => .guard fun hsome => ?_
  have hgrow {box box' : Box N} (hbox : box.Alike box') (hdims : box.dims = source.dims) :
      Outcome.Both (fun tree tree' : Tree N => tree.box.Alike tree'.box)
        (options.requireRoom 0 >>= fun _ => grow source options maxWord32 1 0 box points >>=
          fun growth => .ok ⟨source.dims, options.leafSize, growth.order.toArray, box, growth.node⟩)
        (options.requireRoom 0 >>= fun _ => grow source options maxWord32 1 0 box' others >>=
          fun growth =>
            .ok ⟨source.dims, options.leafSize, growth.order.toArray, box', growth.node⟩) := by
    refine .bind_same _ fun _ => ?_
    exact (grow_alike h hbox hdims (Nat.pos_of_ne_zero hzero)).bind fun _ _ _ _ _ => .ok hbox
  cases bounds with
  | none => exact h.boxAround.bind fun box box' _ _ ⟨hbox, hdims⟩ => hgrow hbox hdims
  | some box =>
    dsimp only
    split
    · next hdims => exact hgrow (hbounds box rfl (mt List.isEmpty_iff.mpr hsome)) hdims
    · exact .error _

end Tree

end Proximity
